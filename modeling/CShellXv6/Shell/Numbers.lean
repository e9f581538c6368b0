import CShellXv6.Shell.Builtins
import CShellXv6.Shell.Commands
import CShellXv6.Shell.History

/-! # Numbers on the command line

`ping` and `resume` accept any string of digits and convert it with `atoi`, which keeps the
largest `long` for what does not fit and then only the low 32 bits. Numbers of jobs and
processes are kept as these bits; the remainder of the signal has the sign of the `int`.
-/
namespace CShellXv6.Numbers
open Lexer Commands
open Executor (isAllDigits)
open History (toLong toInt)
open Jobs (Os Job Pause findJob jobsRefreshStates runningOs)
open Launch (Call Pid)

/-- What the digits say. -/
def value (digits : CString) : ℕ := Nat.ofDigitChars 10 digits 0

/-- `atoi` on a string of digits. -/
def atoi (digits : CString) : ℤ := toInt (toLong (value digits))

/-- The bits of an `int`. -/
def bits (i : ℤ) : ℕ := (i % 4294967296).toNat

/-! ## `ping` -/

structure Kill where
  call : Call
  sig : ℤ
  deriving DecidableEq, Repr

inductive PingLine
  | invalidSyntax
  | noSuchProcess
  | sent (rawSig : ℤ) (target : CString)
  deriving DecidableEq, Repr

section
variable {σ : Type*} (os : Os σ) (s : System σ)

def jobsSendSignalToJob (jobId : ℕ) (sig : ℤ) : Option Kill :=
  (s.target os jobId).map fun job => ⟨signal job,sig⟩

def jobsSendSignalToPid (pid : ℕ) (sig : ℤ) : Option Kill :=
  if s.isTracked os pid then some ⟨.kill pid,sig⟩ else none

/-- The message for what was sent, if anything was. -/
def reply (sent : Option Kill) (rawSig : ℤ) (target : CString) : Option Kill × PingLine :=
  match sent with
  | some kill => (some kill,.sent rawSig target)
  | none => (none,.noSuchProcess)

/-- The call of `kill` and the message; `none` when a NULL target is read. -/
def pingCmd (list : TokenList) : Option (Option Kill × PingLine) :=
  match list with
  | [_,t1,t2] =>
    match t2.text with
    | none => some (none,.invalidSyntax)
    | some sigStr =>
      if isAllDigits sigStr = false then some (none,.invalidSyntax)
      else
        let rawSig := atoi sigStr
        let actualSig := rawSig.tmod 64
        t1.text.map fun target =>
          match target with
          | '%' :: digits =>
            if isAllDigits digits = false then (none,.invalidSyntax)
            else
              reply (jobsSendSignalToJob os s (bits (atoi digits)) actualSig) rawSig target
          | _ =>
            if isAllDigits target = false then (none,.invalidSyntax)
            else reply (jobsSendSignalToPid os s (bits (atoi target)) actualSig) rawSig target
  | _ => some (none,.invalidSyntax)

/-- No process has a number that is no positive `int`. -/
def signalProcess (pid : ℕ) (sig : ℤ) : Option Kill :=
  if pid < 2 ^ 31 then jobsSendSignalToPid os s pid sig else none

end

/-! ## `resume` -/

inductive Mode
  | bg
  | fg (timeoutSeconds : ℕ)
  deriving DecidableEq, Repr

/-- How the command line is read. -/
inductive Request
  | nullRead
  | invalidSyntax
  | resume (jobId : ℕ) (mode : Mode)
  deriving DecidableEq, Repr

/-- The tokens behind `fg`. -/
def readTimeout (jobId : ℕ) : TokenList → Request
  | [] => .resume jobId (.fg 0)
  | [t3,t4] =>
    match t3.text with
    | none => .nullRead
    | some option =>
      if option ≠ "--timeout".toList then .invalidSyntax
      else
        match t4.text with
        | none => .invalidSyntax
        | some toStr =>
          if isAllDigits toStr = false then .invalidSyntax
          else if atoi toStr ≤ 0 then .invalidSyntax
          else .resume jobId (.fg (atoi toStr).toNat)
  | _ => .invalidSyntax

def resumeCmd (list : TokenList) : Request :=
  match list with
  | _ :: t1 :: t2 :: rest =>
    match t1.text with
    | some ('%' :: digits) =>
      if isAllDigits digits = false then .invalidSyntax
      else
        let jobId := bits (atoi digits)
        match t2.text with
        | none => .invalidSyntax
        | some mode =>
          if mode = "bg".toList then
            if rest = [] then .resume jobId .bg else .invalidSyntax
          else if mode = "fg".toList then readTimeout jobId rest
          else .invalidSyntax
    | _ => .invalidSyntax
  | _ => .invalidSyntax

/-- What happens while a job is in the foreground. -/
structure Foreground where
  pauses : List Pause
  late : Bool
  isatty : Bool
  getpgrp : Pid

def Mode.event (f : Foreground) (jobId : ℕ) : Mode → Event
  | .bg => .resumeBg jobId
  | .fg timeoutSeconds => .resumeFg jobId timeoutSeconds f.pauses f.late f.isatty f.getpgrp

/-! ## Conversion -/

/-- The `int` that is made of a value: its low 32 bits, or -1 when it is no `long`. -/
theorem atoi_cases (digits : CString) :
    (value digits < 2 ^ 63 ∧ value digits % 2 ^ 32 < 2 ^ 31 ∧
        atoi digits = (value digits % 2 ^ 32 : ℕ)) ∨
      (value digits < 2 ^ 63 ∧ 2 ^ 31 ≤ value digits % 2 ^ 32 ∧
        atoi digits = (value digits % 2 ^ 32 : ℕ) - 4294967296) ∨
      (2 ^ 63 ≤ value digits ∧ atoi digits = -1) := by
  unfold atoi toInt toLong History.longMin History.longMax
  generalize value digits = v
  rw [Int.bmod_def]
  omega

theorem bits_atoi {digits : CString} (h : value digits < 2 ^ 31) :
    bits (atoi digits) = value digits := by
  unfold bits
  rcases atoi_cases digits with ⟨_,_,heq⟩ | ⟨_,hlarge,_⟩ | ⟨hlarge,_⟩
  · omega
  · omega
  · omega

/-- The numbers that give the signal they say. -/
def Plain (v : ℕ) : Prop := v < 2 ^ 63 ∧ (v % 2 ^ 32 < 2 ^ 31 ∨ 64 ∣ v)

theorem tmod_atoi_iff {digits : CString} :
    (atoi digits).tmod 64 = (value digits % 64 : ℕ) ↔ Plain (value digits) := by
  have hcases := atoi_cases digits
  unfold Plain
  generalize value digits = v at hcases
  generalize atoi digits = i at hcases
  -- a negative `int` leaves a negative remainder unless it is a multiple
  have hrem : i.tmod 64 = if 0 ≤ i ∨ 64 ∣ i then i % 64 else i % 64 - 64 := by
    rw [Int.tmod_eq_emod]
    split
    · exact Int.sub_zero _
    · rfl
  rw [hrem]
  rcases hcases with ⟨hlong,hsmall,heq⟩ | ⟨hlong,hlarge,heq⟩ | ⟨hlarge,heq⟩
  · rw [if_pos (by omega)]
    omega
  · split
    · omega
    · omega
  · rw [if_neg (by omega)]
    omega

/-! ## Finding the job -/

section
variable {σ : Type*} {os : Os σ} {s : System σ}

/-- The table as `jobs_get_by_id` searches it. -/
def refreshed (os : Os σ) (s : System σ) : List Job × σ × List Call :=
  jobsRefreshStates (logged os) s.shell.table (s.env,s.shell.calls)

theorem target_eq_some {jobId i : ℕ} (h : findJob jobId (refreshed os s).1 = some i) :
    ∃ job, (refreshed os s).1[i]? = some job ∧ job.jobId = jobId ∧
      s.target os jobId = some job := by
  obtain ⟨hi,hmatch,_⟩ := List.findIdx?_eq_some_iff_getElem.mp h
  simp only [Bool.and_eq_true, beq_iff_eq] at hmatch
  have hget := List.getElem?_eq_getElem hi
  refine ⟨_,hget,hmatch.1.2,?_⟩
  exact Option.bind_eq_some_iff.mpr ⟨i,h,hget⟩

theorem target_eq_none {jobId : ℕ} (h : findJob jobId (refreshed os s).1 = none) :
    s.target os jobId = none := by
  exact Option.bind_eq_none_iff.mpr fun i hi => absurd (h.symm.trans hi) (by simp)

theorem findJob_none_of_target {jobId : ℕ} (h : s.target os jobId = none) :
    findJob jobId (refreshed os s).1 = none := by
  cases hfind : findJob jobId (refreshed os s).1 with
  | none => rfl
  | some i =>
    obtain ⟨job,_,_,htarget⟩ := target_eq_some hfind
    rw [h] at htarget
    cases htarget

/-- A number that no job of the table has is not found. -/
theorem target_none {jobId : ℕ} (h : ∀ job ∈ s.shell.table, job.jobId ≠ jobId) :
    s.target os jobId = none := by
  cases hfind : findJob jobId (refreshed os s).1 with
  | none => exact target_eq_none hfind
  | some i =>
    obtain ⟨job,hget,hid,_⟩ := target_eq_some hfind
    obtain ⟨old,hold,hpersists⟩ := Jobs.jobsRefreshStates_persists (logged os) s.shell.table
      (s.env,s.shell.calls) i job hget
    exact absurd (hpersists.jobId.symm.trans hid) (h old (List.mem_of_getElem? hold))

/-! ## What `resume` does with a number -/

/-- Without a job only the message is printed. -/
theorem run_missing {jobId : ℕ} (h : s.target os jobId = none) (f : Foreground) (mode : Mode) :
    s.run os (mode.event f jobId) =
      some (s.after ⟨(refreshed os s).1,s.shell.nextJobId,(refreshed os s).2,[.noSuchJob]⟩ []) := by
  have hfind := findJob_none_of_target h
  cases mode with
  | bg =>
    simp only [Mode.event, System.run, System.call, Jobs.step, Jobs.jobsResumeBg, System.jobs, h]
    rw [refreshed] at hfind
    rw [hfind]
    rfl
  | fg timeoutSeconds =>
    simp only [Mode.event, System.run, System.call, Jobs.step, Jobs.jobsResumeFg, System.jobs, h]
    rw [refreshed] at hfind
    rw [hfind]
    rfl

/-- With a job the first line is not that message. -/
theorem run_found {jobId : ℕ} {job : Job} (h : s.target os jobId = some job) (f : Foreground)
    (mode : Mode) {t : System σ} (ht : s.run os (mode.event f jobId) = some t) :
    t.shell.out.head? ≠ some (.job .noSuchJob) := by
  cases hfind : findJob jobId (refreshed os s).1 with
  | none =>
    rw [target_eq_none hfind] at h
    cases h
  | some i =>
    obtain ⟨job',hget,_,_⟩ := target_eq_some hfind
    rw [refreshed] at hfind hget
    cases mode with
    | bg =>
      simp only [Mode.event, System.run, System.call, Jobs.step, Jobs.jobsResumeBg, System.jobs,
        hfind, hget] at ht
      cases ht
      simp [System.after]
    | fg timeoutSeconds =>
      simp only [Mode.event, System.run, System.call, Jobs.step, Jobs.jobsResumeFg, System.jobs,
        hfind, hget, Option.map_map] at ht
      obtain ⟨q,_,rfl⟩ := Option.map_eq_some_iff.mp ht
      simp [System.after]

theorem readTimeout_jobId {jobId k : ℕ} {rest : TokenList} {mode : Mode}
    (h : readTimeout k rest = .resume jobId mode) : jobId = k := by
  unfold readTimeout at h
  split at h
  · cases h
    rfl
  · split at h
    · cases h
    split at h
    · cases h
    split at h
    · cases h
    split at h
    · cases h
    split at h
    · cases h
    · cases h
      rfl
  · cases h

theorem resumeCmd_jobId {t0 : Token} {digits : CString} {rest : TokenList} {jobId : ℕ} {mode : Mode}
    (h : resumeCmd (t0 :: .word ('%' :: digits) :: rest) = .resume jobId mode) :
    jobId = bits (atoi digits) := by
  cases rest with
  | nil => cases h
  | cons t2 rest =>
    simp only [resumeCmd, Token.word_text] at h
    split at h
    · cases h
    split at h
    · cases h
    split at h
    · split at h
      · cases h
        rfl
      · cases h
    split at h
    · exact readTimeout_jobId h
    · cases h

/-! ## Numbers that mean what they say -/

theorem reply_inj {a b : Option Kill} {rawSig : ℤ} {target : CString} :
    reply a rawSig target = reply b rawSig target ↔ a = b := by
  cases a with
  | none =>
    cases b with
    | none => exact iff_of_true rfl rfl
    | some kill => simp [reply]
  | some kill =>
    cases b with
    | none => simp [reply]
    | some kill' => simp [reply]

theorem pingCmd_job {t0 : Token} {digits sigDigits : CString} (hdigits : isAllDigits digits = true)
    (hsig : isAllDigits sigDigits = true) :
    pingCmd os s [t0,.word ('%' :: digits),.word sigDigits] =
      some (reply (jobsSendSignalToJob os s (bits (atoi digits)) ((atoi sigDigits).tmod 64))
        (atoi sigDigits) ('%' :: digits)) := by
  simp [pingCmd, hdigits, hsig]

theorem pingCmd_pid {t0 : Token} {digits sigDigits : CString} (hdigits : isAllDigits digits = true)
    (hsig : isAllDigits sigDigits = true) :
    pingCmd os s [t0,.word digits,.word sigDigits] =
      some (reply (jobsSendSignalToPid os s (bits (atoi digits)) ((atoi sigDigits).tmod 64))
        (atoi sigDigits) digits) := by
  simp only [pingCmd, Token.word_text, hsig, Bool.true_eq_false, ↓reduceIte, Option.map_some]
  split
  · cases hdigits
  · simp [hdigits]

section
variable (hids : ∀ job ∈ s.shell.table, job.jobId < 2 ^ 31)
include hids

theorem target_none_of_le {v : ℕ} (h : 2 ^ 31 ≤ v) : s.target os v = none := by
  apply target_none
  intro job hjob
  exact ((hids job hjob).trans_le h).ne

theorem sendSignalToJob_iff {digits : CString} {sig sig' : ℤ} :
    jobsSendSignalToJob os s (bits (atoi digits)) sig =
        jobsSendSignalToJob os s (value digits) sig' ↔
      s.target os (bits (atoi digits)) = none ∨ value digits < 2 ^ 31 ∧ sig = sig' := by
  unfold jobsSendSignalToJob
  by_cases hsmall : value digits < 2 ^ 31
  · rw [bits_atoi hsmall, and_iff_right hsmall]
    cases s.target os (value digits) with
    | none => simp
    | some job => simp
  · rw [target_none_of_le hids (by omega : 2 ^ 31 ≤ value digits), Option.map_none,
      Option.map_eq_none_iff]
    exact (or_iff_left (fun h => hsmall h.1)).symm

theorem run_resume_iff {digits : CString} {f : Foreground} {mode : Mode} :
    s.run os (mode.event f (bits (atoi digits))) = s.run os (mode.event f (value digits)) ↔
      s.target os (bits (atoi digits)) = none ∨ value digits < 2 ^ 31 := by
  by_cases hsmall : value digits < 2 ^ 31
  · rw [bits_atoi hsmall]
    exact iff_of_true rfl (Or.inr hsmall)
  · have hnone : s.target os (value digits) = none := target_none_of_le hids (by omega)
    have hmissing := run_missing hnone f mode
    rw [or_iff_left hsmall]
    constructor
    · intro heq
      rw [hmissing] at heq
      cases hfound : s.target os (bits (atoi digits)) with
      | none => rfl
      | some job => exact absurd rfl (run_found hfound f mode heq)
    · intro habsent
      rw [run_missing habsent, hmissing]

end

theorem sendSignalToPid_iff {digits : CString} {sig sig' : ℤ} :
    jobsSendSignalToPid os s (bits (atoi digits)) sig = signalProcess os s (value digits) sig' ↔
      s.isTracked os (bits (atoi digits)) = false ∨ value digits < 2 ^ 31 ∧ sig = sig' := by
  unfold signalProcess jobsSendSignalToPid
  by_cases hsmall : value digits < 2 ^ 31
  · rw [bits_atoi hsmall, and_iff_right hsmall, if_pos hsmall]
    cases s.isTracked os (value digits) with
    | false => simp
    | true => simp
  · rw [if_neg hsmall, or_iff_left (fun h => hsmall h.1)]
    cases s.isTracked os (bits (atoi digits)) with
    | false => simp
    | true => simp

end

/-- The command acts on what the numbers say exactly when it finds nothing under the number
it makes of them, or when that number is the one on the line and the remainder of the
signal is not that of a negative `int`. -/
theorem numbers_meant_iff {σ : Type*} {os : Os σ} {s : System σ}
    (hids : ∀ job ∈ s.shell.table, job.jobId < 2 ^ 31) (t0 : Token)
    {digits sigDigits : CString} (hdigits : isAllDigits digits = true)
    (hsig : isAllDigits sigDigits = true) :
    (pingCmd os s [t0,.word ('%' :: digits),.word sigDigits] =
        some (reply (jobsSendSignalToJob os s (value digits) (value sigDigits % 64 : ℕ))
          (atoi sigDigits) ('%' :: digits)) ↔
      s.target os (bits (atoi digits)) = none ∨
        value digits < 2 ^ 31 ∧ Plain (value sigDigits)) ∧
    (pingCmd os s [t0,.word digits,.word sigDigits] =
        some (reply (signalProcess os s (value digits) (value sigDigits % 64 : ℕ))
          (atoi sigDigits) digits) ↔
      s.isTracked os (bits (atoi digits)) = false ∨
        value digits < 2 ^ 31 ∧ Plain (value sigDigits)) ∧
    ∀ f rest jobId mode, resumeCmd (t0 :: .word ('%' :: digits) :: rest) = .resume jobId mode →
      (s.run os (mode.event f jobId) = s.run os (mode.event f (value digits)) ↔
        s.target os (bits (atoi digits)) = none ∨ value digits < 2 ^ 31) := by
  refine ⟨?_,?_,fun f rest jobId mode hresume => ?_⟩
  · rw [pingCmd_job hdigits hsig, Option.some_inj, reply_inj, sendSignalToJob_iff hids,
      tmod_atoi_iff]
  · rw [pingCmd_pid hdigits hsig, Option.some_inj, reply_inj, sendSignalToPid_iff, tmod_atoi_iff]
  · rw [resumeCmd_jobId hresume]
    exact run_resume_iff hids

/-- A shell with the job `[1]` of the process 70. -/
def oneJob : System Unit :=
  ⟨{ Launch.start with
      table := [⟨1,70,[⟨70,"sleep".toList,.running⟩],true,false,false,false,"sleep 9".toList,false⟩]
      nextJobId := 2 },(),true⟩

def pingToken : Token := .word "ping".toList

theorem numbers_meant_plain :
    pingCmd runningOs oneJob [pingToken,.word "%1".toList,.word "73".toList] =
        some (some ⟨.kill (negate 70),9⟩,.sent 73 "%1".toList) ∧
      pingCmd runningOs oneJob [pingToken,.word "%1".toList,.word "73".toList] =
        some (reply (jobsSendSignalToJob runningOs oneJob (value "1".toList)
          (value "73".toList % 64 : ℕ)) (atoi "73".toList) "%1".toList) := by
  refine ⟨by decide +kernel,?_⟩
  apply (numbers_meant_iff (by decide +kernel) pingToken (by decide) (by decide)).1.mpr
  exact Or.inr ⟨by decide +kernel,by decide +kernel,Or.inl (by decide +kernel)⟩

/-- The first number is taken for 1 and the second one gives a negative signal. -/
theorem numbers_wrapped :
    value "4294967297".toList = 4294967297 ∧
      pingCmd runningOs oneJob [pingToken,.word "%4294967297".toList,.word "9".toList] =
        some (some ⟨.kill (negate 70),9⟩,.sent 9 "%4294967297".toList) ∧
      pingCmd runningOs oneJob [pingToken,.word "4294967366".toList,.word "9".toList] =
        some (some ⟨.kill 70,9⟩,.sent 9 "4294967366".toList) ∧
      resumeCmd [.word "resume".toList,.word "%4294967297".toList,.word "bg".toList] =
        .resume 1 .bg ∧
      value "2147483649".toList % 64 = 1 ∧
      pingCmd runningOs oneJob [pingToken,.word "%1".toList,.word "2147483649".toList] =
        some (some ⟨.kill (negate 70),-63⟩,.sent (-2147483647) "%1".toList) := by
  refine ⟨?_,?_,?_,?_,?_,?_⟩ <;> decide +kernel

end CShellXv6.Numbers
