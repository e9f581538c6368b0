import CShellXv6.Library.Transition
import Mathlib.Data.Nat.Basic

/-! # Several input redirections

With two or more input files the command forks a feeder that copies them into a
pipe, and waits for the feeder before it starts the program. The same code
stands in `execute_cmd_internal` and in `execute_stage_child`. The read end
stays open in the waiting command, so a write can block but not fail.
-/
namespace CShellXv6.Feeder
open Transition

abbrev Byte := UInt8

/-- One copy of the feeder code, by the size of its buffer. -/
structure Code where
  bufSize : ℕ
  pos : 0 < bufSize

def executeCmdInternalFeeder : Code := ⟨4096,by decide⟩

def executeStageChildFeeder : Code := ⟨4096,by decide⟩

/-- Where the feeder stands: before the next file, before a `read`, inside the
`write` loop with the unwritten rest of the buffer, or gone. -/
inductive FeederAt
  | nextFile (files : List (List Byte))
  | readLoop (file : List Byte) (files : List (List Byte))
  | writeLoop (pending file : List Byte) (files : List (List Byte))
  | exited
  deriving DecidableEq, Repr

/-- The command waits for the feeder and then is the program, with what it has
read so far and whether it has seen end-of-file. -/
inductive CommandAt
  | waiting
  | running (got : List Byte) (eof : Bool)
  deriving DecidableEq, Repr

structure State where
  pipe : List Byte
  feeder : FeederAt
  command : CommandAt
  deriving DecidableEq, Repr

/-- A step of one of the two processes; the number is the length of the
transfer where the system call leaves it open. -/
inductive Event
  | feeder (n : ℕ)
  | command (n : ℕ)
  deriving DecidableEq, Repr

def feederStep (code : Code) (capacity n : ℕ) (pipe : List Byte) :
    FeederAt → Option (List Byte × FeederAt)
  | .nextFile [] => some (pipe,.exited)
  | .nextFile (file :: files) => some (pipe,.readLoop file files)
  | .readLoop [] files => some (pipe,.nextFile files)
  | .readLoop file files =>
    if 0 < n ∧ n ≤ code.bufSize then some (pipe,.writeLoop (file.take n) (file.drop n) files)
    else none
  | .writeLoop pending file files =>
    if 0 < n ∧ n ≤ pending.length ∧ pipe.length + n ≤ capacity then
      some (pipe ++ pending.take n,
        if pending.drop n = [] then .readLoop file files
        else .writeLoop (pending.drop n) file files)
    else none
  | .exited => none

def commandStep (n : ℕ) (pipe : List Byte) (feeder : FeederAt) :
    CommandAt → Option (List Byte × CommandAt)
  | .waiting => if feeder = .exited then some (pipe,.running [] false) else none
  | .running got eof =>
    if n = 0 then none
    else if pipe ≠ [] then some (pipe.drop n,.running (got ++ pipe.take n) eof)
    else if feeder = .exited then some ([],.running got true)
    else none

def step (code : Code) (capacity : ℕ) (s : State) : Event → Option State
  | .feeder n => (feederStep code capacity n s.pipe s.feeder).map
      (fun r => { s with pipe := r.1, feeder := r.2 })
  | .command n => (commandStep n s.pipe s.feeder s.command).map
      (fun r => { s with pipe := r.1, command := r.2 })

def initial (files : List (List Byte)) : State := ⟨[],.nextFile files,.waiting⟩

/-- Neither process can move and the program has not been started. -/
def Deadlock (code : Code) (capacity : ℕ) (s : State) : Prop :=
  s.command = .waiting ∧ ∀ e, step code capacity s e = none

/-- What the program has read is correct so far, and complete at end-of-file. -/
def ReadsCorrectly (files : List (List Byte)) : CommandAt → Prop
  | .waiting => True
  | .running got eof => got <+: files.flatten ∧ (eof = true → got = files.flatten)

/-- The bytes that the feeder still has to write. -/
def FeederAt.unsent : FeederAt → List Byte
  | .nextFile files => files.flatten
  | .readLoop file files => file ++ files.flatten
  | .writeLoop pending file files => pending ++ (file ++ files.flatten)
  | .exited => []

def CommandAt.got : CommandAt → List Byte
  | .waiting => []
  | .running got _ => got

/-- No byte is lost, duplicated or reordered on its way, the write loop is
entered with something to write, and the program runs only after the feeder. -/
structure Invariant (files : List (List Byte)) (s : State) : Prop where
  bytes : s.command.got ++ (s.pipe ++ s.feeder.unsent) = files.flatten
  pending : ∀ pending file rest, s.feeder = .writeLoop pending file rest → pending ≠ []
  started : s.command ≠ .waiting → s.feeder = .exited
  eof : ∀ got, s.command = .running got true → s.pipe = []

/-- A step of the feeder keeps the bytes in order and enters the write loop only
with something to write. -/
theorem feederStep_spec {code : Code} {capacity n : ℕ} {pipe pipe' : List Byte} {f f' : FeederAt}
    (h : feederStep code capacity n pipe f = some (pipe',f')) :
    f ≠ .exited ∧ pipe' ++ f'.unsent = pipe ++ f.unsent ∧
      (∀ pending file rest, f' = .writeLoop pending file rest → pending ≠ []) ∧
      (pipe.length ≤ capacity → pipe'.length ≤ capacity) := by
  cases f with
  | nextFile files =>
    cases files with
    | nil =>
      cases h
      simp [FeederAt.unsent]
    | cons file files =>
      cases h
      simp [FeederAt.unsent]
  | readLoop file files =>
    cases file with
    | nil =>
      cases h
      simp [FeederAt.unsent]
    | cons b file =>
      simp only [feederStep] at h
      split at h
      · next hn =>
        cases h
        refine ⟨by simp,?_,?_,id⟩
        · simp only [FeederAt.unsent, ← List.append_assoc, List.take_append_drop]
        · intro pending file' rest heq
          cases heq
          obtain ⟨m,rfl⟩ := Nat.exists_eq_succ_of_ne_zero (Nat.ne_of_gt hn.1)
          simp
      · cases h
  | writeLoop pending file files =>
    simp only [feederStep] at h
    split at h
    · next hn =>
      cases h
      refine ⟨by simp,?_,?_,fun _ => by simp only [List.length_append, List.length_take]; omega⟩
      · split
        · next hdrop =>
          have hall : pending.take n = pending := by
            simpa [hdrop] using List.take_append_drop n pending
          simp [FeederAt.unsent,hall]
        · simp only [FeederAt.unsent, List.append_assoc]
          rw [← List.append_assoc (pending.take n), List.take_append_drop]
      · intro pending' file' rest heq
        split at heq
        · cases heq
        · next hdrop =>
          cases heq
          exact hdrop
    · cases h
  | exited => cases h

/-- A step of the command starts the program, reads from the pipe or sees
end-of-file. -/
theorem commandStep_cases {n : ℕ} {pipe pipe' : List Byte} {f : FeederAt} {c c' : CommandAt}
    (h : commandStep n pipe f c = some (pipe',c')) :
    (c = .waiting ∧ f = .exited ∧ pipe' = pipe ∧ c' = .running [] false) ∨
      (∃ got eof, c = .running got eof ∧ pipe ≠ [] ∧ pipe' = pipe.drop n ∧
        c' = .running (got ++ pipe.take n) eof) ∨
      ∃ got eof, c = .running got eof ∧ pipe = [] ∧ pipe' = [] ∧ c' = .running got true := by
  cases c with
  | waiting =>
    simp only [commandStep, Option.ite_none_right_eq_some, Option.some.injEq, Prod.mk.injEq] at h
    exact Or.inl ⟨rfl,h.1,h.2.1.symm,h.2.2.symm⟩
  | running got eof =>
    simp only [commandStep] at h
    split at h
    · cases h
    split at h
    · next hpipe =>
      cases h
      exact Or.inr (Or.inl ⟨got,eof,rfl,hpipe,rfl,rfl⟩)
    · next hpipe =>
      split at h
      · cases h
        exact Or.inr (Or.inr ⟨got,eof,rfl,by simpa using hpipe,rfl,rfl⟩)
      · cases h

theorem Invariant.initial (files : List (List Byte)) : Invariant files (initial files) := by
  constructor <;> simp [Feeder.initial,CommandAt.got,FeederAt.unsent]

theorem Invariant.step {code : Code} {capacity : ℕ} {files : List (List Byte)} {s t : State}
    {e : Event} (hi : Invariant files s) (h : step code capacity s e = some t) :
    Invariant files t := by
  cases e with
  | feeder n =>
    obtain ⟨⟨pipe,f⟩,hf,rfl⟩ := Option.map_eq_some_iff.mp h
    obtain ⟨hne,hbytes,hpending,_⟩ := feederStep_spec hf
    have hwaiting : s.command = .waiting := by
      by_contra hrun
      exact hne (hi.started hrun)
    refine ⟨?_,hpending,fun hrun => absurd hwaiting hrun,?_⟩
    · show s.command.got ++ (pipe ++ f.unsent) = files.flatten
      rw [hbytes, hi.bytes]
    · intro got heq
      exact absurd (hwaiting.symm.trans heq) (by simp)
  | command n =>
    obtain ⟨⟨pipe,c⟩,hc,rfl⟩ := Option.map_eq_some_iff.mp h
    have hbytes := hi.bytes
    rcases commandStep_cases hc with ⟨hs,hexit,rfl,rfl⟩ | ⟨got,eof,hs,hpipe,rfl,rfl⟩ |
      ⟨got,eof,hs,hpipe,rfl,rfl⟩
    · rw [hs] at hbytes
      exact ⟨hbytes,hi.pending,fun _ => hexit,by simp⟩
    · have hexit : s.feeder = .exited := hi.started (by simp [hs])
      rw [hs] at hbytes
      refine ⟨?_,hi.pending,fun _ => hexit,?_⟩
      · show (got ++ s.pipe.take n) ++ (s.pipe.drop n ++ s.feeder.unsent) = files.flatten
        rw [← hbytes, List.append_assoc, ← List.append_assoc (s.pipe.take n), List.take_append_drop]
        rfl
      · intro got' heq
        cases heq
        exact absurd (hi.eof got hs) hpipe
    · have hexit : s.feeder = .exited := hi.started (by simp [hs])
      rw [hs, hpipe] at hbytes
      exact ⟨hbytes,hi.pending,fun _ => hexit,fun _ _ => rfl⟩

theorem Invariant.reachable {code : Code} {capacity : ℕ} {files : List (List Byte)} {s : State}
    (h : Reachable (Feeder.step code capacity) (Feeder.initial files) s) : Invariant files s :=
  h.invariant (Invariant.initial files) (fun _ _ _ hi _ he => hi.step he)

theorem Invariant.readsCorrectly {files : List (List Byte)} {s : State} (hi : Invariant files s) :
    ReadsCorrectly files s.command := by
  have hbytes := hi.bytes
  cases hc : s.command with
  | waiting => trivial
  | running got eof =>
    rw [hc] at hbytes
    refine ⟨⟨_,hbytes⟩,fun heof => ?_⟩
    have hpipe : s.pipe = [] := hi.eof got (by rw [hc, heof])
    have hexit : s.feeder = .exited := hi.started (by simp [hc])
    simpa [hpipe,hexit,CommandAt.got,FeederAt.unsent] using hbytes

/-! ## When the feeder gets stuck -/

/-- The feeder can move unless it has exited or wants to write into a full pipe. -/
theorem feederStep_enabled (code : Code) (capacity : ℕ) (pipe : List Byte) {f : FeederAt}
    (hpending : ∀ pending file rest, f = .writeLoop pending file rest → pending ≠ [])
    (hexit : f ≠ .exited)
    (hroom : ∀ pending file rest, f = .writeLoop pending file rest → pipe.length < capacity) :
    ∃ r, feederStep code capacity 1 pipe f = some r := by
  cases f with
  | nextFile files => cases files <;> exact ⟨_,rfl⟩
  | readLoop file files =>
    cases file with
    | nil => exact ⟨_,rfl⟩
    | cons b file =>
      have := code.pos
      exact ⟨_,by simp only [feederStep]; rw [if_pos ⟨by decide,by omega⟩]⟩
  | writeLoop pending file files =>
    have hlt := hroom _ _ _ rfl
    have hne := List.length_pos_iff.mpr (hpending _ _ _ rfl)
    exact ⟨_,by simp only [feederStep]; rw [if_pos ⟨by decide,by omega,by omega⟩]⟩
  | exited => exact absurd rfl hexit

theorem Invariant.waiting_length {files : List (List Byte)} {s : State} (hi : Invariant files s)
    (hw : s.command = .waiting) :
    s.pipe.length + s.feeder.unsent.length = files.flatten.length := by
  rw [← hi.bytes, hw]
  simp [CommandAt.got]

/-- When everything fits the pipe, some process can always move. -/
theorem Invariant.no_deadlock {code : Code} {capacity : ℕ} {files : List (List Byte)} {s : State}
    (hi : Invariant files s) (hfit : files.flatten.length ≤ capacity) :
    ¬Deadlock code capacity s := by
  rintro ⟨hw,hstuck⟩
  by_cases hexit : s.feeder = .exited
  · have := hstuck (.command 1)
    simp [Feeder.step,commandStep,hw,hexit] at this
  · have hlen := hi.waiting_length hw
    obtain ⟨r,hr⟩ := feederStep_enabled code capacity s.pipe hi.pending hexit (by
      intro pending file rest hf
      have hne := List.length_pos_iff.mpr (hi.pending _ _ _ hf)
      rw [hf] at hlen
      simp only [FeederAt.unsent, List.length_append] at hlen
      omega)
    have := hstuck (.feeder 1)
    simp [Feeder.step,hr] at this

/-- A bound on the number of steps the feeder has left. -/
def FeederAt.fuel : FeederAt → ℕ
  | .nextFile files => 3 * files.flatten.length + 2 * files.length + 1
  | .readLoop file files => 3 * (file ++ files.flatten).length + 2 * files.length + 2
  | .writeLoop pending file files =>
    3 * (pending ++ (file ++ files.flatten)).length + 2 * files.length + 1
  | .exited => 0

theorem feederStep_fuel {code : Code} {capacity n : ℕ} {pipe pipe' : List Byte} {f f' : FeederAt}
    (h : feederStep code capacity n pipe f = some (pipe',f')) : f'.fuel < f.fuel := by
  cases f with
  | nextFile files =>
    cases files with
    | nil =>
      cases h
      simp [FeederAt.fuel]
    | cons file files =>
      cases h
      simp only [FeederAt.fuel, List.flatten_cons, List.length_append, List.length_cons]
      omega
  | readLoop file files =>
    cases file with
    | nil =>
      cases h
      simp [FeederAt.fuel]
    | cons b file =>
      simp only [feederStep] at h
      split at h
      · cases h
        simp only [FeederAt.fuel, ← List.append_assoc, List.take_append_drop]
        omega
      · cases h
  | writeLoop pending file files =>
    simp only [feederStep] at h
    split at h
    · next hn =>
      cases h
      have hdrop : (pending.drop n).length = pending.length - n := List.length_drop
      split
      · simp only [FeederAt.fuel, List.length_append]
        omega
      · simp only [FeederAt.fuel, List.length_append]
        omega
    · cases h
  | exited => cases h

/-- When the files do not fit, the feeder fills the pipe and blocks, while the
command waits for it. -/
theorem exists_deadlock (code : Code) {capacity : ℕ} {files : List (List Byte)}
    (hbig : capacity < files.flatten.length) :
    ∃ s, Reachable (step code capacity) (initial files) s ∧ Deadlock code capacity s := by
  have hprogress : ∀ s, (Invariant files s ∧ s.command = .waiting ∧ s.pipe.length ≤ capacity) →
      Deadlock code capacity s ∨ ∃ e t, step code capacity s e = some t ∧
        (Invariant files t ∧ t.command = .waiting ∧ t.pipe.length ≤ capacity) ∧
        t.feeder.fuel < s.feeder.fuel := by
    rintro s ⟨hi,hw,hcap⟩
    have hexit : s.feeder ≠ .exited := by
      intro hf
      have hlen := hi.waiting_length hw
      simp only [hf, FeederAt.unsent, List.length_nil] at hlen
      omega
    by_cases hroom : ∀ pending file rest, s.feeder = .writeLoop pending file rest →
        s.pipe.length < capacity
    · obtain ⟨r,hr⟩ := feederStep_enabled code capacity s.pipe hi.pending hexit hroom
      have hstep : step code capacity s (.feeder 1) =
          some { s with pipe := r.1, feeder := r.2 } := by simp [step,hr]
      obtain ⟨_,_,_,hcap'⟩ := feederStep_spec hr
      exact Or.inr ⟨_,_,hstep,⟨hi.step hstep,hw,hcap' hcap⟩,feederStep_fuel hr⟩
    · simp only [not_forall, Nat.not_lt] at hroom
      obtain ⟨pending,file,rest,hf,hfull⟩ := hroom
      refine Or.inl ⟨hw,fun e => ?_⟩
      cases e with
      | feeder n =>
        have hblocked : ¬(0 < n ∧ n ≤ pending.length ∧ s.pipe.length + n ≤ capacity) := by omega
        simp only [step, hf, feederStep, hblocked, ↓reduceIte, Option.map_none]
      | command n => simp [step,hw,commandStep,hf]
  obtain ⟨s,hs,_,hd⟩ := Reachable.of_measure (fun s : State => s.feeder.fuel) hprogress
    (s := initial files) ⟨Invariant.initial files,rfl,Nat.zero_le _⟩
  exact ⟨s,hs,hd⟩

/-- The promise to the user of several input redirections. -/
def NeverHangs (code : Code) (capacity : ℕ) (files : List (List Byte)) : Prop :=
  ∀ s, Reachable (step code capacity) (initial files) s →
    ¬Deadlock code capacity s ∧ ReadsCorrectly files s.command

theorem neverHangs_iff_fits (code : Code) (capacity : ℕ) (files : List (List Byte)) :
    NeverHangs code capacity files ↔ files.flatten.length ≤ capacity := by
  constructor
  · intro h
    by_contra hbig
    obtain ⟨s,hs,hd⟩ := exists_deadlock code (Nat.lt_of_not_le hbig)
    exact (h s hs).1 hd
  · intro hfit s hs
    have hi := Invariant.reachable hs
    exact ⟨hi.no_deadlock hfit,hi.readsCorrectly⟩

/-- Both copies of the feeder keep the promise exactly when the files together
fit the pipe. -/
theorem inputRedirections_never_hang_iff (capacity : ℕ) (files : List (List Byte)) :
    (NeverHangs executeCmdInternalFeeder capacity files ↔ files.flatten.length ≤ capacity) ∧
      (NeverHangs executeStageChildFeeder capacity files ↔ files.flatten.length ≤ capacity) :=
  ⟨neverHangs_iff_fits _ _ _,neverHangs_iff_fits _ _ _⟩

/-- Two files of 65536 bytes and one byte hang both copies on a pipe of 65536
bytes. -/
theorem twoFiles_deadlock :
    (∃ s, Reachable (step executeCmdInternalFeeder 65536)
        (initial [List.replicate 65536 0,[0]]) s ∧ Deadlock executeCmdInternalFeeder 65536 s) ∧
      ∃ s, Reachable (step executeStageChildFeeder 65536)
        (initial [List.replicate 65536 0,[0]]) s ∧ Deadlock executeStageChildFeeder 65536 s := by
  have hbig : 65536 < [List.replicate 65536 (0 : Byte),[0]].flatten.length := by
    rw [List.flatten_cons, List.length_append, List.length_replicate]
    simp
  exact ⟨exists_deadlock _ hbig,exists_deadlock _ hbig⟩

end CShellXv6.Feeder
