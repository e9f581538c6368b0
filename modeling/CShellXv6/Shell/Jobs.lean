import CShellXv6.Library.Sweep
import CShellXv6.Shell.Process
import CShellXv6.Shell.Token
import Mathlib.Data.Nat.Notation

/-! # The job table

The functions of `jobs.c` that add jobs, collect statuses and decide that a job
is over. What `waitpid` and `/proc` answer is left to an operating system with
a state of its own, so the code below is the same for arbitrary answers and for
a consistent kernel. Signals sent with `kill` act through later answers.
-/
namespace CShellXv6.Jobs
open Lexer Process Sweep

inductive ProcState
  | running
  | stopped
  | exited
  deriving DecidableEq, Repr

structure Proc where
  pid : ℕ
  cmdName : CString
  state : ProcState
  deriving DecidableEq, Repr

structure Job where
  jobId : ℕ
  pgid : ℕ
  procs : List Proc
  active : Bool
  finished : Bool
  reported : Bool
  isStopped : Bool
  fullCmd : CString
  isSignaled : Bool
  deriving DecidableEq, Repr

/-- A call with `WNOHANG` collects a status, finds nothing new or another error,
or finds no such child. -/
inductive Waited
  | got (report : Report)
  | nothing
  | noChild
  deriving DecidableEq, Repr

/-- What `/proc/<pid>/stat` shows. -/
inductive ProcStat
  | missing
  | unreadable
  | state (c : Char)
  deriving DecidableEq, Repr

structure Os (σ : Type*) where
  waitpid : σ → ℕ → WaitFlags → Waited × σ
  procStat : σ → ℕ → ProcStat × σ
  /-- Continues are reported only on request. -/
  waitpid_flags : ∀ s pid flags, flags.continued = false →
    (waitpid s pid flags).1 ≠ .got .continued

def maxBgJobs : ℕ := 256

def maxPidsPerJob : ℕ := 64

def pollFlags : WaitFlags := ⟨true,true⟩

def resumeFlags : WaitFlags := ⟨true,false⟩

inductive Line
  | exited (cmdName : CString) (pgid : ℕ) (abnormally : Bool)
  | noSuchJob
  | running (jobId : ℕ) (fullCmd : CString)
  | command (fullCmd : CString)
  | stopped (jobId : ℕ) (fullCmd : CString)
  | timedOut
  deriving DecidableEq, Repr

/-- A free slot, as static storage starts out. -/
def emptyJob : Job := ⟨0,0,[],false,false,false,false,[],false⟩

/-! ## Adding jobs -/

/-- The loops that change the first slot of a kind and leave. -/
def modifyFirst (p : Job → Bool) (f : Job → Job) : List Job → List Job
  | [] => []
  | job :: rest => if p job then f job :: rest else job :: modifyFirst p f rest

def newJob (jobId pgid : ℕ) (procs : List (ℕ × CString)) (fullCmd : CString) : Job where
  jobId := jobId
  pgid := pgid
  procs := (procs.take maxPidsPerJob).map (fun p => ⟨p.1,p.2.take 255,.running⟩)
  active := true
  finished := false
  reported := false
  isStopped := false
  fullCmd := fullCmd.take 511
  isSignaled := false

def jobsAddPipeline (jobId pgid : ℕ) (procs : List (ℕ × CString)) (fullCmd : CString)
    (table : List Job) : List Job :=
  modifyFirst (fun job => !job.active) (fun _ => newJob jobId pgid procs fullCmd) table

def Job.stopAll (job : Job) : Job :=
  { job with isStopped := true, procs := job.procs.map (fun p => { p with state := .stopped }) }

def jobsAddStopped (jobId pgid : ℕ) (procs : List (ℕ × CString)) (fullCmd : CString)
    (table : List Job) : List Job :=
  modifyFirst (fun job => job.active && job.jobId == jobId) Job.stopAll
    (jobsAddPipeline jobId pgid procs fullCmd table)

section Os
variable {σ : Type*} (os : Os σ)

/-! ## Collecting statuses -/

/-- The leader's exit finishes the job. -/
def Job.leaderExit (job : Job) (pid : ℕ) (signaled : Bool) : Job :=
  if pid = job.pgid then { job with finished := true, isSignaled := signaled } else job

def handlerProc (job : Job) (p : Proc) (s : σ) : Job × Proc × σ :=
  let r := os.waitpid s p.pid pollFlags
  match r.1 with
  | .got (.exited signaled) => (job.leaderExit p.pid signaled,{ p with state := .exited },r.2)
  | .got .stopped => ({ job with isStopped := true },{ p with state := .stopped },r.2)
  | .got .continued => ({ job with isStopped := false },{ p with state := .running },r.2)
  | _ => (job,p,r.2)

def handlerJob (job : Job) (s : σ) : Job × σ :=
  if job.active && !job.finished then
    let r := foldSweep (handlerProc os) job job.procs s
    ({ r.1 with procs := r.2.1 },r.2.2)
  else (job,s)

def sigchldHandler (table : List Job) (s : σ) : List Job × σ := sweep (handlerJob os) table s

/-- The local variables of the refresh loop next to the job. -/
structure Scan where
  job : Job
  anyAlive : Bool
  anyStopped : Bool

/-- The part of the loop that reads `/proc/<pid>/stat`. -/
def inspectProc (a : Scan) (p : Proc) (s : σ) : Scan × Proc × σ :=
  let r := os.procStat s p.pid
  let p' : Proc := match r.1 with
    | .missing => { p with state := .exited }
    | .unreadable => p
    | .state c =>
      if c = 'T' ∨ c = 't' then { p with state := .stopped }
      else if c = 'Z' then { p with state := .exited }
      else p
  if p'.state = .exited then (a,p',r.2)
  else ({ a with anyAlive := true, anyStopped := a.anyStopped || p'.state == .stopped },p',r.2)

def refreshProc (a : Scan) (p : Proc) (s : σ) : Scan × Proc × σ :=
  if p.state = .exited then (a,p,s)
  else
    let r := os.waitpid s p.pid pollFlags
    match r.1 with
    | .got (.exited signaled) =>
      ({ a with job := a.job.leaderExit p.pid signaled },{ p with state := .exited },r.2)
    | .got .stopped => inspectProc os a { p with state := .stopped } r.2
    | .got .continued => inspectProc os a { p with state := .running } r.2
    | .noChild => (a,{ p with state := .exited },r.2)
    | .nothing => inspectProc os a p r.2

def refreshJob (job : Job) (s : σ) : Job × σ :=
  if job.active then
    let r := foldSweep (refreshProc os) ⟨job,false,false⟩ job.procs s
    let job' := { r.1.job with procs := r.2.1, isStopped := r.1.anyStopped }
    (if !r.1.anyAlive && (job'.reported || job'.isStopped) then { job' with active := false }
      else job',r.2.2)
  else (job,s)

def jobsRefreshStates (table : List Job) (s : σ) : List Job × σ := sweep (refreshJob os) table s

/-! ### One visit -/

/-- The handler collects an exit, or changes at most the stop flag and the
recorded state. -/
theorem handlerProc_cases (job : Job) (p : Proc) (s : σ) :
    (∃ signaled, (os.waitpid s p.pid pollFlags).1 = .got (.exited signaled) ∧
      handlerProc os job p s = (job.leaderExit p.pid signaled,{ p with state := .exited },
        (os.waitpid s p.pid pollFlags).2)) ∨
    ((∀ signaled, (os.waitpid s p.pid pollFlags).1 ≠ .got (.exited signaled)) ∧
      ∃ b st, (st = .exited → p.state = .exited) ∧
        handlerProc os job p s = ({ job with isStopped := b },{ p with state := st },
          (os.waitpid s p.pid pollFlags).2)) := by
  cases hw : (os.waitpid s p.pid pollFlags).1 with
  | got r =>
    cases r with
    | exited signaled => exact Or.inl ⟨signaled,rfl,by simp only [handlerProc, hw]⟩
    | stopped => exact Or.inr ⟨by simp,true,.stopped,by simp,by simp only [handlerProc, hw]⟩
    | continued => exact Or.inr ⟨by simp,false,.running,by simp,by simp only [handlerProc, hw]⟩
  | nothing => exact Or.inr ⟨by simp,job.isStopped,p.state,id,by simp only [handlerProc, hw]⟩
  | noChild => exact Or.inr ⟨by simp,job.isStopped,p.state,id,by simp only [handlerProc, hw]⟩

/-- A look into `/proc` finds the process alive, or gone or a zombie. -/
theorem inspectProc_cases (a : Scan) (p : Proc) (s : σ) (hp : p.state ≠ .exited) :
    (∃ st, st ≠ .exited ∧ inspectProc os a p s =
      ({ a with anyAlive := true, anyStopped := a.anyStopped || st == .stopped },
        { p with state := st },(os.procStat s p.pid).2)) ∨
    (((os.procStat s p.pid).1 = .missing ∨ (os.procStat s p.pid).1 = .state 'Z') ∧
      inspectProc os a p s = (a,{ p with state := .exited },(os.procStat s p.pid).2)) := by
  cases hst : (os.procStat s p.pid).1 with
  | missing => exact Or.inr ⟨Or.inl rfl,by simp [inspectProc,hst]⟩
  | unreadable => exact Or.inl ⟨p.state,hp,by simp [inspectProc,hst,hp]⟩
  | state c =>
    by_cases ht : c = 'T' ∨ c = 't'
    · exact Or.inl ⟨.stopped,by decide,by simp [inspectProc,hst,ht]⟩
    · by_cases hz : c = 'Z'
      · exact Or.inr ⟨Or.inr (by rw [hz]),by simp [inspectProc,hst,hz]⟩
      · exact Or.inl ⟨p.state,hp,by simp [inspectProc,hst,ht,hz,hp]⟩

/-- The refresh skips an exited process, collects an exit, finds no child, or
looks into `/proc`. -/
theorem refreshProc_cases (a : Scan) (p : Proc) (s : σ) :
    (p.state = .exited ∧ refreshProc os a p s = (a,p,s)) ∨
    (p.state ≠ .exited ∧ ∃ signaled, (os.waitpid s p.pid pollFlags).1 = .got (.exited signaled) ∧
      refreshProc os a p s = ({ a with job := a.job.leaderExit p.pid signaled },
        { p with state := .exited },(os.waitpid s p.pid pollFlags).2)) ∨
    (p.state ≠ .exited ∧ (os.waitpid s p.pid pollFlags).1 = .noChild ∧
      refreshProc os a p s = (a,{ p with state := .exited },(os.waitpid s p.pid pollFlags).2)) ∨
    (p.state ≠ .exited ∧ (os.waitpid s p.pid pollFlags).1 ≠ .noChild ∧
      (∀ signaled, (os.waitpid s p.pid pollFlags).1 ≠ .got (.exited signaled)) ∧
      ∃ st, st ≠ .exited ∧ refreshProc os a p s =
        inspectProc os a { p with state := st } (os.waitpid s p.pid pollFlags).2) := by
  by_cases hp : p.state = .exited
  · exact Or.inl ⟨hp,by simp [refreshProc,hp]⟩
  refine Or.inr ?_
  cases hw : (os.waitpid s p.pid pollFlags).1 with
  | got r =>
    cases r with
    | exited signaled => exact Or.inl ⟨hp,signaled,rfl,by simp only [refreshProc, hp, hw, ↓reduceIte]⟩
    | stopped =>
      exact Or.inr (Or.inr ⟨hp,by simp,by simp,.stopped,by decide,
        by simp only [refreshProc, hp, hw, ↓reduceIte]⟩)
    | continued =>
      exact Or.inr (Or.inr ⟨hp,by simp,by simp,.running,by decide,
        by simp only [refreshProc, hp, hw, ↓reduceIte]⟩)
  | nothing =>
    exact Or.inr (Or.inr ⟨hp,by simp,by simp,p.state,hp,
      by simp only [refreshProc, hp, hw, ↓reduceIte]⟩)
  | noChild => exact Or.inr (Or.inl ⟨hp,rfl,by simp only [refreshProc, hp, hw, ↓reduceIte]⟩)

/-! ## Completion -/

def Job.completed (job : Job) : Bool :=
  job.active && job.finished && !job.reported && !job.isStopped

def Job.line (job : Job) : Line :=
  .exited ((job.procs.head?.map Proc.cmdName).getD []) job.pgid job.isSignaled

def Job.complete (job : Job) : Job :=
  if job.completed then { job with reported := true, active := false } else job

def jobsCheckCompleted (table : List Job) (s : σ) : List Job × σ × List Line :=
  let r := jobsRefreshStates os table s
  (r.1.map Job.complete,r.2,(r.1.filter Job.completed).map Job.line)

/-! ## Resuming jobs -/

def Job.alive (job : Job) : Bool := job.procs.any (fun p => p.state != .exited)

/-- The slot found by `jobs_get_by_id`, after its refresh. -/
def findJob (jobId : ℕ) (table : List Job) : Option ℕ :=
  table.findIdx? (fun job => job.active && job.jobId == jobId && job.alive)

def Job.continueAll (job : Job) : Job :=
  { job with
    isStopped := false
    procs := job.procs.map (fun p => if p.state = .stopped then { p with state := .running } else p) }

def jobsResumeBg (jobId : ℕ) (table : List Job) (s : σ) : List Job × σ × List Line :=
  let r := jobsRefreshStates os table s
  match findJob jobId r.1 with
  | none => (r.1,r.2,[.noSuchJob])
  | some i =>
    (r.1.modify i Job.continueAll,r.2,(r.1[i]?.map (fun job => .running job.jobId job.fullCmd)).toList)

/-- One polling pass of `jobs_resume_fg`: whether some process is still alive,
whether one is stopped, and the processes that this function has reaped. -/
structure Pass where
  alive : Bool
  anyStopped : Bool
  reaped : List ℕ

def passProc (a : Pass) (p : Proc) (s : σ) : Pass × Proc × σ :=
  if p.state = .exited then (a,p,s)
  else
    let r := os.waitpid s p.pid resumeFlags
    match r.1 with
    | .got (.exited _) => ({ a with reaped := a.reaped ++ [p.pid] },{ p with state := .exited },r.2)
    | .got .stopped => ({ a with anyStopped := true },{ p with state := .stopped },r.2)
    | .got .continued => (a,p,r.2)
    | .noChild => (a,{ p with state := .exited },r.2)
    | .nothing =>
      ({ a with alive := true, anyStopped := a.anyStopped || p.state == .stopped },p,r.2)

/-- A pass of `jobs_resume_fg` skips an exited process, reaps it, sees it stop,
finds no child, or counts it as alive. -/
theorem passProc_cases (a : Pass) (p : Proc) (s : σ) :
    (p.state = .exited ∧ passProc os a p s = (a,p,s)) ∨
    (p.state ≠ .exited ∧ (∃ signaled, (os.waitpid s p.pid resumeFlags).1 = .got (.exited signaled)) ∧
      passProc os a p s = ({ a with reaped := a.reaped ++ [p.pid] },{ p with state := .exited },
        (os.waitpid s p.pid resumeFlags).2)) ∨
    (p.state ≠ .exited ∧ (os.waitpid s p.pid resumeFlags).1 = .noChild ∧
      passProc os a p s = (a,{ p with state := .exited },(os.waitpid s p.pid resumeFlags).2)) ∨
    (p.state ≠ .exited ∧ (os.waitpid s p.pid resumeFlags).1 ≠ .noChild ∧
      (∀ signaled, (os.waitpid s p.pid resumeFlags).1 ≠ .got (.exited signaled)) ∧
      ∃ a' st, st ≠ .exited ∧ (a'.alive = true ∨ a'.anyStopped = true) ∧ a'.reaped = a.reaped ∧
        (a.alive = true → a'.alive = true) ∧ (a.anyStopped = true → a'.anyStopped = true) ∧
        passProc os a p s = (a',{ p with state := st },(os.waitpid s p.pid resumeFlags).2)) := by
  by_cases hp : p.state = .exited
  · exact Or.inl ⟨hp,by simp [passProc,hp]⟩
  refine Or.inr ?_
  have hflags := os.waitpid_flags s p.pid resumeFlags rfl
  cases hw : (os.waitpid s p.pid resumeFlags).1 with
  | got r =>
    cases r with
    | exited signaled => exact Or.inl ⟨hp,⟨signaled,rfl⟩,by simp only [passProc, hp, hw, ↓reduceIte]⟩
    | stopped =>
      exact Or.inr (Or.inr ⟨hp,by simp,by simp,{ a with anyStopped := true },.stopped,by decide,
        Or.inr rfl,rfl,id,fun _ => rfl,by simp only [passProc, hp, hw, ↓reduceIte]⟩)
    | continued => exact absurd hw hflags
  | nothing =>
    exact Or.inr (Or.inr ⟨hp,by simp,by simp,
      { a with alive := true, anyStopped := a.anyStopped || p.state == .stopped },p.state,hp,
      Or.inl rfl,rfl,fun _ => rfl,fun h => by simp [h],
      by simp only [passProc, hp, hw, ↓reduceIte]⟩)
  | noChild => exact Or.inr (Or.inl ⟨hp,rfl,by simp only [passProc, hp, hw, ↓reduceIte]⟩)

/-- What happens before a pass: the handler runs some number of times, and the
alarm may have gone off. -/
structure Pause where
  handlers : ℕ
  alarm : Bool
  deriving DecidableEq, Repr

inductive Outcome
  | timedOut
  | stopped
  | done
  deriving DecidableEq, Repr

def runHandlers : ℕ → List Job × σ → List Job × σ
  | 0, r => r
  | n + 1, r => runHandlers n (sigchldHandler os r.1 r.2)

structure Waiting (σ : Type*) where
  table : List Job
  env : σ
  reaped : List ℕ

def passJob (i : ℕ) (w : Waiting σ) : Pass × Waiting σ :=
  match w.table[i]? with
  | none => (⟨false,false,w.reaped⟩,w)
  | some job =>
    let r := foldSweep (passProc os) ⟨false,false,w.reaped⟩ job.procs w.env
    (r.1,⟨w.table.set i { job with procs := r.2.1 },r.2.2,r.1.reaped⟩)

/-- The loop of `jobs_resume_fg` on slot `i`; it has no result while the job
keeps running. -/
def resumeLoop (i : ℕ) (timeout : Bool) : List Pause → Waiting σ → Option (Outcome × Waiting σ)
  | [], _ => none
  | pause :: rest, w =>
    let r := runHandlers os pause.handlers (w.table,w.env)
    let w := { w with table := r.1, env := r.2 }
    if pause.alarm && timeout then some (.timedOut,w)
    else
      let q := passJob os i w
      if q.1.anyStopped then some (.stopped,q.2)
      else if q.1.alive then resumeLoop i timeout rest q.2
      else some (.done,q.2)

/-- What the handler and a pass over the job keep holds when the loop ends. -/
theorem resumeLoop_invariant {I : Waiting σ → Prop} {i : ℕ}
    (hhandlers : ∀ n w, I w → I { w with
      table := (runHandlers os n (w.table,w.env)).1, env := (runHandlers os n (w.table,w.env)).2 })
    (hpass : ∀ w, I w → I (passJob os i w).2) {timeout : Bool} {pauses : List Pause}
    {w w' : Waiting σ} {outcome : Outcome} (hw : I w)
    (h : resumeLoop os i timeout pauses w = some (outcome,w')) : I w' := by
  induction pauses generalizing w with
  | nil => cases h
  | cons pause rest ih =>
    have hbefore := hhandlers pause.handlers w hw
    have hafter := hpass _ hbefore
    simp only [resumeLoop] at h
    split at h
    · cases h
      exact hbefore
    split at h
    · cases h
      exact hafter
    split at h
    · exact ih hafter h
    · cases h
      exact hafter

def Job.leave (job : Job) : Job := { job with active := false, finished := true }

/-- The three exits of `jobs_resume_fg`. -/
def finishFg (i : ℕ) (w : Waiting σ) : Outcome → List Job × List Line
  | .timedOut => (w.table.modify i Job.leave,[.timedOut])
  | .stopped => (w.table.modify i (fun job => { job with isStopped := true }),
      (w.table[i]?.map (fun job => .stopped job.jobId job.fullCmd)).toList)
  | .done => (w.table.modify i Job.leave,[])

/-- `late` tells whether the alarm goes off after the loop and before it is
cancelled. -/
def jobsResumeFg (jobId timeoutSeconds : ℕ) (pauses : List Pause) (late : Bool) (table : List Job)
    (s : σ) : Option (List Job × σ × List Line × List ℕ) :=
  let r := jobsRefreshStates os table s
  match findJob jobId r.1 with
  | none => some (r.1,r.2,[.noSuchJob],[])
  | some i =>
    let shown := (r.1[i]?.map (fun job => .command job.fullCmd)).toList
    (resumeLoop os i (decide (0 < timeoutSeconds)) pauses ⟨r.1.modify i Job.continueAll,r.2,[]⟩).map
      fun q =>
        let outcome := if late && decide (0 < timeoutSeconds) then .timedOut else q.1
        let f := finishFg i q.2 outcome
        (f.1,q.2.env,shown ++ f.2,q.2.reaped)

/-! ### The two ways to resume -/

theorem jobsResumeBg_cases (jobId : ℕ) (table : List Job) (s : σ) :
    jobsResumeBg os jobId table s =
        ((jobsRefreshStates os table s).1,(jobsRefreshStates os table s).2,[.noSuchJob]) ∨
      ∃ i out, (∀ name pgid b, .exited name pgid b ∉ out) ∧ jobsResumeBg os jobId table s =
        ((jobsRefreshStates os table s).1.modify i Job.continueAll,
          (jobsRefreshStates os table s).2,out) := by
  unfold jobsResumeBg
  dsimp only
  split
  · exact Or.inl rfl
  · refine Or.inr ⟨_,_,?_,rfl⟩
    intro name pgid b hmem
    simp at hmem

/-- The exit taken is the loop's own, or the timeout of a late alarm. -/
theorem jobsResumeFg_cases {jobId timeoutSeconds : ℕ} {pauses : List Pause} {late : Bool}
    {table : List Job} {s : σ} {r : List Job × σ × List Line × List ℕ}
    (h : jobsResumeFg os jobId timeoutSeconds pauses late table s = some r) :
    r = ((jobsRefreshStates os table s).1,(jobsRefreshStates os table s).2,[.noSuchJob],[]) ∨
      ∃ i outcome last w, ∃ shown : List CString,
        findJob jobId (jobsRefreshStates os table s).1 = some i ∧
        resumeLoop os i (decide (0 < timeoutSeconds)) pauses
          ⟨(jobsRefreshStates os table s).1.modify i Job.continueAll,
            (jobsRefreshStates os table s).2,[]⟩ = some (outcome,w) ∧
        (last = .timedOut ∨ last = outcome) ∧
        r = ((finishFg i w last).1,w.env,shown.map .command ++ (finishFg i w last).2,
          w.reaped) := by
  unfold jobsResumeFg at h
  dsimp only at h
  split at h
  · cases h
    exact Or.inl rfl
  · next i hfind =>
    obtain ⟨⟨outcome,w⟩,hloop,rfl⟩ := Option.map_eq_some_iff.mp h
    refine Or.inr ⟨i,outcome,if late && decide (0 < timeoutSeconds) then .timedOut else outcome,w,
      ((jobsRefreshStates os table s).1[i]?.map Job.fullCmd).toList,hfind,hloop,?_,?_⟩
    · split
      · exact Or.inl rfl
      · exact Or.inr rfl
    · cases (jobsRefreshStates os table s).1[i]? <;> rfl

end Os

end CShellXv6.Jobs
