import CShellXv6.Shell.Effects
import CShellXv6.Shell.Persist

/-! # Sequences of shell commands

The rounds of `execute_command_line`, the built-ins that work on the job table,
the signal handler and the hangup on exit, in any order and with arbitrary
answers of the operating system. Besides the table the state keeps every call
that the shell makes on a process.
-/
namespace CShellXv6.Commands
open Lexer TokenCategory Descriptors Launch Sweep Transition
open Jobs (Os Job Pause Persists SameJob findJob jobsRefreshStates)

/-! ## The shell -/

def tokenText (t : Token) : CString :=
  match t.type with
  | opWord => t.text.getD []
  | opPipe => ['|']
  | opLt => ['<']
  | opGt => ['>']
  | opGtgt => ['>','>']
  | opSemi => []
  | opAmp => []

/-- A text that does not fit any more is left out, but not the space before it. -/
def appendText (outLen : ℕ) (out text : CString) : CString :=
  if text = [] then out
  else
    let out := if 0 < out.length ∧ out.length + 1 < outLen then out ++ [' '] else out
    if out.length + text.length < outLen then out ++ text else out

def reconstructCmdStr (list : TokenList) : CString := (list.map tokenText).foldl (appendText 512) []

structure System (σ : Type*) where
  shell : State
  env : σ
  live : Bool

inductive Event
  | group (background : Bool) (list : TokenList) (a : Answers)
  | handler
  | refresh
  | checkCompleted
  | resumeBg (jobId : ℕ)
  | resumeFg (jobId timeoutSeconds : ℕ) (pauses : List Pause) (late isatty : Bool) (getpgrp : Pid)
  | pingJob (jobId : ℕ)
  | pingPid (pid : ℕ)
  | hangup

/-- The answers of an operating system, with a record of the calls. -/
def logged {σ : Type*} (os : Os σ) : Os (σ × List Call) where
  waitpid s pid flags :=
    let r := os.waitpid s.1 pid flags
    (r.1,(r.2,s.2 ++ [.waitpid pid]))
  procStat s pid :=
    let r := os.procStat s.1 pid
    (r.1,(r.2,s.2))
  waitpid_flags s pid flags h := os.waitpid_flags s.1 pid flags h

/-- The number `-pgid`. -/
def negate (pgid : ℕ) : ℕ := (2 ^ 32 - pgid) % 2 ^ 32

section
variable {σ : Type*} (os : Os σ) (s : System σ)

/-- The part of the shell that `jobs.c` works on. -/
def System.jobs : Jobs.Shell (σ × List Call) :=
  ⟨s.shell.table,s.shell.nextJobId,(s.env,s.shell.calls),[]⟩

/-- The shell after a call on the job table that has made the calls `cs` besides
the `waitpid` of its loops. These are listed last, since only what they are made
on matters. -/
def System.after (r : Jobs.Shell (σ × List Call)) (cs : List Call) : System σ :=
  { s with
    env := r.env.1
    shell := { s.shell with
      table := r.table
      nextJobId := r.nextJobId
      calls := r.env.2 ++ cs
      out := r.out.map .job } }

def System.call (e : Jobs.Event) (more : List Jobs.Line → List Call) : Option (System σ) :=
  (Jobs.step (logged os) s.jobs e).map fun r => s.after r (more r.out)

/-- The job that `jobs_get_by_id` finds. -/
def System.target (jobId : ℕ) : Option Job :=
  let r := jobsRefreshStates (logged os) s.shell.table (s.env,s.shell.calls)
  (findJob jobId r.1).bind (r.1[·]?)

def System.isTracked (pid : ℕ) : Bool :=
  (jobsRefreshStates (logged os) s.shell.table (s.env,s.shell.calls)).1.any fun job =>
    job.active && job.procs.any (fun p => p.pid == pid && p.state != .exited)

def signal (job : Job) : Call := .kill (negate job.pgid)

/-- The calls of `jobs_resume_fg` around its loop. -/
def resumeFgCalls (isatty : Bool) (getpgrp : Pid) (lines : List Jobs.Line) (job : Job) :
    List Call :=
  (if isatty then [.tcsetpgrp job.pgid] else []) ++ [signal job] ++
    (if isatty then [.tcsetpgrp getpgrp] else []) ++
    (if lines.contains .timedOut then [signal job] else [])

/-- One round of `execute_command_line`; a background job takes its number first. -/
def System.launch (background : Bool) (list : TokenList) (a : Answers) : Result :=
  let shell := { s.shell with out := [] }
  if background then
    executePipelineBg a list shell.nextJobId (reconstructCmdStr list)
      { shell with nextJobId := shell.nextJobId + 1 }
  else executePipelineFg a list (reconstructCmdStr list) shell

def returned : Exit → Bool
  | .returned _ => true
  | _ => false

def System.run : Event → Option (System σ)
  | .group background list a =>
    if list = [] then none
    else
      let r := s.launch background list a
      some { s with shell := r.state, live := returned r.exit }
  | .handler => s.call os .handler fun _ => []
  | .refresh => s.call os .refresh fun _ => []
  | .checkCompleted => s.call os .checkCompleted fun _ => []
  | .resumeBg jobId => s.call os (.resumeBg jobId) fun _ => (s.target os jobId).toList.map signal
  | .resumeFg jobId timeoutSeconds pauses late isatty getpgrp =>
    s.call os (.resumeFg jobId timeoutSeconds pauses late) fun lines =>
      (s.target os jobId).toList.flatMap (resumeFgCalls isatty getpgrp lines)
  | .pingJob jobId => s.call os .refresh fun _ => (s.target os jobId).toList.map signal
  | .pingPid pid => s.call os .refresh fun _ => if s.isTracked os pid then [.kill pid] else []
  | .hangup => some { s with shell := { s.shell with
      calls := s.shell.calls ++ (s.shell.table.filter fun job =>
        job.active && 1 < job.pgid && job.pgid < 2 ^ 31).map signal
      out := [] } }

end

/-- A shell that was killed, or whose behaviour is no longer defined, does not
go on. -/
def step {σ : Type*} (os : Os σ) (s : System σ) (e : Event) : Option (System σ) :=
  if s.live then s.run os e else none

def start {σ : Type*} (env : σ) : System σ := ⟨Launch.start,env,true⟩

/-! ## What a step can do -/

/-- The calls that `jobs.c` makes on groups and processes, apart from `waitpid`. -/
inductive Sends {σ : Type*} (os : Os σ) (s : System σ) : Call → Prop
  | signal {jobId : ℕ} {job : Job} : s.target os jobId = some job → Sends os s (signal job)
  | give {jobId : ℕ} {job : Job} : s.target os jobId = some job → Sends os s (.tcsetpgrp job.pgid)
  | back (pgrp : Pid) : Sends os s (.tcsetpgrp pgrp)
  | kill {pid : ℕ} : s.isTracked os pid = true → Sends os s (.kill pid)

section
variable {σ : Type*} {os : Os σ} {s t : System σ}

theorem signals_sends (jobId : ℕ) {c : Call} (hc : c ∈ (s.target os jobId).toList.map signal) :
    Sends os s c := by
  obtain ⟨job,hjob,rfl⟩ := List.mem_map.mp hc
  exact .signal (Option.mem_toList.mp hjob)

theorem resumeFgCalls_sends {jobId : ℕ} {isatty : Bool} {getpgrp : Pid} {lines : List Jobs.Line}
    {c : Call}
    (hc : c ∈ (s.target os jobId).toList.flatMap (resumeFgCalls isatty getpgrp lines)) :
    Sends os s c := by
  obtain ⟨job,hjob,hc⟩ := List.mem_flatMap.mp hc
  have htarget : s.target os jobId = some job := Option.mem_toList.mp hjob
  simp only [resumeFgCalls, List.mem_append, List.mem_ite_nil_right, List.mem_singleton] at hc
  rcases hc with ((⟨_,rfl⟩ | rfl) | ⟨_,rfl⟩) | ⟨_,rfl⟩
  · exact .give htarget
  · exact .signal htarget
  · exact .back getpgrp
  · exact .signal htarget

theorem step_group {background : Bool} {list : TokenList} {a : Answers}
    (h : step os s (.group background list a) = some t) :
    list ≠ [] ∧ t = { s with
      shell := (s.launch background list a).state
      live := returned (s.launch background list a).exit } := by
  obtain ⟨_,hrun⟩ := Option.ite_none_right_eq_some.mp h
  simp only [System.run] at hrun
  split at hrun
  · cases hrun
  · next hne =>
    cases hrun
    exact ⟨hne,rfl⟩

/-- A step launches a group, calls into `jobs.c`, or hangs up. -/
theorem step_cases {e : Event} (h : step os s e = some t) :
    (∃ background list a, e = .group background list a ∧ list ≠ [] ∧
      t = { s with
        shell := (s.launch background list a).state
        live := returned (s.launch background list a).exit }) ∨
    (∃ je r cs, je.adds = false ∧ Jobs.step (logged os) s.jobs je = some r ∧
      (∀ c ∈ cs, Sends os s c) ∧ t = s.after r cs) ∨
    (∃ cs, (∀ c ∈ cs, ∃ job ∈ s.shell.table, 1 < job.pgid ∧ job.pgid < 2 ^ 31 ∧ c = signal job) ∧
      t = { s with shell := { s.shell with calls := s.shell.calls ++ cs, out := [] } }) := by
  obtain ⟨_,hrun⟩ := Option.ite_none_right_eq_some.mp h
  have hcall : ∀ (je : Jobs.Event) (more : List Jobs.Line → List Call), je.adds = false →
      (∀ lines, ∀ c ∈ more lines, Sends os s c) → s.call os je more = some t →
      ∃ je r cs, je.adds = false ∧ Jobs.step (logged os) s.jobs je = some r ∧
        (∀ c ∈ cs, Sends os s c) ∧ t = s.after r cs := by
    intro je more hadds hmore hcall
    obtain ⟨r,hr,rfl⟩ := Option.map_eq_some_iff.mp hcall
    exact ⟨je,r,more r.out,hadds,hr,hmore r.out,rfl⟩
  cases e with
  | group background list a => exact Or.inl ⟨background,list,a,rfl,step_group h⟩
  | handler => exact Or.inr (Or.inl (hcall .handler (fun _ => []) rfl (by simp) hrun))
  | refresh => exact Or.inr (Or.inl (hcall .refresh (fun _ => []) rfl (by simp) hrun))
  | checkCompleted => exact Or.inr (Or.inl (hcall .checkCompleted (fun _ => []) rfl (by simp) hrun))
  | resumeBg jobId =>
    exact Or.inr (Or.inl (hcall (.resumeBg jobId) _ rfl (fun _ _ => signals_sends jobId) hrun))
  | resumeFg jobId timeoutSeconds pauses late isatty getpgrp =>
    exact Or.inr (Or.inl (hcall (.resumeFg jobId timeoutSeconds pauses late)
      (fun lines => (s.target os jobId).toList.flatMap (resumeFgCalls isatty getpgrp lines)) rfl
      (fun _ _ => resumeFgCalls_sends) hrun))
  | pingJob jobId =>
    exact Or.inr (Or.inl (hcall .refresh _ rfl (fun _ _ => signals_sends jobId) hrun))
  | pingPid pid =>
    refine Or.inr (Or.inl (hcall .refresh (fun _ => if s.isTracked os pid then [.kill pid] else [])
      rfl (fun _ c hc => ?_) hrun))
    split at hc
    · next htracked =>
      rw [List.mem_singleton.mp hc]
      exact .kill htracked
    · cases hc
  | hangup =>
    cases hrun
    refine Or.inr (Or.inr ⟨_,fun c hc => ?_,rfl⟩)
    obtain ⟨job,hjob,rfl⟩ := List.mem_map.mp hc
    obtain ⟨hmem,hcond⟩ := List.mem_filter.mp hjob
    simp only [Bool.and_eq_true, decide_eq_true_eq] at hcond
    exact ⟨job,hmem,hcond.1.2,hcond.2,rfl⟩

/-- What a launch does, for both kinds of groups. -/
theorem launch_effect (s : System σ) (background : Bool) (list : TokenList) (a : Answers) :
    ∃ forks u, Effect a (if background then some s.shell.nextJobId else none) u forks
        (s.launch background list a) ∧
      (none ∈ forks ↔ ForkFails a background list) ∧
      u = { s.shell with
        out := []
        nextJobId := if background then s.shell.nextJobId + 1 else s.shell.nextJobId } := by
  cases background with
  | true =>
    obtain ⟨forks,heffect,hnone⟩ := executePipelineBg_effect a list s.shell.nextJobId
      (reconstructCmdStr list) { s.shell with out := [], nextJobId := s.shell.nextJobId + 1 }
    exact ⟨forks,_,heffect,hnone,rfl⟩
  | false =>
    obtain ⟨forks,heffect,hnone⟩ := executePipelineFg_effect a list
      (reconstructCmdStr list) { s.shell with out := [] }
    exact ⟨forks,_,heffect,hnone,rfl⟩

/-! ## Descriptors between the commands -/

theorem standard_of_ends {a : Answers} {list : TokenList} {u : State} {r : Result}
    (hu : u.Standard) (h : Ends a list u r) (hcount : u.pipeCount ≤ r.state.pipeCount)
    (hret : returned r.exit = true) : r.state.Standard := by
  rcases h with ⟨_,hdef,hfds⟩ | ⟨_,hundef⟩ | ⟨_,v,hprepare,rfl⟩
  · have heq : r.state.fds = u.fds := by
      cases hexit : r.exit with
      | returned ok => exact hfds ok hexit
      | killed =>
        rw [hexit] at hret
        cases hret
      | undefined => exact absurd hexit hdef
    refine ⟨heq ▸ hu.stdin,heq ▸ hu.stdout,fun fd k he => ?_,fun fd k he => ?_⟩
    · exact (hu.readEnd fd k (heq ▸ he)).trans_le hcount
    · exact (hu.writeEnd fd k (heq ▸ he)).trans_le hcount
  · rw [hundef] at hret
    cases hret
  · obtain ⟨pipes,w,line,hp,rfl,_⟩ := preparePipeline_error hprepare
    have hw := hu.piped hp
    exact ⟨hw.stdin,hw.stdout,hw.readEnd,hw.writeEnd⟩

/-- Between two commands the shell has its standard input and output, whatever
pipes were left open before. -/
theorem reachable_standard {env : σ} (h : Reachable (step os) (start env) s)
    (hlive : s.live = true) : s.shell.Standard := by
  refine h.invariant (I := fun s => s.live = true → s.shell.Standard) (fun _ => start_standard) ?_
    hlive
  intro s e t hs _ he hlive
  have hbefore : s.shell.Standard := hs (Option.ite_none_right_eq_some.mp he).1
  rcases step_cases he with ⟨background,list,a,_,_,rfl⟩ | ⟨_,r,cs,_,_,_,rfl⟩ | ⟨cs,_,rfl⟩
  · obtain ⟨forks,u,heffect,_,hu⟩ := launch_effect s background list a
    have hstandard : u.Standard := by
      rw [hu]
      exact ⟨hbefore.stdin,hbefore.stdout,hbefore.readEnd,hbefore.writeEnd⟩
    have hends : Ends a list u (s.launch background list a) := by
      rw [hu]
      cases background with
      | true => exact executePipelineBg_ends ..
      | false => exact executePipelineFg_ends ..
    exact standard_of_ends hstandard hends heffect.pipeCount hlive
  · exact ⟨hbefore.stdin,hbefore.stdout,hbefore.readEnd,hbefore.writeEnd⟩
  · exact ⟨hbefore.stdin,hbefore.stdout,hbefore.readEnd,hbefore.writeEnd⟩

end

end CShellXv6.Commands
