import CShellXv6.Shell.Calls

/-! # Completions are not lost

A session starts commands, waits for those in the foreground and calls the job
functions, while its children change state at any time. As long as the status
of a group leader is not collected by a wait that forgets it, the job is
announced by the next `jobs_check_completed` after its last process has ended.
-/
namespace CShellXv6.Jobs
open Lexer Process Sweep Transition

/-! ## Sessions -/

/-- A command that has been forked and is not yet registered or done: its
processes, those the foreground wait still has to ask for, and `any_stopped`. -/
structure Launch where
  background : Bool
  procs : List (ℕ × CString)
  waiting : List ℕ
  anyStopped : Bool

structure Session where
  shell : Shell Unix
  nextPid : ℕ
  launched : Option Launch

/-- What can happen in a session. The wait of `execute_pipeline_fg` takes one
status at a time, or is interrupted and reads an uninitialised one. A call comes
with the changes of state that happen during it. -/
inductive Action
  | launch (background : Bool) (first : CString) (rest : List CString)
  | change (pid : ℕ) (c : Change)
  | fgWait
  | fgInterrupted (garbage : Bool)
  | fgDone
  | addPipeline (fullCmd : CString)
  | addStopped (fullCmd : CString)
  | call (e : Event) (script : List (List (ℕ × Change)))

def Unix.fork (u : Unix) (pid n : ℕ) : Unix :=
  { u with children := fun q => if pid ≤ q ∧ q < pid + n then .running false else u.children q }

def Session.start : Session := ⟨Jobs.start ⟨fun _ => .reaped,[],false⟩,1,none⟩

def Session.setEnv (s : Session) (u : Unix) : Session :=
  { s with shell := { s.shell with env := u, out := [] } }

def Session.launch (s : Session) (background : Bool) (names : List CString) : Session :=
  { s.setEnv (s.shell.env.fork s.nextPid names.length) with
    nextPid := s.nextPid + names.length
    launched := some ⟨background,(names.zipIdx s.nextPid).map Prod.swap,
      if background then [] else (names.zipIdx s.nextPid).map Prod.snd,false⟩ }

def Session.fgWait (s : Session) (l : Launch) : Option Session :=
  match l.waiting with
  | [] => none
  | pid :: rest => ((s.shell.env.children pid).report resumeFlags).map fun r =>
      { s.setEnv (s.shell.env.collect pid r.2) with
        launched := some { l with waiting := rest, anyStopped := l.anyStopped || r.1 == .stopped } }

def Session.fgInterrupted (s : Session) (l : Launch) (garbage : Bool) : Option Session :=
  match l.waiting with
  | [] => none
  | _ :: rest => some { s with
      launched := some { l with waiting := rest, anyStopped := l.anyStopped || garbage } }

def Session.register (s : Session) (e : Event) : Option Session :=
  (step unixOs s.shell e).map fun shell => { s with shell := shell, launched := none }

/-- The shell as a call finds it. The handler takes the pending signal. -/
def Session.prepare (s : Session) (e : Event) (script : List (List (ℕ × Change))) : Shell Unix :=
  { s.shell with env := { s.shell.env with
      script := script
      sigchld := s.shell.env.sigchld && !decide (e = .handler) } }

/-- Only the handler runs while a command is being started or waited for, and a
pending signal is handled before the next call. -/
def Session.callable (s : Session) (e : Event) : Bool :=
  !e.adds && (decide (e = .handler) || (s.launched.isNone && !s.shell.env.sigchld))

def Session.call (s : Session) (e : Event) (script : List (List (ℕ × Change))) : Option Session :=
  if s.callable e then
    (step unixOs (s.prepare e script) e).map fun shell =>
      { s with shell := { shell with env := { shell.env with script := [] } } }
  else none

def Session.step (s : Session) : Action → Option Session
  | .launch background first rest =>
    if s.launched.isNone then some (s.launch background (first :: rest)) else none
  | .change pid c => some (s.setEnv (s.shell.env.change pid c))
  | .fgWait => s.launched.bind fun l => s.fgWait l
  | .fgInterrupted garbage => s.launched.bind fun l => s.fgInterrupted l garbage
  | .fgDone => s.launched.bind fun l =>
      if !l.background && l.waiting.isEmpty && !l.anyStopped then some { s with launched := none }
      else none
  | .addPipeline fullCmd => s.launched.bind fun l =>
      if l.background then
        l.procs.head?.bind fun p => s.register (.addPipeline p.1 l.procs fullCmd)
      else none
  | .addStopped fullCmd => s.launched.bind fun l =>
      if !l.background && l.waiting.isEmpty && l.anyStopped then
        l.procs.head?.bind fun p => s.register (.addStopped p.1 l.procs fullCmd)
      else none
  | .call e script => s.call e script

/-- The status of a group leader is forgotten: `jobs_add_stopped` registers a
pipeline whose first process the foreground wait has already reaped, or
`jobs_resume_fg` reaps the leader and goes back to a stopped job. -/
def Session.forgets (s : Session) : Action → Bool
  | .addStopped _ => s.launched.any fun l =>
      l.procs.head?.any fun p => decide (s.shell.env.children p.1 = .reaped)
  | .call e script => reapsLeader (s.prepare e script) e
  | _ => false

/-! ## The table along a session -/

structure Launch.Ok (l : Launch) (nextPid : ℕ) (table : List Job) (u : Unix) : Prop where
  procs : ∀ p ∈ l.procs, p.1 < nextPid ∧ ¬Recorded table p.1
  waiting : l.waiting ⊆ l.procs.map Prod.fst
  background : l.background = true → l.waiting = [] ∧
    ∀ p, l.procs.head? = some p → u.children p.1 ≠ .reaped

structure Session.Ok (s : Session) : Prop where
  sound : Invariant s.shell
  table : TableOk True [] s.shell.table s.shell.env
  recorded : ∀ pid, Recorded s.shell.table pid → pid < s.nextPid
  launched : ∀ l, s.launched = some l → l.Ok s.nextPid s.shell.table s.shell.env

theorem TableOk.later {reaped : List ℕ} {table : List Job} {u v : Unix} {who : ℕ → Prop}
    (h : TableOk True reaped table u) (hl : Later who u v)
    (hwho : ∀ pid, who pid → ¬Recorded table pid) : TableOk True reaped table v := by
  refine ⟨fun job hjob => ?_,h.compatible⟩
  refine (h.covered job hjob).later hl (fun hact hpid => ?_)
  exact hwho job.pgid hpid ⟨job,hjob,hact,(h.covered job hjob hact).1⟩

theorem Session.Ok.setEnv {s : Session} (h : s.Ok) {v : Unix} {who : ℕ → Prop}
    (hl : Later who s.shell.env v) (hwho : ∀ pid, who pid → ¬Recorded s.shell.table pid)
    {launched : Option Launch}
    (hlaunched : ∀ l, launched = some l → l.Ok s.nextPid s.shell.table v) :
    Session.Ok { s.setEnv v with launched := launched } :=
  ⟨h.sound,h.table.later hl hwho,h.recorded,hlaunched⟩

theorem Launch.Ok.later {l : Launch} {nextPid : ℕ} {table : List Job} {u v : Unix} {who : ℕ → Prop}
    (h : l.Ok nextPid table u) (hl : Later who u v)
    (hwho : ∀ p ∈ l.procs, ¬who p.1) : l.Ok nextPid table v := by
  refine ⟨h.procs,h.waiting,fun hbg => ⟨(h.background hbg).1,fun p hp hr => ?_⟩⟩
  rcases hl.reaped p.1 hr with hr | hpid
  · exact (h.background hbg).2 p hp hr
  · exact hwho p (List.mem_of_mem_head? hp) hpid

theorem mem_forked {pid : ℕ} {names : List CString} {p : ℕ × CString}
    (h : p ∈ (names.zipIdx pid).map Prod.swap) : pid ≤ p.1 ∧ p.1 < pid + names.length := by
  obtain ⟨q,hq,rfl⟩ := List.mem_map.mp h
  obtain ⟨hle,hlt,_⟩ := List.mem_zipIdx hq
  exact ⟨hle,by simpa using hlt⟩

theorem Session.Ok.launch {s : Session} (h : s.Ok) (background : Bool) (names : List CString) :
    (s.launch background names).Ok := by
  have hchildren : ∀ pid, Recorded s.shell.table pid →
      (s.shell.env.fork s.nextPid names.length).children pid = s.shell.env.children pid := by
    intro pid hpid
    have := h.recorded pid hpid
    exact if_neg (by omega)
  refine ⟨h.sound,⟨fun job hjob => ?_,h.table.compatible⟩,fun pid hpid => ?_,fun l hl => ?_⟩
  · exact (h.table.covered job hjob).congr
      (fun hact pid hpid => hchildren pid ⟨job,hjob,hact,hpid⟩) (fun _ => id)
  · exact Nat.lt_add_right _ (h.recorded pid hpid)
  · cases hl
    refine ⟨fun p hp => ?_,?_,fun hbg => ?_⟩
    · obtain ⟨hle,hlt⟩ := mem_forked hp
      exact ⟨hlt,fun hrec => absurd (h.recorded p.1 hrec) (by omega)⟩
    · dsimp only
      split
      · exact List.nil_subset _
      · rw [List.map_map]
        exact List.Subset.refl _
    · dsimp only at hbg
      refine ⟨by simp [hbg],fun p hp hr => ?_⟩
      have hin := mem_forked (List.mem_of_mem_head? hp)
      simp [Session.launch,Session.setEnv,Unix.fork,hin] at hr

/-- The foreground wait goes on to the next process. -/
theorem Launch.Ok.advance {l : Launch} {nextPid : ℕ} {table : List Job} {u v : Unix}
    (h : l.Ok nextPid table u) {pid : ℕ} {rest : List ℕ} (hwaiting : l.waiting = pid :: rest)
    (b : Bool) : Launch.Ok { l with waiting := rest, anyStopped := b } nextPid table v := by
  refine ⟨h.procs,fun q hq => h.waiting ?_,fun hbg => ?_⟩
  · rw [hwaiting]
    exact List.mem_cons_of_mem _ hq
  · have hnil := (h.background hbg).1
    rw [hwaiting] at hnil
    cases hnil

theorem Session.Ok.fgWait {s t : Session} (h : s.Ok) {l : Launch} (hl : s.launched = some l)
    (hstep : s.fgWait l = some t) : t.Ok := by
  have hok := h.launched l hl
  unfold Session.fgWait at hstep
  split at hstep
  · cases hstep
  · next pid rest hwaiting =>
    obtain ⟨⟨r,child⟩,hreport,rfl⟩ := Option.map_eq_some_iff.mp hstep
    obtain ⟨p,hp,hpid⟩ := List.mem_map.mp (hok.waiting (hwaiting ▸ List.mem_cons_self))
    have hdead : (s.shell.env.children pid).dead = true → child = .reaped := by
      intro hdead
      cases hc : s.shell.env.children pid <;> simp_all [Child.report,Child.dead]
    have hlater : Later (· = pid) s.shell.env (s.shell.env.collect pid child) :=
      s.shell.env.collect_later (fun _ => Or.inr rfl) hdead
    refine h.setEnv hlater ?_ (fun l' hl' => ?_)
    · rintro q rfl
      exact hpid ▸ (hok.procs p hp).2
    · cases hl'
      exact hok.advance hwaiting _

theorem Session.Ok.fgInterrupted {s t : Session} (h : s.Ok) {l : Launch} {garbage : Bool}
    (hl : s.launched = some l) (hstep : s.fgInterrupted l garbage = some t) : t.Ok := by
  unfold Session.fgInterrupted at hstep
  split at hstep
  · cases hstep
  · next pid rest hwaiting =>
    cases hstep
    refine ⟨h.sound,h.table,h.recorded,fun l' hl' => ?_⟩
    cases hl'
    exact (h.launched l hl).advance hwaiting _

theorem mem_modifyFirst {p : Job → Bool} {new job : Job} {table : List Job}
    (h : job ∈ modifyFirst p (fun _ => new) table) : job ∈ table ∨ job = new := by
  obtain ⟨i,hget⟩ := List.mem_iff_getElem?.mp h
  obtain ⟨job0,hjob0,hR⟩ := modifyFirst_cellwise (R := fun a b => b = a ∨ b = new)
    (fun _ => Or.inl rfl) (fun _ _ => Or.inr rfl) table i job hget
  rcases hR with rfl | rfl
  · exact Or.inl (List.mem_of_getElem? hjob0)
  · exact Or.inr rfl

theorem modifyFirst_pairwise {C : Job → Job → Prop} (hsymm : ∀ a b, C a b → C b a)
    {p : Job → Bool} {new : Job} {table : List Job} (h : table.Pairwise C)
    (hnew : ∀ job ∈ table, C job new) : (modifyFirst p (fun _ => new) table).Pairwise C := by
  induction table with
  | nil => exact .nil
  | cons job rest ih =>
    obtain ⟨hjob,hrest⟩ := List.pairwise_cons.mp h
    have hnew' : ∀ b ∈ rest, C b new := fun b hb => hnew b (List.mem_cons_of_mem _ hb)
    rw [modifyFirst]
    split
    · exact List.pairwise_cons.mpr ⟨fun b hb => hsymm b new (hnew' b hb),hrest⟩
    · refine List.pairwise_cons.mpr ⟨fun b hb => ?_,ih hrest hnew'⟩
      rcases mem_modifyFirst hb with hb | rfl
      · exact hjob b hb
      · exact hnew job List.mem_cons_self

/-- A job with fresh processes and an unreaped leader joins the table. -/
theorem TableOk.join {table : List Job} {u : Unix} {new : Job} (h : TableOk True [] table u)
    (hfresh : ∀ pid ∈ new.pids, ¬Recorded table pid) (hlead : new.pgid ∈ new.pids)
    (hne : u.children new.pgid ≠ .reaped) (hst : ∀ p ∈ new.procs, p.state ≠ .exited) :
    TableOk True [] (modifyFirst (fun job => !job.active) (fun _ => new) table) u := by
  refine ⟨fun job hjob => ?_,modifyFirst_pairwise (fun _ _ => Compatible.symm) h.compatible ?_⟩
  · rcases mem_modifyFirst hjob with hjob | rfl
    · exact h.covered job hjob
    · exact fun _ => ⟨hlead,Or.inr hne,fun p hp =>
        ⟨fun hex => absurd hex (hst p hp),fun _ => Or.inr (fun _ _ => hst p hp)⟩⟩
  · exact fun job hjob hact _ pid hpid hpid' => hfresh pid hpid' ⟨job,hjob,hact,hpid⟩

/-- What `jobs_add_pipeline` records of a launched command. -/
theorem newJob_pids {jobId pgid : ℕ} {procs : List (ℕ × CString)} {fullCmd : CString} :
    (newJob jobId pgid procs fullCmd).pids = (procs.take maxPidsPerJob).map Prod.fst ∧
      (newJob jobId pgid procs fullCmd).stopAll.pids = (procs.take maxPidsPerJob).map Prod.fst := by
  constructor
  · simp only [Job.pids, newJob, List.map_map]
    rfl
  · simp only [Job.pids, Job.stopAll, newJob, List.map_map]
    rfl

theorem Session.Ok.register {s : Session} (h : s.Ok) {l : Launch} (hl : s.launched = some l)
    {p : ℕ × CString} (hp : l.procs.head? = some p) (hne : s.shell.env.children p.1 ≠ .reaped)
    {new : Job} (hpgid : new.pgid = p.1)
    (hpids : new.pids = (l.procs.take maxPidsPerJob).map Prod.fst)
    (hst : ∀ q ∈ new.procs, q.state ≠ .exited) {shell : Shell Unix} (hsound : Invariant shell)
    (htable : shell.table = modifyFirst (fun job => !job.active) (fun _ => new) s.shell.table)
    (henv : shell.env = s.shell.env) :
    Session.Ok { s with shell := shell, launched := none } := by
  have hok := h.launched l hl
  have hmem : ∀ pid ∈ new.pids, pid < s.nextPid ∧ ¬Recorded s.shell.table pid := by
    intro pid hpid
    rw [hpids] at hpid
    obtain ⟨q,hq,rfl⟩ := List.mem_map.mp hpid
    exact hok.procs q (List.mem_of_mem_take hq)
  have hlead : new.pgid ∈ new.pids := by
    cases hprocs : l.procs with
    | nil => simp [hprocs] at hp
    | cons q rest =>
      rw [hprocs] at hp
      cases hp
      rw [hpgid, hpids, hprocs]
      exact List.mem_cons_self
  have hjoin := h.table.join (fun pid hpid => (hmem pid hpid).2) hlead (hpgid ▸ hne) hst
  rw [← htable, ← henv] at hjoin
  refine ⟨hsound,hjoin,fun pid ⟨job,hjob,hact,hpid⟩ => ?_,fun l' hl' => by cases hl'⟩
  rw [htable] at hjob
  rcases mem_modifyFirst hjob with hjob | rfl
  · exact h.recorded pid ⟨job,hjob,hact,hpid⟩
  · exact (hmem pid hpid).1

theorem Session.Ok.addPipeline {s t : Session} (h : s.Ok) {l : Launch} (hl : s.launched = some l)
    (hbg : l.background = true) {p : ℕ × CString} (hp : l.procs.head? = some p) {fullCmd : CString}
    (hstep : s.register (.addPipeline p.1 l.procs fullCmd) = some t) : t.Ok := by
  obtain ⟨shell,hshell,rfl⟩ := Option.map_eq_some_iff.mp hstep
  have hsound := (step_spec h.sound hshell).1
  cases hshell
  have hne := ((h.launched l hl).background hbg).2 p hp
  refine h.register hl hp hne rfl newJob_pids.1 ?_ hsound rfl rfl
  intro q hq
  obtain ⟨q',_,rfl⟩ := List.mem_map.mp hq
  simp

theorem Session.Ok.addStopped {s t : Session} (h : s.Ok) {l : Launch} (hl : s.launched = some l)
    {p : ℕ × CString} (hp : l.procs.head? = some p) (hne : s.shell.env.children p.1 ≠ .reaped)
    {fullCmd : CString} (hstep : s.register (.addStopped p.1 l.procs fullCmd) = some t) : t.Ok := by
  obtain ⟨shell,hshell,rfl⟩ := Option.map_eq_some_iff.mp hstep
  have hsound := (step_spec h.sound hshell).1
  cases hshell
  refine h.register hl hp hne rfl newJob_pids.2 ?_ hsound h.sound.addStopped rfl
  intro q hq
  obtain ⟨q',_,rfl⟩ := List.mem_map.mp hq
  simp

/-- The table as a call finds it. -/
theorem Session.Ok.prepare {s : Session} (h : s.Ok) (e : Event)
    (script : List (List (ℕ × Change))) :
    TableOk (e ≠ .handler) [] (s.prepare e script).table (s.prepare e script).env := by
  refine ⟨fun job hjob => (h.table.covered job hjob).congr (fun _ _ _ => rfl) (fun he hs => ?_),
    h.table.compatible⟩
  simpa [Session.prepare,he] using hs

theorem Session.call_cases {s t : Session} {e : Event} {script : List (List (ℕ × Change))}
    (h : s.call e script = some t) : s.callable e = true ∧ ∃ shell,
      Jobs.step unixOs (s.prepare e script) e = some shell ∧
      t = { s with shell := { shell with env := { shell.env with script := [] } } } := by
  unfold Session.call at h
  split at h
  · next hc =>
    obtain ⟨shell,hshell,rfl⟩ := Option.map_eq_some_iff.mp h
    exact ⟨hc,shell,hshell,rfl⟩
  · cases h

theorem Session.Ok.call {s t : Session} (h : s.Ok) {e : Event} {script : List (List (ℕ × Change))}
    (hreaps : reapsLeader (s.prepare e script) e = false) (hstep : s.call e script = some t) :
    t.Ok := by
  obtain ⟨hcallable,shell,hshell,rfl⟩ := Session.call_cases hstep
  simp only [Session.callable, Bool.and_eq_true, Bool.not_eq_true'] at hcallable
  have hsound : Invariant (s.prepare e script) := h.sound
  have hkept := step_kept hsound (h.prepare e script) hcallable.1 hreaps hshell
  refine ⟨(step_spec hsound hshell).1,⟨fun job hjob => ?_,hkept.ok.compatible⟩,
    fun pid hpid => h.recorded pid (hkept.recorded pid hpid),fun l hl => ?_⟩
  · exact (hkept.ok.covered job hjob).congr (fun _ _ _ => rfl) (fun _ => id)
  · have hok := h.launched l hl
    refine ⟨fun p hp => ⟨(hok.procs p hp).1,fun hrec => (hok.procs p hp).2 (hkept.recorded _ hrec)⟩,
      hok.waiting,fun hbg => ⟨(hok.background hbg).1,fun p hp hr => ?_⟩⟩
    rcases hkept.later.reaped p.1 hr with hr | hrec
    · exact (hok.background hbg).2 p hp hr
    · exact (hok.procs p (List.mem_of_mem_head? hp)).2 hrec

theorem Session.Ok.step {s t : Session} {a : Action} (h : s.Ok) (hg : s.forgets a = false)
    (hstep : s.step a = some t) : t.Ok := by
  cases a with
  | launch background first rest =>
    obtain ⟨_,hstep⟩ := Option.ite_none_right_eq_some.mp hstep
    cases hstep
    exact h.launch background _
  | change pid c =>
    cases hstep
    exact h.setEnv (s.shell.env.change_later pid c) (fun _ hf => hf.elim)
      (fun l hl => (h.launched l hl).later (s.shell.env.change_later pid c) (fun _ _ => id))
  | fgWait =>
    obtain ⟨l,hl,hstep⟩ := Option.bind_eq_some_iff.mp hstep
    exact h.fgWait hl hstep
  | fgInterrupted garbage =>
    obtain ⟨l,hl,hstep⟩ := Option.bind_eq_some_iff.mp hstep
    exact h.fgInterrupted hl hstep
  | fgDone =>
    obtain ⟨l,_,hstep⟩ := Option.bind_eq_some_iff.mp hstep
    obtain ⟨_,hstep⟩ := Option.ite_none_right_eq_some.mp hstep
    cases hstep
    exact ⟨h.sound,h.table,h.recorded,fun l hl => by cases hl⟩
  | addPipeline fullCmd =>
    obtain ⟨l,hl,hstep⟩ := Option.bind_eq_some_iff.mp hstep
    obtain ⟨hbg,hstep⟩ := Option.ite_none_right_eq_some.mp hstep
    obtain ⟨p,hp,hstep⟩ := Option.bind_eq_some_iff.mp hstep
    exact h.addPipeline hl hbg hp hstep
  | addStopped fullCmd =>
    obtain ⟨l,hl,hstep⟩ := Option.bind_eq_some_iff.mp hstep
    obtain ⟨_,hstep⟩ := Option.ite_none_right_eq_some.mp hstep
    obtain ⟨p,hp,hstep⟩ := Option.bind_eq_some_iff.mp hstep
    refine h.addStopped hl hp ?_ hstep
    simpa [Session.forgets,hl,hp] using hg
  | call e script => exact h.call hg hstep

theorem Session.start_ok : Session.start.Ok := by
  have hempty : ∀ job ∈ Session.start.shell.table, job.active = false :=
    fun job hjob => by rw [List.eq_of_mem_replicate hjob]; rfl
  refine ⟨@Invariant.reachable _ unixOs _ _ (.refl _),
    ⟨fun job hjob => Covered.inactive (hempty job hjob),?_⟩,fun pid ⟨job,hjob,hact,_⟩ => ?_,
    fun l hl => by cases hl⟩
  · refine List.pairwise_of_forall_mem_list (fun a ha b _ hact => ?_)
    exact absurd (hact.symm.trans (hempty a ha)) (by decide)
  · exact absurd (hact.symm.trans (hempty job hjob)) (by decide)

/-! ## Completions -/

theorem Session.Ok.completes {s t : Session} (h : s.Ok) {script : List (List (ℕ × Change))}
    (hstep : s.call .checkCompleted script = some t) {i : ℕ} {job : Job}
    (hget : s.shell.table[i]? = some job) (hact : job.active = true)
    (hdead : ∀ p ∈ job.procs, (s.shell.env.children p.pid).dead = true) :
    ∃ job', t.shell.table[i]? = some job' ∧ job'.active = false ∧ job'.jobId = job.jobId ∧
      job'.pgid = job.pgid ∧ job'.line ∈ t.shell.out := by
  obtain ⟨hcallable,shell,hshell,rfl⟩ := Session.call_cases hstep
  have hs : s.shell.env.sigchld = false := by
    simp only [Session.callable, Event.adds, reduceCtorEq, decide_false, Bool.not_false,
      Bool.true_and, Bool.false_or, Bool.and_eq_true, Bool.not_eq_true'] at hcallable
    exact hcallable.2
  have hsound := (h.sound job (List.mem_of_getElem? hget)).1
  obtain ⟨job',hjob',hcompleted,hsame⟩ := jobsRefreshStates_completes
    ((h.prepare .checkCompleted script).mono (fun _ => by simp)) (by simp [Session.prepare,hs]) hget
    hact (hsound hact).1 hdead
  have hstays : Stays job job' := (jobsRefreshStates_stays unixOs _ _).get hget hjob'
  cases hshell
  refine ⟨{ job' with reported := true, active := false },?_,rfl,(hstays hsound).2.2,hsame.pgid,?_⟩
  · show ((jobsRefreshStates unixOs _ _).1.map Job.complete)[i]? = _
    rw [List.getElem?_map, hjob']
    simp [Job.complete,hcompleted]
  · exact List.mem_map.mpr ⟨job',List.mem_filter.mpr ⟨List.mem_of_getElem? hjob',hcompleted⟩,rfl⟩

/-- An action registers a job, is a call, or leaves the table alone. -/
theorem Session.step_cases {s t : Session} {a : Action} (hstep : s.step a = some t) :
    t.shell.table = s.shell.table ∨ (∃ e, e.adds = true ∧ s.register e = some t) ∨
      ∃ e script, a = .call e script ∧ s.call e script = some t := by
  cases a with
  | launch background first rest =>
    obtain ⟨_,hstep⟩ := Option.ite_none_right_eq_some.mp hstep
    cases hstep
    exact Or.inl rfl
  | change pid c =>
    cases hstep
    exact Or.inl rfl
  | fgWait =>
    obtain ⟨l,_,hstep⟩ := Option.bind_eq_some_iff.mp hstep
    unfold Session.fgWait at hstep
    split at hstep
    · cases hstep
    · obtain ⟨r,_,rfl⟩ := Option.map_eq_some_iff.mp hstep
      exact Or.inl rfl
  | fgInterrupted garbage =>
    obtain ⟨l,_,hstep⟩ := Option.bind_eq_some_iff.mp hstep
    unfold Session.fgInterrupted at hstep
    split at hstep
    · cases hstep
    · cases hstep
      exact Or.inl rfl
  | fgDone =>
    obtain ⟨l,_,hstep⟩ := Option.bind_eq_some_iff.mp hstep
    obtain ⟨_,hstep⟩ := Option.ite_none_right_eq_some.mp hstep
    cases hstep
    exact Or.inl rfl
  | addPipeline fullCmd =>
    obtain ⟨l,_,hstep⟩ := Option.bind_eq_some_iff.mp hstep
    obtain ⟨_,hstep⟩ := Option.ite_none_right_eq_some.mp hstep
    obtain ⟨p,_,hstep⟩ := Option.bind_eq_some_iff.mp hstep
    exact Or.inr (Or.inl ⟨_,rfl,hstep⟩)
  | addStopped fullCmd =>
    obtain ⟨l,_,hstep⟩ := Option.bind_eq_some_iff.mp hstep
    obtain ⟨_,hstep⟩ := Option.ite_none_right_eq_some.mp hstep
    obtain ⟨p,_,hstep⟩ := Option.bind_eq_some_iff.mp hstep
    exact Or.inr (Or.inl ⟨_,rfl,hstep⟩)
  | call e script => exact Or.inr (Or.inr ⟨e,script,rfl,hstep⟩)

/-- Only a call can give up a slot. -/
theorem Session.Ok.leaves {s t : Session} (h : s.Ok) {a : Action} (hstep : s.step a = some t) {i : ℕ}
    {job job' : Job} (hjob : s.shell.table[i]? = some job) (hjob' : t.shell.table[i]? = some job')
    (hact : job.active = true) (hgone : job'.active = false) :
    ∃ script, (a = .call .checkCompleted script ∧ job'.line ∈ t.shell.out) ∨
      ∃ timeoutSeconds pauses late,
        a = .call (.resumeFg job.jobId timeoutSeconds pauses late) script ∧
        (.timedOut ∈ t.shell.out ∨
          ∀ p ∈ job'.procs, (t.shell.env.children p.pid).dead = true) := by
  rcases Session.step_cases hstep with heq | ⟨e,hadds,hreg⟩ | ⟨e,script,rfl,hcall⟩
  · rw [heq, hjob] at hjob'
    cases hjob'
    exact absurd (hact.symm.trans hgone) (by decide)
  · obtain ⟨shell,hshell,rfl⟩ := Option.map_eq_some_iff.mp hreg
    rcases step_leaves h.sound (h.table.mono (fun _ => trivial)) hshell hjob hjob' hact hgone with
      ⟨rfl,_⟩ | ⟨_,_,_,rfl,_⟩
    · cases hadds
    · cases hadds
  · obtain ⟨_,shell,hshell,rfl⟩ := Session.call_cases hcall
    have hsound : Invariant (s.prepare e script) := h.sound
    rcases step_leaves hsound (h.prepare e script) hshell hjob hjob' hact hgone with
      ⟨rfl,hline⟩ | ⟨timeoutSeconds,pauses,late,rfl,hover⟩
    · exact ⟨script,Or.inl ⟨rfl,hline⟩⟩
    · exact ⟨script,Or.inr ⟨timeoutSeconds,pauses,late,rfl,hover⟩⟩

/-- A pipeline is stopped in the foreground, resumed in the background, and ends. -/
def stoppedPipeline : List Action :=
  [.launch false "a".toList ["b".toList],.change 1 .stop,.change 2 .stop,.fgWait,.fgWait,
    .addStopped "a | b".toList,.call .handler [],.call (.resumeBg 1) [],.change 1 .continue,
    .change 2 .continue,.change 1 (.exit false),.change 2 (.exit false),.call .handler []]

def resumedSession : Session :=
  (execute (restrict Session.step (fun s a => s.forgets a = false)) Session.start
    stoppedPipeline).get (by decide +kernel)

/-- The first process of a foreground pipeline ends and is reaped by the wait;
the second is stopped, resumed in the background and ends as well. -/
def reapedLeader : List Action :=
  [.launch false "a".toList ["b".toList],.change 1 (.exit false),.fgWait,.change 2 .stop,.fgWait,
    .addStopped "a | b".toList,.call .handler [],.call (.resumeBg 1) [],.change 2 .continue,
    .call .handler [],.change 2 (.exit false),.call .handler []]

def reapedSession : Session :=
  (execute (restrict Session.step (fun _ _ => True)) Session.start reapedLeader).get
    (by decide +kernel)

end CShellXv6.Jobs
