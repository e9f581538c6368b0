import CShellXv6.Shell.Tracking

/-! # Where the -1 of a failed fork goes

The pipeline functions do not look at what `fork` returns, so a failure is put
into process groups, waited for and recorded like a process, and `jobs.c` later
signals it. As long as no fork for a stage fails, every call is made on a process
that exists.
-/
namespace CShellXv6.Commands
open Launch Jobs Transition Sweep

/-- A number given out by `fork`. -/
def Forked (pid : ℕ) : Prop := 1 < pid ∧ pid < 2 ^ 31

/-- A `pid_t` above 0. -/
def Positive (pid : ℕ) : Prop := 0 < pid ∧ pid < 2 ^ 31

/-- The call is made on neither process -1 nor group -1, and does not signal
process 1. -/
def Proper : Call → Prop
  | .setpgid pid pgid => pid ≠ minusOne ∧ pgid ≠ minusOne
  | .waitpid pid => pid ≠ minusOne
  | .tcsetpgrp pgid => pgid ≠ minusOne
  | .kill pid => pid ≠ minusOne ∧ pid ≠ 1

/-- A slot that has ever been used records numbers above 0. -/
def RecordsPositive (job : Job) : Prop :=
  (∀ pid ∈ job.pids, Positive pid) ∧ (job.pids ≠ [] → Positive job.pgid)

/-- A fork for a stage of a pipeline fails. -/
def Event.ForkFails : Event → Prop
  | .group background list a => Launch.ForkFails a background list
  | _ => False

theorem Forked.positive {pid : ℕ} (h : Forked pid) : Positive pid := ⟨by have := h.1; omega,h.2⟩

theorem Forked.ne_minusOne {pid : ℕ} (h : Forked pid) : pid ≠ minusOne := by
  have := h.2
  unfold minusOne
  omega

theorem Forked.signal {job : Job} (h : Forked job.pgid) : Proper (signal job) := by
  obtain ⟨hlow,hhigh⟩ := h
  have hneg : negate job.pgid = 2 ^ 32 - job.pgid := by
    unfold negate
    omega
  change negate job.pgid ≠ minusOne ∧ negate job.pgid ≠ 1
  rw [hneg, minusOne]
  omega

theorem forked_pidOf {forks : List (Option Pid)} (h : none ∉ forks) {f : Option Pid}
    (hf : f ∈ forks) : Forked (pidOf f) := by
  cases f with
  | none => exact absurd hf h
  | some pid => exact pid.property

theorem forked_pgidOf {forks : List (Option Pid)} (h : none ∉ forks) (hne : forks ≠ []) :
    Forked (pgidOf forks) := by
  cases forks with
  | nil => exact absurd rfl hne
  | cons f rest => exact forked_pidOf h List.mem_cons_self

/-! ## Runs without a failing fork -/

/-- All calls so far are proper, and only forked processes are recorded. -/
structure Sane {σ : Type*} (s : System σ) : Prop where
  calls : ∀ c ∈ s.shell.calls, Proper c
  pids : AllPids Forked s.shell.table
  pgid : ∀ job ∈ s.shell.table, job.pids ≠ [] → Forked job.pgid

section
variable {σ : Type*} {os : Os σ} {s t : System σ}

theorem Sane.persists_pgid (hs : Sane s) {table : List Job}
    (hc : Cellwise Persists s.shell.table table) :
    ∀ job ∈ table, job.pids ≠ [] → Forked job.pgid := by
  intro job' hjob' hne
  obtain ⟨i,hget⟩ := List.mem_iff_getElem?.mp hjob'
  obtain ⟨job,hjob,hp⟩ := hc i job' hget
  rw [hp.pgid]
  exact hs.pgid job (List.mem_of_getElem? hjob) (hp.pids ▸ hne)

theorem logged_asks (os : Os σ) : Asks (logged os) Forked (fun env => ∀ c ∈ env.2, Proper c) := by
  refine ⟨fun env pid flags hpid henv c hc => ?_,fun env pid _ henv => henv⟩
  rcases List.mem_append.mp hc with hc | hc
  · exact henv c hc
  · rw [List.mem_singleton.mp hc]
    exact hpid.ne_minusOne

theorem Sane.target (hs : Sane s) {jobId : ℕ} {job : Job} (h : s.target os jobId = some job) :
    Forked job.pgid := by
  obtain ⟨i,hfind,hget⟩ := Option.bind_eq_some_iff.mp h
  obtain ⟨job',hget',_,_,halive⟩ := findJob_spec hfind
  obtain rfl : job' = job := Option.some_inj.mp (hget'.symm.trans hget)
  have hc := jobsRefreshStates_persists (logged os) s.shell.table (s.env,s.shell.calls)
  refine hs.persists_pgid hc job' (List.mem_of_getElem? hget) (fun hnil => ?_)
  obtain ⟨p,hp,_⟩ := List.any_eq_true.mp halive
  rw [Job.pids, List.map_eq_nil_iff] at hnil
  rw [hnil] at hp
  cases hp

theorem Sane.sends (hs : Sane s) {c : Call} (h : Sends os s c) : Proper c := by
  cases h with
  | signal htarget => exact (hs.target htarget).signal
  | give htarget => exact (hs.target htarget).ne_minusOne
  | back pgrp => exact Forked.ne_minusOne pgrp.property
  | @kill pid htracked =>
    obtain ⟨job,hjob,hcond⟩ := List.any_eq_true.mp htracked
    simp only [Bool.and_eq_true, List.any_eq_true, beq_iff_eq] at hcond
    obtain ⟨_,p,hp,hpid,_⟩ := hcond
    have hpids := hs.pids.persists
      (jobsRefreshStates_persists (logged os) s.shell.table (s.env,s.shell.calls))
    have hforked : Forked pid := hpids job hjob pid (hpid ▸ List.mem_map_of_mem hp)
    exact ⟨hforked.ne_minusOne,by have := hforked.1; omega⟩

theorem Sane.called (hs : Sane s) {e : Jobs.Event} {r : Jobs.Shell (σ × List Call)}
    (hadds : e.adds = false) (h : Jobs.step (logged os) s.jobs e = some r) {cs : List Call}
    (hcs : ∀ c ∈ cs, Sends os s c) : Sane (s.after r cs) := by
  have hc := step_persists hadds h
  refine ⟨fun c hmem => ?_,hs.pids.persists hc,hs.persists_pgid hc⟩
  rcases List.mem_append.mp hmem with hmem | hmem
  · exact step_env (logged_asks os) hadds hs.pids hs.calls h c hmem
  · exact hs.sends (hcs c hmem)

theorem effect_proper {a : Answers} {job : Option ℕ} {u : State} {forks : List (Option Pid)}
    {r : Result} (h : Effect a job u forks r) (hnone : none ∉ forks)
    (hu : ∀ c ∈ u.calls, Proper c) : ∀ c ∈ r.state.calls, Proper c := by
  obtain ⟨cs,hcalls,hwait⟩ := h.calls
  intro c hc
  rw [hcalls, List.mem_append, List.mem_append] at hc
  rcases hc with (hc | hc) | hc
  · exact hu c hc
  · obtain ⟨f,hf,rfl⟩ := List.mem_map.mp hc
    exact ⟨(forked_pidOf hnone hf).ne_minusOne,
      (forked_pgidOf hnone (List.ne_nil_of_mem hf)).ne_minusOne⟩
  · cases hwait c hc with
    | give hne => exact (forked_pgidOf hnone hne).ne_minusOne
    | wait hf => exact (forked_pidOf hnone hf).ne_minusOne
    | back => exact Forked.ne_minusOne a.getpgrp.property

theorem Sane.launched (hs : Sane s) (htracked : Tracked s) {background : Bool}
    {list : Lexer.TokenList} {a : Answers} (hok : ¬Launch.ForkFails a background list)
    (live : Bool) :
    Sane { s with shell := (s.launch background list a).state, live := live } := by
  have hcalls : ∀ c ∈ (s.launch background list a).state.calls, Proper c := by
    obtain ⟨forks,u,heffect,hfails,rfl⟩ := launch_effect s background list a
    exact effect_proper heffect (fun hnone => hok (hfails.mp hnone)) hs.calls
  rcases launch_table htracked background list a with ⟨htable,_⟩ |
    ⟨new,forks,_,_,_,hpids,⟨hne,hpgid,hfails⟩,htable,_⟩
  · refine ⟨hcalls,fun job hjob => ?_,fun job hjob => ?_⟩
    · exact hs.pids job (htable ▸ hjob)
    · exact hs.pgid job (htable ▸ hjob)
  · have hnone : none ∉ forks := fun hnone => hok (hfails.mp hnone)
    have hjoin : ∀ job ∈ (s.launch background list a).state.table,
        job ∈ s.shell.table ∨ job = new := fun job hjob => mem_modifyFirst (htable ▸ hjob)
    refine ⟨hcalls,fun job hjob pid hpid => ?_,fun job hjob hjobPids => ?_⟩
    · rcases hjoin job hjob with hjob | rfl
      · exact hs.pids job hjob pid hpid
      · rw [hpids] at hpid
        obtain ⟨f,hf,rfl⟩ := List.mem_map.mp hpid
        exact forked_pidOf hnone (List.mem_of_mem_take hf)
    · rcases hjoin job hjob with hjob | rfl
      · exact hs.pgid job hjob hjobPids
      · rw [hpgid]
        exact forked_pgidOf hnone hne

theorem Sane.step {e : Event} (hs : Sane s) (htracked : Tracked s) (hok : ¬e.ForkFails)
    (h : Commands.step os s e = some t) : Sane t := by
  rcases step_cases h with ⟨background,list,a,rfl,_,rfl⟩ | ⟨_,r,cs,hadds,hr,hcs,rfl⟩ | ⟨cs,hcs,rfl⟩
  · exact hs.launched htracked hok _
  · exact hs.called hadds hr hcs
  · refine ⟨fun c hc => ?_,hs.pids,hs.pgid⟩
    rcases List.mem_append.mp hc with hc | hc
    · exact hs.calls c hc
    · obtain ⟨job,_,hlow,hhigh,rfl⟩ := hcs c hc
      exact Forked.signal ⟨hlow,hhigh⟩

/-! ## Runs with a failing fork -/

theorem step_calls {e : Event} (h : Commands.step os s e = some t) :
    ∀ c ∈ s.shell.calls, c ∈ t.shell.calls := by
  rcases step_cases h with ⟨background,list,a,_,_,rfl⟩ | ⟨_,r,cs,hadds,hr,_,rfl⟩ | ⟨cs,_,rfl⟩
  · obtain ⟨forks,u,heffect,_,rfl⟩ := launch_effect s background list a
    obtain ⟨cs,hcalls,_⟩ := heffect.calls
    intro c hc
    rw [hcalls, List.append_assoc]
    exact List.mem_append_left _ hc
  · have hasks : Asks (logged os) (fun _ => True) (fun env => ∀ c ∈ s.shell.calls, c ∈ env.2) :=
      ⟨fun _ _ _ _ henv c hc => List.mem_append_left _ (henv c hc),fun _ _ _ henv => henv⟩
    have hkeep := step_env hasks hadds (fun _ _ _ _ => trivial) (fun c hc => hc) hr
    exact fun c hc => List.mem_append_left _ (hkeep c hc)
  · exact fun c hc => List.mem_append_left _ hc

theorem reachable_calls (h : Reachable (Commands.step os) s t) :
    ∀ c ∈ s.shell.calls, c ∈ t.shell.calls :=
  h.invariant (I := fun t => ∀ c ∈ s.shell.calls, c ∈ t.shell.calls) (fun _ hc => hc)
    (fun _ _ _ ih _ he c hc => step_calls he c (ih c hc))

/-- The call that puts the failed stage into the group is made at once. -/
theorem forkFails_improper {e : Event} (hfails : e.ForkFails)
    (h : Commands.step os s e = some t) : ∃ c ∈ t.shell.calls, ¬Proper c := by
  cases e with
  | group background list a =>
    obtain ⟨_,rfl⟩ := step_group h
    obtain ⟨forks,u,heffect,hiff,_⟩ := launch_effect s background list a
    obtain ⟨cs,hcalls,_⟩ := heffect.calls
    refine ⟨.setpgid (pidOf none) (pgidOf forks),?_,fun hproper => hproper.1 rfl⟩
    rw [hcalls]
    refine List.mem_append_left _ (List.mem_append_right _ ?_)
    exact List.mem_map.mpr ⟨none,hiff.mpr hfails,rfl⟩
  | _ => exact absurd hfails id

/-! ## Every run -/

theorem Sane.runs (hs : Sane s) (htracked : Tracked s)
    (h : Runs (Commands.step os) (fun _ e => ¬e.ForkFails) s t) : Sane t := by
  have hinv : Sane t ∧ Tracked t := h.invariant (I := fun u => Sane u ∧ Tracked u) ⟨hs,htracked⟩
    (fun _ _ _ hu hok he => ⟨hu.1.step hu.2 hok he,hu.2.step he⟩)
  exact hinv.1

theorem execute_improper {es : List Event} {e : Event} (he : e ∈ es) (hfails : e.ForkFails)
    (h : execute (Commands.step os) s es = some t) : ∃ c ∈ t.shell.calls, ¬Proper c := by
  obtain ⟨before,after,rfl⟩ := List.append_of_mem he
  rw [execute_append] at h
  obtain ⟨u,_,hrest⟩ := Option.bind_eq_some_iff.mp h
  obtain ⟨v,hv,hafter⟩ := Option.bind_eq_some_iff.mp hrest
  obtain ⟨c,hc,himproper⟩ := forkFails_improper hfails hv
  have hlater : Reachable (Commands.step os) v t := Runs.of_events (fun _ _ => trivial) hafter
  exact ⟨c,reachable_calls hlater c hc,himproper⟩

theorem start_sane (env : σ) : Sane (start env) := by
  have hempty : ∀ job ∈ (start env).shell.table, job.pids = [] := by
    intro job hjob
    rw [List.eq_of_mem_replicate hjob]
    rfl
  refine ⟨fun c hc => absurd hc List.not_mem_nil,fun job hjob pid hpid => ?_,fun job hjob hne => ?_⟩
  · rw [hempty job hjob] at hpid
    cases hpid
  · exact absurd (hempty job hjob) hne

/-- In every run of the shell, all calls on processes and groups are proper and
the table records numbers above 0, if and only if no fork for a stage of a
pipeline has failed. -/
theorem failed_forks_contained_iff {env : σ} {es : List Event}
    (h : execute (Commands.step os) (start env) es = some t) :
    ((∀ c ∈ t.shell.calls, Proper c) ∧ ∀ job ∈ t.shell.table, RecordsPositive job) ↔
      ∀ e ∈ es, ¬e.ForkFails := by
  constructor
  · rintro ⟨hcalls,_⟩ e he hfails
    obtain ⟨c,hc,himproper⟩ := execute_improper he hfails h
    exact himproper (hcalls c hc)
  · intro hok
    have hsane := (start_sane env).runs (start_tracked env) (Runs.of_events hok h)
    exact ⟨hsane.calls,fun job hjob => ⟨fun pid hpid => (hsane.pids job hjob pid hpid).positive,
      fun hne => (hsane.pgid job hjob hne).positive⟩⟩

end

theorem failed_forks_contained_onePipe :
    ∃ t, execute (step runningOs) (start ()) [.group true onePipe smooth, .handler] = some t ∧
      (((∀ c ∈ t.shell.calls, Proper c) ∧ ∀ job ∈ t.shell.table, RecordsPositive job) ↔
        ∀ e ∈ [Event.group true onePipe smooth, .handler], ¬e.ForkFails) :=
  ⟨_,rfl,failed_forks_contained_iff rfl⟩

/-- The fork for the first stage fails. -/
def firstForkFails : Answers :=
  { smooth with fork := fun i => if i = 0 then none else smooth.fork i }

/-- Every process keeps running, and `/proc` has no entry for -1. -/
def noEntryOs : Os Unit :=
  { runningOs with procStat := fun _ pid => (if pid = minusOne then .missing else .state 'S',()) }

/-- The first stage of `a | b &` cannot be forked. The table then records -1 as
the group of the job, and `bg` signals process 1 in its place. -/
theorem failed_fork_reaches_init :
    ∃ t, execute (step noEntryOs) (start ())
        [.group true onePipe firstForkFails, .resumeBg 1] = some t ∧
      .kill 1 ∈ t.shell.calls ∧ .setpgid minusOne minusOne ∈ t.shell.calls ∧
      ∃ job ∈ t.shell.table, job.active = true ∧ job.pgid = minusOne := by
  have h : ((execute (step noEntryOs) (start ())
      [.group true onePipe firstForkFails, .resumeBg 1]).map fun t =>
        decide (.kill 1 ∈ t.shell.calls ∧ .setpgid minusOne minusOne ∈ t.shell.calls ∧
          ∃ job ∈ t.shell.table, job.active = true ∧ job.pgid = minusOne)) = some true := by
    decide +kernel
  obtain ⟨t,ht,hdec⟩ := Option.map_eq_some_iff.mp h
  exact ⟨t,ht,of_decide_eq_true hdec⟩

end CShellXv6.Commands
