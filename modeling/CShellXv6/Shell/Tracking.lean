import CShellXv6.Shell.Commands
import CShellXv6.Shell.Limits
import CShellXv6.Shell.Session

/-! # Announced jobs in the table

A job that the shell announces, as started in the background or as stopped, is
recorded in the first free slot with the first 64 of its processes.
-/
namespace CShellXv6.Jobs
open Lexer Sweep

theorem mem_modifyFirst_new {p : Job → Bool} {new : Job} {table : List Job}
    (h : ∃ job ∈ table, p job = true) : new ∈ modifyFirst p (fun _ => new) table := by
  obtain ⟨job,hjob,hp⟩ := h
  induction table with
  | nil => cases hjob
  | cons first rest ih =>
    rw [modifyFirst]
    split
    · exact List.mem_cons_self
    · next hfirst =>
      rcases List.mem_cons.mp hjob with rfl | hjob
      · exact absurd hp hfirst
      · exact List.mem_cons_of_mem _ (ih hjob)

theorem Invariant.mono {σ : Type*} {s t : Shell σ} (h : Invariant s) (htable : t.table = s.table)
    (hnext : s.nextJobId ≤ t.nextJobId) : Invariant t := by
  intro job hjob
  rw [htable] at hjob
  obtain ⟨hsound,hid⟩ := h job hjob
  exact ⟨hsound,fun hact => (hid hact).trans_le hnext⟩

theorem findJob_spec {jobId i : ℕ} {table : List Job} (h : findJob jobId table = some i) :
    ∃ job, table[i]? = some job ∧ job.active = true ∧ job.jobId = jobId ∧ job.alive = true := by
  obtain ⟨hi,hcond,_⟩ := List.findIdx?_eq_some_iff_getElem.mp h
  simp only [Bool.and_eq_true, beq_iff_eq] at hcond
  exact ⟨_,List.getElem?_eq_getElem hi,hcond.1.1,hcond.1.2,hcond.2⟩

section Os
variable {σ : Type*} {os : Os σ}

theorem sound_cellwise {table table' : List Job} (h : ∀ job ∈ table, job.Sound)
    (hc : Cellwise Stays table table') : ∀ job ∈ table', job.Sound := by
  intro job' hjob'
  obtain ⟨i,hget⟩ := List.mem_iff_getElem?.mp hjob'
  obtain ⟨job,hjob,hstays⟩ := hc i job' hget
  exact (hstays (h job (List.mem_of_getElem? hjob))).1

/-- The job that `jobs_resume_fg` waits for is still active when its loop ends. -/
theorem resumeLoop_active {table : List Job} (hsound : ∀ job ∈ table, job.Sound) {jobId i : ℕ}
    (hfind : findJob jobId table = some i) {env : σ} {timeout : Bool} {pauses : List Pause}
    {outcome : Outcome} {w : Waiting σ}
    (hloop : resumeLoop os i timeout pauses ⟨table.modify i Job.continueAll,env,[]⟩ =
      some (outcome,w)) {job' : Job} (hjob' : w.table[i]? = some job') : job'.active = true := by
  obtain ⟨job,hget,hact,_⟩ := findJob_spec hfind
  have hstays := (Cellwise.modify _ i Stays.refl (fun job _ => job.continueAll_stays)).trans
    (resumeLoop_spec os hloop).1 (fun _ _ _ => Stays.trans)
  have hact' := ((hstays.get hget hjob') (hsound job (List.mem_of_getElem? hget))).2.1
  exact hact'.trans hact

/-- A job that is announced as stopped is in the table and active. -/
theorem step_stopped {s t : Shell σ} {e : Event} (hi : Invariant s) (h : step os s e = some t)
    {jobId : ℕ} {cmd : CString} (hline : .stopped jobId cmd ∈ t.out) :
    ∃ job ∈ t.table, job.active = true ∧ job.jobId = jobId := by
  cases e with
  | addPipeline pgid procs fullCmd =>
    cases h
    cases hline
  | addStopped pgid procs fullCmd =>
    cases h
    cases hline
  | handler =>
    cases h
    cases hline
  | refresh =>
    cases h
    cases hline
  | checkCompleted =>
    cases h
    obtain ⟨job,_,hjob⟩ := List.mem_map.mp hline
    cases hjob
  | resumeBg jobId =>
    cases h
    unfold jobsResumeBg at hline
    dsimp only at hline
    split at hline
    · cases List.mem_singleton.mp hline
    · simp at hline
  | resumeFg jobId timeoutSeconds pauses late =>
    obtain ⟨r,hr,rfl⟩ := Option.map_eq_some_iff.mp h
    rcases jobsResumeFg_cases os hr with rfl | ⟨i,outcome,last,w,shown,hfind,hloop,_,rfl⟩
    · cases List.mem_singleton.mp hline
    · have hsound := sound_cellwise (fun job hjob => (hi job hjob).1)
        (jobsRefreshStates_stays os s.table s.env)
      rcases List.mem_append.mp hline with hline | hline
      · obtain ⟨_,_,hcmd⟩ := List.mem_map.mp hline
        cases hcmd
      · cases last with
        | timedOut => cases List.mem_singleton.mp hline
        | done => cases hline
        | stopped =>
          simp only [finishFg, Option.mem_toList, Option.map_eq_some_iff] at hline
          obtain ⟨job',hjob',heq⟩ := hline
          cases heq
          have hact : job'.active = true := resumeLoop_active hsound hfind hloop hjob'
          refine ⟨{ job' with isStopped := true },List.mem_of_getElem? (i := i) ?_,hact,rfl⟩
          simp [finishFg,hjob']

end Os

end CShellXv6.Jobs

namespace CShellXv6.Commands
open Lexer Launch Jobs Transition Sweep

/-! ## Recorded processes -/

theorem procsOf_fst {forks : List (Option Pid)} {names : List CString}
    (h : names.length = forks.length) :
    ((procsOf forks names).take maxPidsPerJob).map Prod.fst =
      (forks.take maxPidsPerJob).map pidOf := by
  rw [List.map_take, procsOf, List.map_fst_zip (by rw [List.length_map, h]), ← List.map_take]

/-- The table of a running shell: numbers are given out upwards, and an active
slot has the first 64 processes that were forked for its job. -/
structure Tracked {σ : Type*} (s : System σ) : Prop where
  sound : Invariant s.jobs
  pids : ∀ job ∈ s.shell.table, job.active = true →
    job.pids = ((s.shell.forked job.jobId).take maxPidsPerJob).map pidOf

section
variable {σ : Type*} {os : Os σ} {s t : System σ}

theorem Tracked.called (hs : Tracked s) {e : Jobs.Event} {r : Jobs.Shell (σ × List Call)}
    (hadds : e.adds = false) (h : Jobs.step (logged os) s.jobs e = some r) (cs : List Call) :
    Tracked (s.after r cs) := by
  refine ⟨(step_spec hs.sound h).1.mono rfl le_rfl,fun job' hjob' hact' => ?_⟩
  obtain ⟨i,hget⟩ := List.mem_iff_getElem?.mp hjob'
  obtain ⟨job,hjob,hp⟩ := step_persists hadds h i job' hget
  rw [hp.pids, hp.jobId]
  exact hs.pids job (List.mem_of_getElem? hjob) (hp.active hact')

/-- A new number does not change what belongs to the old ones. -/
theorem Tracked.join (hs : Tracked s) {new : Job} {forks : List (Option Pid)}
    (hid : new.jobId = s.shell.nextJobId)
    (hpids : new.pids = (forks.take maxPidsPerJob).map pidOf) :
    ∀ job ∈ modifyFirst (fun job => !job.active) (fun _ => new) s.shell.table, job.active = true →
      job.pids = ((Function.update s.shell.forked s.shell.nextJobId forks job.jobId).take
        maxPidsPerJob).map pidOf := by
  intro job hjob hact
  rcases mem_modifyFirst hjob with hjob | rfl
  · have hlt : job.jobId < s.shell.nextJobId := (hs.sound job hjob).2 hact
    rw [Function.update_of_ne (Nat.ne_of_lt hlt)]
    exact hs.pids job hjob hact
  · rw [hid, Function.update_self]
    exact hpids

/-- The stopped job joins in the first free slot too. -/
theorem Tracked.addStopped_eq (hs : Tracked s) (pgid : ℕ) (procs : List (ℕ × CString))
    (cmd : CString) :
    jobsAddStopped s.shell.nextJobId pgid procs cmd s.shell.table =
      modifyFirst (fun job => !job.active)
        (fun _ => (newJob s.shell.nextJobId pgid procs cmd).stopAll) s.shell.table :=
  jobsAddStopped_eq (fun job hjob hact => Nat.ne_of_lt ((hs.sound job hjob).2 hact))

/-- What a launch leaves of the table: it is as before and nothing is announced,
or one job has joined, under a new number and with the forked processes. -/
theorem launch_table (hs : Tracked s) (background : Bool) (list : TokenList) (a : Answers) :
    ((s.launch background list a).state.table = s.shell.table ∧
      (s.launch background list a).state.forked = s.shell.forked ∧
      s.shell.nextJobId ≤ (s.launch background list a).state.nextJobId ∧
      ∀ ok, (s.launch background list a).exit = .returned ok →
        ∀ line ∈ (s.launch background list a).state.out, line.announced = none) ∨
    ∃ new forks, new.Sound ∧ new.active = true ∧ new.jobId = s.shell.nextJobId ∧
      new.pids = (forks.take maxPidsPerJob).map pidOf ∧
      (forks ≠ [] ∧ new.pgid = pgidOf forks ∧ (none ∈ forks ↔ ForkFails a background list)) ∧
      (s.launch background list a).state.table =
        modifyFirst (fun job => !job.active) (fun _ => new) s.shell.table ∧
      (s.launch background list a).state.forked =
        Function.update s.shell.forked s.shell.nextJobId forks ∧
      (s.launch background list a).state.nextJobId = s.shell.nextJobId + 1 ∧
      ∀ line ∈ (s.launch background list a).state.out,
        line.announced = none ∨ line.announced = some s.shell.nextJobId := by
  obtain ⟨forks,u,heffect,hfails,rfl⟩ := launch_effect s background list a
  rcases heffect.record with ⟨htable,hnext,hforked,hout⟩ |
    ⟨jobId,names,cmd,hjob,hne,hlen,htable,hnext,hforked,hout⟩ |
    ⟨names,cmd,hjob,hne,hlen,htable,hnext,hforked,hout⟩
  · refine Or.inl ⟨htable,hforked,?_,fun ok hok line hline => ?_⟩
    · rw [hnext]
      cases background <;> simp
    · exact (hout ok hok line hline).resolve_left (by simp)
  · cases background with
    | false => cases hjob
    | true =>
      cases hjob
      refine Or.inr ⟨newJob s.shell.nextJobId (pgidOf forks) (procsOf forks names) cmd,forks,
        (newJob_sound _ _ _ _).1,rfl,rfl,newJob_pids.1.trans (procsOf_fst hlen),⟨hne,rfl,hfails⟩,
        htable,hforked,hnext,fun line hline => ?_⟩
      exact (hout line hline).resolve_left (by simp)
  · cases background with
    | true => cases hjob
    | false =>
      refine Or.inr ⟨(newJob s.shell.nextJobId (pgidOf forks) (procsOf forks names) cmd).stopAll,
        forks,(newJob_sound _ _ _ _).2,rfl,rfl,newJob_pids.2.trans (procsOf_fst hlen),
        ⟨hne,rfl,hfails⟩,htable.trans (hs.addStopped_eq _ _ _),hforked,hnext,fun line hline => ?_⟩
      exact (hout line hline).resolve_left (by simp)

theorem Tracked.launched (hs : Tracked s) (background : Bool) (list : TokenList) (a : Answers)
    (live : Bool) :
    Tracked { s with shell := (s.launch background list a).state, live := live } := by
  rcases launch_table hs background list a with ⟨htable,hforked,hnext,_⟩ |
    ⟨new,forks,hsound,_,hid,hpids,_,htable,hforked,hnext,_⟩
  · refine ⟨hs.sound.mono htable hnext,fun job hjob hact => ?_⟩
    rw [htable] at hjob
    rw [hforked]
    exact hs.pids job hjob hact
  · have hjoin := hs.join hid hpids
    refine ⟨fun job hjob => ?_,fun job hjob hact => ?_⟩
    · change job ∈ (s.launch background list a).state.table at hjob
      rw [htable] at hjob
      change job.Sound ∧
        (job.active = true → job.jobId < (s.launch background list a).state.nextJobId)
      rw [hnext]
      rcases mem_modifyFirst hjob with hjob | rfl
      · obtain ⟨hs',hlt⟩ := hs.sound job hjob
        exact ⟨hs',fun hact => (hlt hact).trans (Nat.lt_succ_self _)⟩
      · exact ⟨hsound,fun _ => by omega⟩
    · rw [htable] at hjob
      rw [hforked]
      exact hjoin job hjob hact

theorem Tracked.step {e : Event} (hs : Tracked s) (h : step os s e = some t) : Tracked t := by
  rcases step_cases h with ⟨background,list,a,_,_,rfl⟩ | ⟨_,r,cs,hadds,hr,_,rfl⟩ | ⟨cs,_,rfl⟩
  · exact hs.launched background list a _
  · exact hs.called hadds hr cs
  · exact ⟨hs.sound.mono rfl le_rfl,hs.pids⟩

theorem start_tracked (env : σ) : Tracked (start env) := by
  have hempty : ∀ job ∈ (start env).shell.table, job = emptyJob := fun job hjob =>
    List.eq_of_mem_replicate hjob
  refine ⟨fun job hjob => ?_,fun job hjob hact => ?_⟩
  · rw [hempty job hjob]
    exact ⟨fun hact => absurd hact Bool.false_ne_true,fun hact => absurd hact Bool.false_ne_true⟩
  · rw [hempty job hjob] at hact
    cases hact

theorem reachable_tracked {env : σ} (h : Reachable (step os) (start env) s) : Tracked s :=
  h.invariant (start_tracked env) (fun _ _ _ hs _ he => hs.step he)

/-! ## Every announcement -/

/-- In every run a job that is announced, as started in the background or as
stopped, is in the table right after that, active, under its number and with the
processes of its first 64 stages in order. A launch needs a free slot for this;
a job that is stopped again after it was resumed has one. -/
theorem announced_job_tracked {env : σ} {e : Event}
    (hs : Reachable (Commands.step os) (start env) s)
    (he : Commands.step os s e = some t) (hlive : t.live = true)
    (hfree : ∀ background list a, e = .group background list a →
      ∃ job ∈ s.shell.table, job.active = false)
    {line : Launch.Line} (hline : line ∈ t.shell.out) {jobId : ℕ}
    (hann : line.announced = some jobId) :
    ∃ job ∈ t.shell.table, job.active = true ∧ job.jobId = jobId ∧
      job.pids = ((t.shell.forked jobId).take maxPidsPerJob).map pidOf := by
  have htracked := reachable_tracked hs
  suffices hjob : ∃ job ∈ t.shell.table, job.active = true ∧ job.jobId = jobId by
    obtain ⟨job,hmem,hact,hid⟩ := hjob
    exact ⟨job,hmem,hact,hid,hid ▸ (htracked.step he).pids job hmem hact⟩
  rcases step_cases he with ⟨background,list,a,heq,_,rfl⟩ | ⟨_,r,cs,_,hr,_,rfl⟩ | ⟨cs,_,rfl⟩
  · obtain ⟨free,hmem,hinactive⟩ := hfree background list a heq
    rcases launch_table htracked background list a with ⟨_,_,_,hquiet⟩ |
      ⟨new,forks,_,hact,hid,_,_,htable,_,_,hout⟩
    · have hexit : ∃ ok, (s.launch background list a).exit = .returned ok := by
        cases hexit : (s.launch background list a).exit with
        | returned ok => exact ⟨ok,rfl⟩
        | killed =>
          rw [hexit] at hlive
          cases hlive
        | undefined =>
          rw [hexit] at hlive
          cases hlive
      obtain ⟨ok,hok⟩ := hexit
      rw [hquiet ok hok line hline] at hann
      cases hann
    · refine ⟨new,?_,hact,?_⟩
      · rw [htable]
        exact mem_modifyFirst_new ⟨free,hmem,by simp [hinactive]⟩
      · rcases hout line hline with hnone | hsome
        · rw [hnone] at hann
          cases hann
        · rw [hsome] at hann
          cases hann
          exact hid
  · obtain ⟨l,hl,rfl⟩ := List.mem_map.mp hline
    cases l with
    | stopped id cmd =>
      cases hann
      exact step_stopped htracked.sound hr hl
    | _ => cases hann
  · cases hline

end

/-- The first command is `a | b &`. -/
def firstJob : System Unit :=
  { start () with shell := ((start ()).launch true onePipe smooth).state }

theorem announced_job_tracked_firstJob :
    step runningOs (start ()) (.group true onePipe smooth) = some firstJob ∧
    .started 1 100 ∈ firstJob.shell.out ∧
    ∃ job ∈ firstJob.shell.table, job.active = true ∧ job.jobId = 1 ∧
      job.pids = ((firstJob.shell.forked 1).take maxPidsPerJob).map pidOf := by
  have hstep : step runningOs (start ()) (.group true onePipe smooth) = some firstJob := rfl
  have hline : .started 1 100 ∈ firstJob.shell.out := by decide
  have hfree : ∀ background list a, Event.group true onePipe smooth = .group background list a →
      ∃ job ∈ (start ()).shell.table, job.active = false := fun _ _ _ _ =>
    ⟨emptyJob,List.mem_replicate.mpr ⟨by decide,rfl⟩,rfl⟩
  exact ⟨hstep,hline,announced_job_tracked (.refl _) hstep rfl hfree hline rfl⟩

/-- A pipeline of 65 stages. -/
def longPipeline : TokenList := Executor.chainTokens .opPipe 64

/-- The job is announced with 65 processes, and the last of them is in no slot of
the table. -/
theorem long_pipeline_untracked :
    ∃ t, step runningOs (start ()) (.group true longPipeline smooth) = some t ∧ t.live = true ∧
      .started 1 100 ∈ t.shell.out ∧ 164 ∈ (t.shell.forked 1).map pidOf ∧
      ∀ job ∈ t.shell.table, 164 ∉ job.pids := by
  have h : ((step runningOs (start ()) (.group true longPipeline smooth)).map fun t =>
      decide (t.live = true ∧ .started 1 100 ∈ t.shell.out ∧
        164 ∈ (t.shell.forked 1).map pidOf ∧ ∀ job ∈ t.shell.table, 164 ∉ job.pids)) =
          some true := by
    decide +kernel
  obtain ⟨t,ht,hdec⟩ := Option.map_eq_some_iff.mp h
  exact ⟨t,ht,of_decide_eq_true hdec⟩

end CShellXv6.Commands
