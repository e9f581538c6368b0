import CShellXv6.Shell.Completion

/-! # Calls on the table

What one call keeps of the knowledge about the children, and how a slot is given
up. The exception is a `jobs_resume_fg` that reaps the leader of its job and
then leaves because the job was stopped: nobody is told of that exit.
-/
namespace CShellXv6.Jobs
open Process Sweep

/-- What a call on the table keeps. -/
structure Kept (table : List Job) (u : Unix) (table' : List Job) (v : Unix) : Prop where
  ok : TableOk True [] table' v
  recorded : ∀ pid, Recorded table' pid → Recorded table pid
  later : Later (Recorded table) u v

theorem TableOk.swept {keeps : Prop} {f : Job → Unix → Job × Unix} (hf : Tracks keeps f)
    {table : List Job} {u : Unix} (h : TableOk keeps [] table u) :
    Kept table u (Sweep.sweep f table u).1 (Sweep.sweep f table u).2 :=
  ⟨h.sweep hf,fun _ hpid => hpid.of_cellwise (sweep_cellwise hf.same table u),
    hf.sweep_later table u⟩

theorem Kept.cellwise {table table' table'' : List Job} {u v : Unix} (h : Kept table u table' v)
    (hcell : Cellwise (fun job job' => SameJob job job' ∧
      (Covered True [] job v → Covered True [] job' v)) table' table'') : Kept table u table'' v := by
  refine ⟨h.ok.cellwise hcell,fun pid hpid => h.recorded pid (hpid.of_cellwise ?_),h.later⟩
  intro i job' hjob'
  obtain ⟨job,hjob,hsame,_⟩ := hcell i job' hjob'
  exact ⟨job,hjob,hsame⟩

theorem TableOk.mono {keeps keeps' : Prop} {reaped : List ℕ} {table : List Job} {u : Unix}
    (h : TableOk keeps reaped table u) (hk : keeps' → keeps) : TableOk keeps' reaped table u := by
  refine ⟨fun job hjob hact => ?_,h.compatible⟩
  obtain ⟨hlead,hwatched,hall⟩ := h.covered job hjob hact
  exact ⟨hlead,hwatched,fun p hp => ⟨(hall p hp).1,fun h' => (hall p hp).2 (hk h')⟩⟩

theorem Covered.inactive {keeps : Prop} {reaped : List ℕ} {job : Job} {u : Unix}
    (h : job.active = false) : Covered keeps reaped job u :=
  fun hact => absurd (hact.symm.trans h) (by decide)

theorem Job.complete_same (job : Job) (u : Unix) : SameJob job job.complete ∧
    (Covered True [] job u → Covered True [] job.complete u) := by
  unfold Job.complete
  split
  · exact ⟨⟨rfl,rfl,fun h => by cases h⟩,fun _ => Covered.inactive rfl⟩
  · exact ⟨SameJob.refl job,id⟩

/-- What has been reaped need not be remembered when it is no leader. -/
theorem Covered.forget {reaped : List ℕ} {job : Job} {u : Unix} (h : Covered True reaped job u)
    (hn : job.active = true → job.pgid ∉ reaped) : Covered True [] job u := by
  intro hact
  obtain ⟨hlead,hwatched,hall⟩ := h hact
  have hset : (job.leader reaped).Settled → (job.leader []).Settled :=
    Or.imp id (fun hmem => absurd hmem (hn hact))
  exact ⟨hlead,hwatched.imp hset id,
    fun p hp => ⟨(hall p hp).1,fun _ => ((hall p hp).2 trivial).imp hset id⟩⟩

/-- Leaving the wait with a change `g` of its slot. -/
theorem WaitOk.leave {table : List Job} {u : Unix} {i pgid : ℕ} {w : Waiting Unix}
    (h : WaitOk (Recorded table) u i pgid w) {g : Job → Job} (hg : ∀ job, SameJob job (g job))
    (hslot : ∀ job, job.pgid = pgid → Covered True w.reaped job w.env →
      Covered True [] (g job) w.env) :
    Kept table u (w.table.modify i g) w.env := by
  obtain ⟨job0,hjob0,hact0,hpgid,hreaped⟩ := h.slot
  have hcell : Cellwise SameJob w.table (w.table.modify i g) :=
    Cellwise.modify w.table i SameJob.refl (fun job _ => hg job)
  refine ⟨⟨fun job' hjob' => ?_,?_⟩,fun pid hpid => h.recorded pid (hpid.of_cellwise hcell),h.later⟩
  · obtain ⟨j,hget⟩ := List.mem_iff_getElem?.mp hjob'
    rw [List.getElem?_modify] at hget
    obtain ⟨job,hjob,rfl⟩ := Option.map_eq_some_iff.mp hget
    have hcov := h.table.covered job (List.mem_of_getElem? hjob)
    by_cases hij : i = j
    · subst hij
      rw [hjob0] at hjob
      cases hjob
      simp only [↓reduceIte]
      exact hslot job0 hpgid hcov
    · simp only [hij, ↓reduceIte]
      refine hcov.forget (fun hact hmem => ?_)
      exact h.table.compatible_at hij hjob0 hjob hact0 hact job.pgid (hreaped _ hmem) (hcov hact).1
  · exact hcell.pairwise (fun _ _ _ _ ha hb => ha.compatible hb) h.table.compatible

theorem WaitOk.finish {table : List Job} {u : Unix} {i pgid : ℕ} {w : Waiting Unix}
    (h : WaitOk (Recorded table) u i pgid w) {outcome : Outcome}
    (hg : outcome = .stopped → pgid ∉ w.reaped) :
    Kept table u (finishFg i w outcome).1 w.env := by
  have hleave : Kept table u (w.table.modify i Job.leave) w.env :=
    h.leave (fun job => ⟨rfl,rfl,fun hact => by cases hact⟩) (fun _ _ _ => Covered.inactive rfl)
  cases outcome with
  | timedOut => exact hleave
  | stopped =>
    refine h.leave (fun job => ⟨rfl,rfl,id⟩) (fun job hpgid hcov => ?_)
    exact (hcov.forget (fun _ => hpgid ▸ hg rfl)).relabel ⟨rfl,rfl,id⟩ rfl
      (fun p hp => ⟨p,hp,rfl,id⟩)
  | done => exact hleave

/-- Its slot is given up after a timeout or with all its processes dead. -/
theorem WaitOk.finish_dead {who : ℕ → Prop} {u : Unix} {i pgid : ℕ} {w : Waiting Unix}
    (h : WaitOk who u i pgid w) {outcome last : Outcome}
    (hdone : outcome = .done → ∀ job, w.table[i]? = some job → job.AllExited)
    (hlast : last = .timedOut ∨ last = outcome) {job' : Job}
    (hjob' : (finishFg i w last).1[i]? = some job') (hgone : job'.active = false) :
    .timedOut ∈ (finishFg i w last).2 ∨ ∀ p ∈ job'.procs, (w.env.children p.pid).dead = true := by
  obtain ⟨job,hjob,hact,_⟩ := h.slot
  cases last with
  | timedOut => exact Or.inl (List.mem_singleton_self _)
  | stopped =>
    simp only [finishFg, List.getElem?_modify, hjob, ↓reduceIte, Option.map_eq_map,
      Option.map_some, Option.some.injEq] at hjob'
    rw [← hjob', hact] at hgone
    cases hgone
  | done =>
    simp only [finishFg, List.getElem?_modify, hjob, ↓reduceIte, Option.map_eq_map,
      Option.map_some, Option.some.injEq] at hjob'
    rw [← hjob']
    refine Or.inr (fun p hp => ?_)
    have hall := hdone ((hlast.resolve_left (by simp)).symm) job hjob
    exact ((h.table.covered job (List.mem_of_getElem? hjob) hact).2.2 p hp).1 (hall p hp)

/-- The wait of `jobs_resume_fg` is for the active job with the given number. -/
theorem resumeFg_wait {table : List Job} {u : Unix} (hok : TableOk True [] table u)
    (hsound : ∀ job ∈ table, job.Sound) {jobId i : ℕ} {timeout : Bool} {pauses : List Pause}
    {outcome : Outcome} {w : Waiting Unix}
    (hfind : findJob jobId (jobsRefreshStates unixOs table u).1 = some i)
    (hrun : resumeLoop unixOs i timeout pauses
      ⟨(jobsRefreshStates unixOs table u).1.modify i Job.continueAll,
        (jobsRefreshStates unixOs table u).2,[]⟩ = some (outcome,w)) :
    ∃ job, table[i]? = some job ∧ job.active = true ∧ job.jobId = jobId ∧
      WaitOk (Recorded table) u i job.pgid w := by
  have hkept : Kept table u (jobsRefreshStates unixOs table u).1
      (jobsRefreshStates unixOs table u).2 := hok.swept refreshJob_tracks
  obtain ⟨hlt,hfound,_⟩ := List.findIdx?_eq_some_iff_getElem.mp hfind
  simp only [Bool.and_eq_true, beq_iff_eq] at hfound
  have hget := List.getElem?_eq_getElem hlt
  obtain ⟨job,hjob,hstays⟩ := jobsRefreshStates_stays unixOs table u i _ hget
  have hsame := (sweep_cellwise refreshJob_tracks.same table u).get hjob hget
  obtain ⟨_,hactive,hid⟩ := hstays (hsound job (List.mem_of_getElem? hjob))
  refine ⟨job,hjob,hactive ▸ hfound.1.1,hid ▸ hfound.1.2,WaitOk.resumeLoop ?_ hrun⟩
  have hcont := hkept.cellwise (Cellwise.modify _ i (fun job => ⟨SameJob.refl job,id⟩)
    (fun job _ => ⟨job.continueAll_same,Covered.continueAll⟩))
  refine ⟨hcont.ok,⟨Job.continueAll _,?_,hfound.1.1,hsame.pgid,by simp⟩,hcont.recorded,hcont.later⟩
  rw [List.getElem?_modify, hget]
  simp

def Line.isStopped : Line → Bool
  | .stopped _ _ => true
  | _ => false

/-- The call is a `jobs_resume_fg` that reaps the leader of the job itself and
then leaves because a process of the job was stopped. -/
def reapsLeader (shell : Shell Unix) : Event → Bool
  | .resumeFg jobId timeoutSeconds pauses late =>
    match jobsResumeFg unixOs jobId timeoutSeconds pauses late shell.table shell.env with
    | some r => r.2.2.1.any Line.isStopped &&
        shell.table.any (fun job => job.active && job.jobId == jobId && r.2.2.2.contains job.pgid)
    | none => false
  | _ => false

def Event.adds : Event → Bool
  | .addPipeline _ _ _ => true
  | .addStopped _ _ _ => true
  | _ => false

section Call
variable {shell shell' : Shell Unix} {e : Event}

theorem step_kept (hi : Invariant shell) (hok : TableOk (e ≠ .handler) [] shell.table shell.env)
    (hadds : e.adds = false) (hreaps : reapsLeader shell e = false)
    (hstep : step unixOs shell e = some shell') :
    Kept shell.table shell.env shell'.table shell'.env := by
  have hrefresh : e ≠ .handler → Kept shell.table shell.env
      (jobsRefreshStates unixOs shell.table shell.env).1
      (jobsRefreshStates unixOs shell.table shell.env).2 :=
    fun he => (hok.mono (fun _ => he)).swept refreshJob_tracks
  cases e with
  | addPipeline pgid procs fullCmd => cases hadds
  | addStopped pgid procs fullCmd => cases hadds
  | handler =>
    cases hstep
    exact (hok.mono (fun h => h.elim)).swept handlerJob_tracks
  | refresh =>
    cases hstep
    exact hrefresh (by simp)
  | checkCompleted =>
    cases hstep
    exact (hrefresh (by simp)).cellwise (Cellwise.map (fun job => job.complete_same _) _)
  | resumeBg jobId =>
    cases hstep
    rcases jobsResumeBg_cases unixOs jobId shell.table shell.env with heq | ⟨i,out,_,heq⟩
    · rw [heq]
      exact hrefresh (by simp)
    · rw [heq]
      exact (hrefresh (by simp)).cellwise (Cellwise.modify _ i (fun job => ⟨SameJob.refl job,id⟩)
        (fun job _ => ⟨job.continueAll_same,Covered.continueAll⟩))
  | resumeFg jobId timeoutSeconds pauses late =>
    obtain ⟨r,hr,rfl⟩ := Option.map_eq_some_iff.mp hstep
    rcases jobsResumeFg_cases unixOs hr with rfl | ⟨i,outcome,last,w,shown,hfind,hloop,_,rfl⟩
    · exact hrefresh (by simp)
    · obtain ⟨job,hjob,hact,hid,hwait⟩ := resumeFg_wait (hok.mono (fun _ => by simp))
        (fun job hjob => (hi job hjob).1) hfind hloop
      refine hwait.finish (fun hlast hmem => ?_)
      obtain ⟨job',hjob',_⟩ := hwait.slot
      have hline : (shown.map Line.command ++ (finishFg i w last).2).any Line.isStopped = true := by
        simp [hlast,finishFg,hjob',Line.isStopped]
      have hslot : shell.table.any
          (fun job => job.active && job.jobId == jobId && w.reaped.contains job.pgid) = true := by
        refine List.any_eq_true.mpr ⟨job,List.mem_of_getElem? hjob,?_⟩
        simp [hact,hid,hmem]
      simp only [reapsLeader, hr, hline, hslot, Bool.and_self] at hreaps
      cases hreaps

theorem Stays.not_gone {job job' : Job} (h : Stays job job') (hs : job.Sound)
    (hact : job.active = true) : job'.active ≠ false := by
  rw [(h hs).2.1, hact]
  decide

theorem Joins.not_gone {new job job' : Job} (h : Joins new job job') (hact : job.active = true) :
    job'.active ≠ false := by
  rcases h with rfl | ⟨hfree,_⟩
  · rw [hact]
    decide
  · rw [hact] at hfree
    cases hfree

/-- `jobs_check_completed` gives up a slot only with its line. -/
theorem jobsCheckCompleted_line {table : List Job} {u : Unix} {i : ℕ} {job job' : Job}
    (hjob : table[i]? = some job) (hsound : job.Sound)
    (hjob' : (jobsCheckCompleted unixOs table u).1[i]? = some job')
    (hact : job.active = true) (hgone : job'.active = false) :
    job'.line ∈ (jobsCheckCompleted unixOs table u).2.2 := by
  simp only [jobsCheckCompleted, List.getElem?_map] at hjob'
  obtain ⟨job1,hjob1,rfl⟩ := Option.map_eq_some_iff.mp hjob'
  by_cases hc : job1.completed = true
  · refine List.mem_map.mpr ⟨job1,List.mem_filter.mpr ⟨List.mem_of_getElem? hjob1,hc⟩,?_⟩
    simp [Job.complete,hc,Job.line]
  · rw [Job.complete, if_neg hc] at hgone
    have hstays := (jobsRefreshStates_stays unixOs table u).get hjob hjob1
    exact absurd hgone (hstays.not_gone hsound hact)

/-- A slot is given up with its line printed, or by `jobs_resume_fg` on that
job, which timed out or has seen all its processes end. -/
theorem step_leaves (hi : Invariant shell) (hok : TableOk (e ≠ .handler) [] shell.table shell.env)
    (hstep : step unixOs shell e = some shell') {i : ℕ} {job job' : Job}
    (hjob : shell.table[i]? = some job) (hjob' : shell'.table[i]? = some job')
    (hact : job.active = true) (hgone : job'.active = false) :
    (e = .checkCompleted ∧ job'.line ∈ shell'.out) ∨ ∃ timeoutSeconds pauses late,
      e = .resumeFg job.jobId timeoutSeconds pauses late ∧
      (.timedOut ∈ shell'.out ∨ ∀ p ∈ job'.procs, (shell'.env.children p.pid).dead = true) := by
  have hsound := (hi job (List.mem_of_getElem? hjob)).1
  have hstays : ∀ {l : List Job}, l[i]? = some job' → ¬Cellwise Stays shell.table l :=
    fun hget hcell => (hcell.get hjob hget).not_gone hsound hact hgone
  have hjoins : ∀ new, ¬Cellwise (Joins new) shell.table shell'.table :=
    fun _ hcell => (hcell.get hjob hjob').not_gone hact hgone
  cases e with
  | addPipeline pgid procs fullCmd =>
    cases hstep
    exact absurd (modifyFirst_joins _ _) (hjoins _)
  | addStopped pgid procs fullCmd =>
    cases hstep
    exact absurd (jobsAddStopped_joins hi) (hjoins _)
  | handler =>
    cases hstep
    exact absurd (sigchldHandler_stays unixOs _ _) (hstays hjob')
  | refresh =>
    cases hstep
    exact absurd (jobsRefreshStates_stays unixOs _ _) (hstays hjob')
  | checkCompleted =>
    cases hstep
    exact Or.inl ⟨rfl,jobsCheckCompleted_line hjob hsound hjob' hact hgone⟩
  | resumeBg jobId =>
    cases hstep
    exact absurd (jobsResumeBg_stays jobId _ _) (hstays hjob')
  | resumeFg jobId timeoutSeconds pauses late =>
    obtain ⟨r,hr,rfl⟩ := Option.map_eq_some_iff.mp hstep
    rcases jobsResumeFg_cases unixOs hr with rfl | ⟨i0,outcome,last,w,shown,hfind,hloop,hlast,rfl⟩
    · exact absurd (jobsRefreshStates_stays unixOs _ _) (hstays hjob')
    obtain ⟨job0,hjob0,_,hid,hwait⟩ := resumeFg_wait (hok.mono (fun _ => by simp))
      (fun job hjob => (hi job hjob).1) hfind hloop
    by_cases hslot : i0 = i
    · subst hslot
      rw [hjob] at hjob0
      cases hjob0
      refine Or.inr ⟨timeoutSeconds,pauses,late,by rw [hid],?_⟩
      exact (hwait.finish_dead (resumeLoop_spec unixOs hloop).2 hlast hjob' hgone).imp
        (List.mem_append_right _) id
    · have hother : (finishFg i0 w last).1[i]? = w.table[i]? := by
        cases last <;> simp [finishFg,hslot]
      exact absurd (resumeLoop_stays unixOs hloop) (hstays (hother.symm.trans hjob'))

end Call

end CShellXv6.Jobs
