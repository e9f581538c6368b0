import CShellXv6.Shell.Leader

/-! # What the table knows about its children

An active job watches for the status of its leader and has no process in common
with another. Every sweep over the table and every pass of `jobs_resume_fg`
keeps this, and a refresh that finds all processes of a job dead leaves it ready
to be announced.
-/
namespace CShellXv6.Jobs
open Process Sweep

/-! ## Whole tables -/

/-- An active job records its leader, watches for its status and records exits
for a reason. -/
def Covered (keeps : Prop) (reaped : List ℕ) (job : Job) (u : Unix) : Prop :=
  job.active = true → job.pgid ∈ job.pids ∧ (job.leader reaped).Watched u ∧
    ∀ p ∈ job.procs, Honest u p ∧ (keeps → (job.leader reaped).Noted u p)

/-- Active jobs have no process in common. -/
def Compatible (a b : Job) : Prop :=
  a.active = true → b.active = true → ∀ pid ∈ a.pids, pid ∉ b.pids

theorem Compatible.symm {a b : Job} (h : Compatible a b) : Compatible b a :=
  fun hb ha pid hpid hpid' => h ha hb pid hpid' hpid

/-- The same processes, and active only if active before. -/
structure SameJob (job job' : Job) : Prop where
  pids : job'.pids = job.pids
  pgid : job'.pgid = job.pgid
  active : job'.active = true → job.active = true

theorem SameJob.refl (job : Job) : SameJob job job := ⟨rfl,rfl,id⟩

theorem SameJob.compatible {a a' b b' : Job} (ha : SameJob a a') (hb : SameJob b b')
    (h : Compatible a b) : Compatible a' b' := by
  intro ha' hb'
  rw [ha.pids, hb.pids]
  exact h (ha.active ha') (hb.active hb')

section Covered
variable {keeps : Prop} {reaped : List ℕ} {job : Job} {u v : Unix}

theorem Covered.later {who : ℕ → Prop} (h : Covered keeps reaped job u) (hl : Later who u v)
    (hw : job.active = true → ¬who job.pgid) : Covered keeps reaped job v := by
  intro hact
  obtain ⟨hlead,hwatched,hall⟩ := h hact
  refine ⟨hlead,hwatched.imp id (fun hne hgone => ?_),fun p hp => ?_⟩
  · rcases hl.reaped _ hgone with hgone | hwho
    · exact hne hgone
    · exact hw hact hwho
  · obtain ⟨hp,hnoted⟩ := hall p hp
    exact ⟨hp.later hl,fun hk => (hnoted hk).imp id (fun hst hs => hst (hl.sigchld hs))⟩

/-- Only the children of the job and, where exits may be passed over, the signal
matter. -/
theorem Covered.congr (h : Covered True reaped job u)
    (hc : job.active = true → ∀ pid ∈ job.pids, v.children pid = u.children pid)
    (hs : keeps → v.sigchld = false → u.sigchld = false) : Covered keeps reaped job v := by
  intro hact
  obtain ⟨hlead,hwatched,hall⟩ := h hact
  refine ⟨hlead,?_,fun p hp => ?_⟩
  · have hpgid : v.children (job.leader reaped).pgid = u.children (job.leader reaped).pgid :=
      hc hact job.pgid hlead
    rwa [Leader.Watched, hpgid]
  · obtain ⟨hhonest,hnoted⟩ := hall p hp
    refine ⟨?_,fun hk => (hnoted trivial).imp id (fun hst hs' => hst (hs hk hs'))⟩
    rwa [Honest, hc hact p.pid (List.mem_map_of_mem hp)]

/-- Processes may be relabelled, but not as exited. -/
theorem Covered.relabel {job' : Job} (h : Covered keeps reaped job u) (hsame : SameJob job job')
    (hf : job'.finished = job.finished)
    (hp : ∀ p' ∈ job'.procs, ∃ p ∈ job.procs, p'.pid = p.pid ∧
      (p'.state = .exited → p.state = .exited)) : Covered keeps reaped job' u := by
  have hleader : job'.leader reaped = job.leader reaped := by
    rw [Job.leader, Job.leader, hsame.pgid, hf]
  intro hact
  obtain ⟨hlead,hwatched,hall⟩ := h (hsame.active hact)
  rw [hsame.pids, hsame.pgid, hleader]
  refine ⟨hlead,hwatched,fun p' hp' => ?_⟩
  obtain ⟨p,hmem,hpid,hex⟩ := hp p' hp'
  obtain ⟨hhonest,hnoted⟩ := hall p hmem
  refine ⟨fun h' => hpid ▸ hhonest (hex h'),fun hk => (hnoted hk).imp id ?_⟩
  intro hst hs hlead' h'
  exact hst hs (hpid ▸ hlead') (hex h')

theorem Covered.visited {job' : Job} {reaped' : List ℕ}
    (hv : Visited keeps (job.leader reaped) (job'.leader reaped') u v job.procs job'.procs)
    (hact : job'.active = true → job.active = true) (h : Covered keeps reaped job u) :
    Covered True reaped' job' v := by
  intro hact'
  obtain ⟨hlead,hwatched,hall⟩ := h (hact hact')
  obtain ⟨hwatched',hall'⟩ := hv.covered hwatched hall
  refine ⟨?_,hwatched',fun p hp => ⟨(hall' p hp).1,fun _ => (hall' p hp).2⟩⟩
  have hpgid : job'.pgid = job.pgid := hv.pgid
  rw [hpgid, Job.pids, hv.pids]
  exact hlead

theorem Covered.weaken (h : Covered True reaped job u) : Covered keeps reaped job u :=
  h.congr (fun _ _ _ => rfl) (fun _ => id)

end Covered

/-- What a visit to one slot may do. -/
structure Tracks (keeps : Prop) (f : Job → Unix → Job × Unix) : Prop where
  same : ∀ job u, SameJob job (f job u).1
  later : ∀ job u, Later (fun pid => job.active = true ∧ pid ∈ job.pids) u (f job u).2
  covered : ∀ reaped job u, Covered keeps reaped job u → Covered True reaped (f job u).1 (f job u).2

theorem Tracks.other {keeps keeps' : Prop} {f : Job → Unix → Job × Unix} (hf : Tracks keeps f)
    {reaped : List ℕ} {a b : Job} {u : Unix} (hC : Compatible a b) (hb : Covered keeps' reaped b u) :
    Covered keeps' reaped b (f a u).2 :=
  hb.later (hf.later a u) (fun hact ⟨ha,hmem⟩ => hC ha hact b.pgid hmem (hb hact).1)

structure TableOk (keeps : Prop) (reaped : List ℕ) (table : List Job) (u : Unix) : Prop where
  covered : ∀ job ∈ table, Covered keeps reaped job u
  compatible : table.Pairwise Compatible

theorem TableOk.sweep {keeps : Prop} {f : Job → Unix → Job × Unix} (hf : Tracks keeps f)
    {reaped : List ℕ} {table : List Job} {u : Unix} (h : TableOk keeps reaped table u) :
    TableOk True reaped (sweep f table u).1 (sweep f table u).2 := by
  obtain ⟨hcovered,hpair,_⟩ := sweep_pairwise (f := f) (P := Covered keeps reaped)
    (Q := Covered True reaped) (C := Compatible) (fun a u ha => hf.covered reaped a u ha)
    (fun a b u hC hb => hf.other hC hb) (fun a b u hC ha => hf.other hC.symm ha)
    (fun a b u hC => (hf.same a u).compatible (SameJob.refl b) hC)
    (fun a b u hC => (SameJob.refl a).compatible (hf.same b u) hC) h.compatible h.covered
  exact ⟨hcovered,hpair⟩

/-- Some active job records the process. -/
def Recorded (table : List Job) (pid : ℕ) : Prop :=
  ∃ job ∈ table, job.active = true ∧ pid ∈ job.pids

theorem Tracks.sweep_later {keeps : Prop} {f : Job → Unix → Job × Unix} (hf : Tracks keeps f)
    (table : List Job) (u : Unix) : Later (Recorded table) u (sweep f table u).2 :=
  sweep_env (I := fun v => Later (Recorded table) u v)
    (fun job hjob v hv => hv.trans ((hf.later job v).mono (fun _ ⟨ha,hp⟩ => ⟨job,hjob,ha,hp⟩)))
    (Later.refl _ u)

/-- A visit that skips the slot, or runs a loop over the processes of an active
job. A slot may be skipped only when that passes over no exit. -/
theorem Tracks.of_visited {keeps : Prop} {f : Job → Unix → Job × Unix}
    (hf : ∀ job u, (f job u = (job,u) ∧ (job.active = true → keeps ∨ job.finished = true)) ∨
      (job.active = true ∧ ∀ reaped, Visited keeps (job.leader reaped)
        ((f job u).1.leader reaped) u (f job u).2 job.procs (f job u).1.procs)) : Tracks keeps f := by
  refine ⟨fun job u => ?_,fun job u => ?_,fun reaped job u h => ?_⟩
  · rcases hf job u with ⟨heq,_⟩ | ⟨hact,hv⟩
    · rw [heq]
      exact SameJob.refl job
    · exact ⟨(hv []).pids,(hv []).pgid,fun _ => hact⟩
  · rcases hf job u with ⟨heq,_⟩ | ⟨hact,hv⟩
    · rw [heq]
      exact Later.refl _ u
    · exact (hv []).later.mono (fun _ hp => ⟨hact,hp⟩)
  · rcases hf job u with ⟨heq,hskip⟩ | ⟨hact,hv⟩
    · rw [heq]
      intro hact
      obtain ⟨hlead,hwatched,hall⟩ := h hact
      refine ⟨hlead,hwatched,fun p hp => ⟨(hall p hp).1,fun _ => ?_⟩⟩
      rcases hskip hact with hk | hfin
      · exact (hall p hp).2 hk
      · exact Or.inl (Or.inl hfin)
    · exact Covered.visited (hv reaped) (fun _ => hact) h

theorem handlerJob_tracks : Tracks False (handlerJob unixOs) := by
  refine Tracks.of_visited (fun job u => ?_)
  unfold handlerJob
  split
  · next hc =>
    refine Or.inr ⟨(Bool.and_eq_true_iff.mp hc).1,fun reaped => ?_⟩
    exact foldSweep_visits (Job.leader reaped) (handlerProc_visit reaped) job.procs job u
  · next hc =>
    refine Or.inl ⟨rfl,fun hact => Or.inr ?_⟩
    simpa [hact] using hc

theorem refreshJob_tracks : Tracks True (refreshJob unixOs) := by
  refine Tracks.of_visited (fun job u => ?_)
  unfold refreshJob
  split
  · next hact =>
    refine Or.inr ⟨hact,fun reaped => ?_⟩
    have hv := foldSweep_visits (fun a : Scan => a.job.leader reaped) (refreshProc_visit reaped)
      job.procs ⟨job,false,false⟩ u
    dsimp only
    split <;> exact hv
  · exact Or.inl ⟨rfl,fun _ => Or.inl trivial⟩

/-! ## Waiting in the foreground -/

theorem TableOk.cellwise {keeps : Prop} {reaped : List ℕ} {table table' : List Job} {u : Unix}
    (h : TableOk keeps reaped table u)
    (hcell : Cellwise (fun job job' => SameJob job job' ∧
      (Covered keeps reaped job u → Covered keeps reaped job' u)) table table') :
    TableOk keeps reaped table' u := by
  refine ⟨fun job' hjob' => ?_,
    hcell.pairwise (fun _ _ _ _ ha hb => ha.1.compatible hb.1) h.compatible⟩
  obtain ⟨j,hget⟩ := List.mem_iff_getElem?.mp hjob'
  obtain ⟨job,hjob,_,hcov⟩ := hcell j job' hget
  exact hcov (h.covered job (List.mem_of_getElem? hjob))

theorem Job.continueAll_same (job : Job) : SameJob job job.continueAll := by
  refine ⟨?_,rfl,id⟩
  simp only [Job.pids, Job.continueAll, List.map_map]
  refine List.map_congr_left (fun p _ => ?_)
  simp only [Function.comp]
  split <;> rfl

theorem Covered.continueAll {keeps : Prop} {reaped : List ℕ} {job : Job} {u : Unix}
    (h : Covered keeps reaped job u) : Covered keeps reaped job.continueAll u := by
  refine h.relabel job.continueAll_same rfl (fun p' hp' => ?_)
  obtain ⟨p,hp,rfl⟩ := List.mem_map.mp hp'
  refine ⟨p,hp,?_⟩
  split
  · exact ⟨rfl,fun hex => by cases hex⟩
  · exact ⟨rfl,id⟩

theorem TableOk.compatible_at {keeps : Prop} {reaped : List ℕ} {table : List Job} {u : Unix}
    (h : TableOk keeps reaped table u) {i j : ℕ} {a b : Job} (hij : i ≠ j) (ha : table[i]? = some a)
    (hb : table[j]? = some b) : Compatible a b := by
  obtain ⟨hi,rfl⟩ := List.getElem?_eq_some_iff.mp ha
  obtain ⟨hj,rfl⟩ := List.getElem?_eq_some_iff.mp hb
  have hpair := List.pairwise_iff_getElem.mp h.compatible
  rcases Nat.lt_or_gt_of_ne hij with hlt | hgt
  · exact hpair i j hi hj hlt
  · exact (hpair j i hj hi hgt).symm

theorem Recorded.of_cellwise {table table' : List Job} {pid : ℕ} (h : Recorded table' pid)
    (hc : Cellwise SameJob table table') : Recorded table pid := by
  obtain ⟨job',hjob',hact,hpid⟩ := h
  obtain ⟨j,hget⟩ := List.mem_iff_getElem?.mp hjob'
  obtain ⟨job,hjob,hsame⟩ := hc j job' hget
  exact ⟨job,List.mem_of_getElem? hjob,hsame.active hact,hsame.pids ▸ hpid⟩

/-- What the wait for slot `i` knows: it has reaped only processes of that slot,
which stays active, and nobody reaps a process outside `who`. -/
structure WaitOk (who : ℕ → Prop) (u : Unix) (i pgid : ℕ) (w : Waiting Unix) : Prop where
  table : TableOk True w.reaped w.table w.env
  slot : ∃ job, w.table[i]? = some job ∧ job.active = true ∧ job.pgid = pgid ∧
    ∀ pid ∈ w.reaped, pid ∈ job.pids
  recorded : ∀ pid, Recorded w.table pid → who pid
  later : Later who u w.env

theorem WaitOk.handlers {who : ℕ → Prop} {u : Unix} {i pgid : ℕ} {w : Waiting Unix}
    (h : WaitOk who u i pgid w) (n : ℕ) :
    WaitOk who u i pgid { w with
      table := (runHandlers unixOs n (w.table,w.env)).1
      env := (runHandlers unixOs n (w.table,w.env)).2 } := by
  induction n generalizing w with
  | zero => exact h
  | succ n ih =>
    refine ih (w := { w with
      table := (sigchldHandler unixOs w.table w.env).1
      env := (sigchldHandler unixOs w.table w.env).2 }) ⟨?_,?_,fun pid hpid => ?_,?_⟩
    · exact TableOk.sweep handlerJob_tracks
        ⟨fun job hjob => (h.table.covered job hjob).weaken,h.table.compatible⟩
    · obtain ⟨job,hjob,hact,hpgid,hreaped⟩ := h.slot
      obtain ⟨v,_,hget⟩ := sweep_at (f := handlerJob unixOs) (I := fun _ => True) hjob
        (fun _ _ _ _ _ _ => trivial) (s := w.env) trivial
      have hsame := handlerJob_tracks.same job v
      refine ⟨_,hget,?_,hsame.pgid.trans hpgid,fun pid hpid => hsame.pids ▸ hreaped pid hpid⟩
      rw [handlerJob_active, hact]
    · exact h.recorded pid (hpid.of_cellwise
        (sweep_cellwise (fun job v => handlerJob_tracks.same job v) w.table w.env))
    · exact h.later.trans ((handlerJob_tracks.sweep_later w.table w.env).mono h.recorded)

theorem Covered.mono {keeps : Prop} {reaped reaped' : List ℕ} {job : Job} {u : Unix}
    (h : Covered keeps reaped job u) (hsub : reaped ⊆ reaped') : Covered keeps reaped' job u := by
  intro hact
  obtain ⟨hlead,hwatched,hall⟩ := h hact
  have hset : (job.leader reaped).Settled → (job.leader reaped').Settled :=
    Or.imp id (fun hmem => hsub hmem)
  refine ⟨hlead,hwatched.imp hset id,fun p hp => ⟨(hall p hp).1,fun hk => ?_⟩⟩
  exact ((hall p hp).2 hk).imp hset id

theorem WaitOk.pass {who : ℕ → Prop} {u : Unix} {i pgid : ℕ} {w : Waiting Unix}
    (h : WaitOk who u i pgid w) : WaitOk who u i pgid (passJob unixOs i w).2 := by
  obtain ⟨job,hjob,hact,hpgid,hreaped⟩ := h.slot
  have hv := foldSweep_visits (fun a : Pass => job.leader a.reaped) (passProc_visit job) job.procs
    ⟨false,false,w.reaped⟩ w.env
  have hsame : SameJob job { job with
      procs := (foldSweep (passProc unixOs) ⟨false,false,w.reaped⟩ job.procs w.env).2.1 } :=
    ⟨hv.pids,rfl,id⟩
  have hcell := Cellwise.set SameJob.refl hjob hsame
  have hi := (List.getElem?_eq_some_iff.mp hjob).1
  simp only [passJob, hjob]
  refine ⟨⟨fun job' hjob' => ?_,?_⟩,⟨_,List.getElem?_set_self hi,hact,hpgid,fun pid hpid => ?_⟩,
    fun pid hpid => h.recorded pid (hpid.of_cellwise hcell),?_⟩
  · obtain ⟨j,hget⟩ := List.mem_iff_getElem?.mp hjob'
    by_cases hij : i = j
    · subst hij
      rw [List.getElem?_set_self hi] at hget
      cases hget
      exact Covered.visited hv id (h.table.covered job (List.mem_of_getElem? hjob))
    · rw [List.getElem?_set_ne hij] at hget
      have hcov := h.table.covered job' (List.mem_of_getElem? hget)
      refine (hcov.later hv.later (fun hact' hmem => ?_)).mono hv.kept
      exact h.table.compatible_at hij hjob hget hact hact' job'.pgid hmem (hcov hact').1
  · exact hcell.pairwise (fun _ _ _ _ ha hb => ha.compatible hb) h.table.compatible
  · rw [hsame.pids]
    rcases hv.reaped pid hpid with hpid | hpid
    · exact hreaped pid hpid
    · exact hpid
  · exact h.later.trans (hv.later.mono (fun pid hpid =>
      h.recorded pid ⟨job,List.mem_of_getElem? hjob,hact,hpid⟩))

theorem WaitOk.resumeLoop {who : ℕ → Prop} {u : Unix} {i pgid : ℕ} {timeout : Bool}
    {pauses : List Pause} {w w' : Waiting Unix} {outcome : Outcome} (h : WaitOk who u i pgid w)
    (hrun : resumeLoop unixOs i timeout pauses w = some (outcome,w')) : WaitOk who u i pgid w' :=
  resumeLoop_invariant unixOs (fun n _ hw => hw.handlers n) (fun _ hw => hw.pass) h hrun

/-! ## A refresh that finds everybody dead -/

/-- A visit to a dead process sees nothing alive; it finishes the job when the
leader is still to be collected. -/
theorem refreshProc_dead (a : Scan) {p : Proc} {u : Unix} (hdead : (u.children p.pid).dead = true) :
    (refreshProc unixOs a p u).1.anyAlive = a.anyAlive ∧
      (refreshProc unixOs a p u).1.anyStopped = a.anyStopped ∧
      (a.job.finished = true → (refreshProc unixOs a p u).1.job.finished = true) ∧
      (p.pid = a.job.pgid → p.state ≠ .exited → u.children p.pid ≠ .reaped →
        (refreshProc unixOs a p u).1.job.finished = true) := by
  rcases refreshProc_cases unixOs a p u with ⟨hex,heq⟩ | ⟨_,signaled,_,heq⟩ | ⟨_,hw,heq⟩ |
    ⟨_,hnone,hnot,st,hst,heq⟩
  · rw [heq]
    exact ⟨rfl,rfl,id,fun _ hne => absurd hex hne⟩
  · rw [heq]
    unfold Job.leaderExit
    dsimp only
    split
    · exact ⟨rfl,rfl,fun _ => rfl,fun _ _ _ => rfl⟩
    · next hp => exact ⟨rfl,rfl,id,fun h => absurd h hp⟩
  · rw [heq]
    exact ⟨rfl,rfl,id,fun _ _ hne => absurd (Unix.waitpid_noChild hw).1 hne⟩
  · obtain ⟨halive,hl⟩ := Unix.waitpid_alive hnone hnot
    rw [hl.dead p.pid hdead] at halive
    cases halive

/-- The leader is among the processes to come and its status is to be had. -/
def Leader.Pending (l : Leader) (u : Unix) (procs : List Proc) : Prop :=
  l.finished = true ∨ (l.pgid ∈ procs.map Proc.pid ∧ u.children l.pgid ≠ .reaped ∧
    ∀ p ∈ procs, p.pid = l.pgid → p.state ≠ .exited)

theorem refreshLoop_dead {procs : List Proc} {a : Scan} {u : Unix}
    (hdead : ∀ p ∈ procs, (u.children p.pid).dead = true)
    (hp : (a.job.leader []).Pending u procs) :
    (foldSweep (refreshProc unixOs) a procs u).1.anyAlive = a.anyAlive ∧
      (foldSweep (refreshProc unixOs) a procs u).1.anyStopped = a.anyStopped ∧
      (foldSweep (refreshProc unixOs) a procs u).1.job.finished = true := by
  induction procs generalizing a u with
  | nil => exact ⟨rfl,rfl,hp.resolve_right (by simp)⟩
  | cons p rest ih =>
    have hv := refreshProc_visit [] a p u
    obtain ⟨halive,hstopped,hkeep,hlead⟩ := refreshProc_dead a (hdead p List.mem_cons_self)
    have hpending : ((refreshProc unixOs a p u).1.job.leader []).Pending
        (refreshProc unixOs a p u).2.2 rest := by
      rcases hp with hf | ⟨hmem,hne,hst⟩
      · exact Or.inl (hkeep hf)
      by_cases hpid : p.pid = a.job.pgid
      · exact Or.inl (hlead hpid (hst p List.mem_cons_self hpid) (by rw [hpid]; exact hne))
      · refine Or.inr ⟨?_,fun hr => ?_,fun q hq hqid => ?_⟩
        · rw [hv.pgid]
          exact (List.mem_cons.mp hmem).resolve_left (fun h => hpid h.symm)
        · rw [hv.pgid] at hr
          rcases hv.later.reaped _ hr with hr | heq
          · exact hne hr
          · exact hpid heq.symm
        · exact hst q (List.mem_cons_of_mem _ hq) (hqid.trans hv.pgid)
    obtain ⟨ha,hs,hf⟩ := ih (fun q hq =>
      hv.later.dead q.pid (hdead q (List.mem_cons_of_mem _ hq))) hpending
    exact ⟨ha.trans halive,hs.trans hstopped,hf⟩

theorem refreshJob_dead {job : Job} {u : Unix} (hact : job.active = true)
    (hrep : job.reported = false) (hdead : ∀ p ∈ job.procs, (u.children p.pid).dead = true)
    (hp : (job.leader []).Pending u job.procs) : (refreshJob unixOs job u).1.completed = true := by
  obtain ⟨halive,hstopped,hf⟩ := refreshLoop_dead (a := ⟨job,false,false⟩) hdead hp
  have hloop := (refreshJob_loop unixOs job u).loop
  simp [refreshJob,hact,halive,hstopped,hf,hloop.reported,hrep,hloop.active,Job.completed]

/-- With no signal pending, a refresh leaves every active job without live
processes ready to be announced. -/
theorem jobsRefreshStates_completes {table : List Job} {u : Unix} (hok : TableOk True [] table u)
    (hs : u.sigchld = false) {i : ℕ} {job : Job} (hget : table[i]? = some job)
    (hact : job.active = true) (hrep : job.reported = false)
    (hdead : ∀ p ∈ job.procs, (u.children p.pid).dead = true) :
    ∃ job', (jobsRefreshStates unixOs table u).1[i]? = some job' ∧ job'.completed = true ∧
      SameJob job job' := by
  obtain ⟨hlead,hwatched,hall⟩ := hok.covered job (List.mem_of_getElem? hget) hact
  have hnil : ∀ {b : Job}, (b.leader []).Settled → b.finished = true :=
    fun h => h.resolve_right (by simp [Job.leader])
  have hvisit : ∀ (j : ℕ) (b : Job) (v : Unix), j < i → table[j]? = some b →
      Later (· ≠ job.pgid) u v → Later (· ≠ job.pgid) u (refreshJob unixOs b v).2 := by
    intro j b v hj hb hv
    refine hv.trans ((refreshJob_tracks.later b v).mono ?_)
    rintro pid ⟨hbact,hpid⟩ rfl
    exact hok.compatible_at (Nat.ne_of_lt hj) hb hget hbact hact _ hpid hlead
  obtain ⟨v,hl,hget'⟩ := sweep_at (f := refreshJob unixOs) hget hvisit (Later.refl _ u)
  refine ⟨_,hget',refreshJob_dead hact hrep (fun p hp => hl.dead p.pid (hdead p hp)) ?_,
    refreshJob_tracks.same job v⟩
  rcases hwatched with hset | hne
  · exact Or.inl (hnil hset)
  by_cases hf : job.finished = true
  · exact Or.inl hf
  refine Or.inr ⟨hlead,fun hr => ?_,fun p hp hpid => ?_⟩
  · rcases hl.reaped _ hr with hr | hneq
    · exact hne hr
    · exact hneq rfl
  · exact (((hall p hp).2 trivial).resolve_left (fun hset => hf (hnil hset))) hs hpid

end CShellXv6.Jobs
