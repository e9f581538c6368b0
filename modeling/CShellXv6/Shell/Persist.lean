import CShellXv6.Shell.Calls

/-! # What no call changes in the table

Whatever the operating system answers, the calls on the job table keep the
number, the group and the processes of each job that they leave active, and they
ask only about processes that the table records.
-/
namespace CShellXv6.Jobs
open Process Sweep

section Calls
variable {σ : Type*} {os : Os σ} {R : List Job × σ → List Job × σ → Prop}

/-- A relation from the table and the system before to those after, to which the parts
of all calls keep that add no job. -/
structure Carries (os : Os σ) (R : List Job × σ → List Job × σ → Prop) : Prop where
  refl : ∀ x, R x x
  trans : ∀ {x y z}, R x y → R y z → R x z
  handler : ∀ x, R x (sigchldHandler os x.1 x.2)
  refresh : ∀ x, R x (jobsRefreshStates os x.1 x.2)
  complete : ∀ x, R x (x.1.map Job.complete,x.2)
  continueAll : ∀ i x, R x (x.1.modify i Job.continueAll,x.2)
  pass : ∀ i w, R (w.table,w.env) ((passJob os i w).2.table,(passJob os i w).2.env)
  finish : ∀ i (w : Waiting σ) outcome, R (w.table,w.env) ((finishFg i w outcome).1,w.env)

theorem Carries.runHandlers (hR : Carries os R) (n : ℕ) (x : List Job × σ) :
    R x (runHandlers os n x) := by
  induction n generalizing x with
  | zero => exact hR.refl x
  | succ n ih => exact hR.trans (hR.handler x) (ih _)

theorem Carries.resumeLoop (hR : Carries os R) {i : ℕ} {timeout : Bool} {pauses : List Pause}
    {w w' : Waiting σ} {outcome : Outcome}
    (h : resumeLoop os i timeout pauses w = some (outcome,w')) :
    R (w.table,w.env) (w'.table,w'.env) := by
  apply resumeLoop_invariant os (I := fun v => R (w.table,w.env) (v.table,v.env)) _ _ (hR.refl _) h
  · intro n v hv
    exact hR.trans hv (hR.runHandlers n (v.table,v.env))
  · intro v hv
    exact hR.trans hv (hR.pass i v)

theorem Carries.resumeFg (hR : Carries os R) {jobId timeoutSeconds : ℕ} {pauses : List Pause}
    {late : Bool} {table : List Job} {s : σ} {r : List Job × σ × List Line × List ℕ}
    (h : jobsResumeFg os jobId timeoutSeconds pauses late table s = some r) :
    R (table,s) (r.1,r.2.1) := by
  have hrefresh := hR.refresh (table,s)
  rcases jobsResumeFg_cases os h with rfl | ⟨i,outcome,last,w,shown,_,hloop,_,rfl⟩
  · exact hrefresh
  · have hwait := hR.trans (hR.continueAll i _) (hR.resumeLoop hloop)
    exact hR.trans hrefresh (hR.trans hwait (hR.finish i w last))

/-- What holds of the parts holds of the call. -/
theorem Carries.step (hR : Carries os R) {s t : Shell σ} {e : Event} (hadds : e.adds = false)
    (h : step os s e = some t) : R (s.table,s.env) (t.table,t.env) := by
  have hrefresh := hR.refresh (s.table,s.env)
  cases e with
  | addPipeline pgid procs fullCmd => cases hadds
  | addStopped pgid procs fullCmd => cases hadds
  | handler =>
    cases h
    exact hR.handler (s.table,s.env)
  | refresh =>
    cases h
    exact hrefresh
  | checkCompleted =>
    cases h
    exact hR.trans hrefresh (hR.complete _)
  | resumeBg jobId =>
    cases h
    rcases jobsResumeBg_cases os jobId s.table s.env with heq | ⟨i,out,_,heq⟩
    · rw [heq]
      exact hrefresh
    · rw [heq]
      exact hR.trans hrefresh (hR.continueAll i _)
  | resumeFg jobId timeoutSeconds pauses late =>
    obtain ⟨r,hr,rfl⟩ := Option.map_eq_some_iff.mp h
    exact hR.resumeFg hr

end Calls

/-- The same job, possibly no longer active. -/
structure Persists (job job' : Job) : Prop extends SameJob job job' where
  jobId : job'.jobId = job.jobId

theorem Persists.refl (job : Job) : Persists job job := ⟨SameJob.refl job,rfl⟩

theorem Persists.trans {a b c : Job} (h : Persists a b) (k : Persists b c) : Persists a c :=
  ⟨⟨k.pids.trans h.pids,k.pgid.trans h.pgid,fun hc => h.active (k.active hc)⟩,k.jobId.trans h.jobId⟩

section Os
variable {σ : Type*} (os : Os σ)

/-! ## Jobs -/

theorem handlerProc_pid (job : Job) (p : Proc) (s : σ) :
    (handlerProc os job p s).2.1.pid = p.pid := by
  rcases handlerProc_cases os job p s with ⟨_,_,heq⟩ | ⟨_,_,_,_,heq⟩
  · rw [heq]
  · rw [heq]

theorem refreshProc_pid (a : Scan) (p : Proc) (s : σ) : (refreshProc os a p s).2.1.pid = p.pid := by
  rcases refreshProc_cases os a p s with ⟨_,heq⟩ | ⟨_,_,_,heq⟩ | ⟨_,_,heq⟩ | ⟨_,_,_,st,hst,heq⟩
  · rw [heq]
  · rw [heq]
  · rw [heq]
  · rw [heq]
    rcases inspectProc_cases os a { p with state := st } (os.waitpid s p.pid pollFlags).2 hst with
      ⟨_,_,heq⟩ | ⟨_,heq⟩
    · rw [heq]
    · rw [heq]

theorem passProc_pid (a : Pass) (p : Proc) (s : σ) : (passProc os a p s).2.1.pid = p.pid := by
  rcases passProc_cases os a p s with ⟨_,heq⟩ | ⟨_,_,heq⟩ | ⟨_,_,heq⟩ | ⟨_,_,_,_,_,_,_,_,_,_,heq⟩
  · rw [heq]
  · rw [heq]
  · rw [heq]
  · rw [heq]

theorem handlerJob_persists (job : Job) (s : σ) : Persists job (handlerJob os job s).1 := by
  unfold handlerJob
  split
  · have hloop := handlerJob_loop os job s
    exact ⟨⟨foldSweep_map (handlerProc_pid os) job job.procs s,hloop.pgid,
      fun h => hloop.active ▸ h⟩,hloop.jobId⟩
  · exact Persists.refl job

theorem refreshJob_persists (job : Job) (s : σ) : Persists job (refreshJob os job s).1 := by
  unfold refreshJob
  split
  · next hact =>
    have hloop := (refreshJob_loop os job s).loop
    have hpids := foldSweep_map (refreshProc_pid os) ⟨job,false,false⟩ job.procs s
    dsimp only
    split
    · exact ⟨⟨hpids,hloop.pgid,fun _ => hact⟩,hloop.jobId⟩
    · exact ⟨⟨hpids,hloop.pgid,fun _ => hact⟩,hloop.jobId⟩
  · exact Persists.refl job

theorem sigchldHandler_persists (table : List Job) (s : σ) :
    Cellwise Persists table (sigchldHandler os table s).1 :=
  sweep_cellwise (handlerJob_persists os) table s

theorem jobsRefreshStates_persists (table : List Job) (s : σ) :
    Cellwise Persists table (jobsRefreshStates os table s).1 :=
  sweep_cellwise (refreshJob_persists os) table s

theorem Job.continueAll_persists (job : Job) : Persists job job.continueAll :=
  ⟨job.continueAll_same,rfl⟩

theorem passJob_persists (i : ℕ) (w : Waiting σ) :
    Cellwise Persists w.table (passJob os i w).2.table := by
  unfold passJob
  split
  · exact Cellwise.refl Persists.refl _
  · next job hjob =>
    refine Cellwise.set Persists.refl hjob ⟨⟨?_,rfl,id⟩,rfl⟩
    exact foldSweep_map (passProc_pid os) _ job.procs w.env

theorem finishFg_persists (i : ℕ) (w : Waiting σ) (outcome : Outcome) :
    Cellwise Persists w.table (finishFg i w outcome).1 := by
  have hleave : ∀ job : Job, Persists job job.leave := fun _ =>
    ⟨⟨rfl,rfl,fun h => by cases h⟩,rfl⟩
  cases outcome with
  | timedOut => exact Cellwise.modify _ i Persists.refl (fun job _ => hleave job)
  | stopped => exact Cellwise.modify _ i Persists.refl (fun job _ => ⟨⟨rfl,rfl,id⟩,rfl⟩)
  | done => exact Cellwise.modify _ i Persists.refl (fun job _ => hleave job)

theorem Job.complete_persists (job : Job) : Persists job job.complete := by
  unfold Job.complete
  split
  · exact ⟨⟨rfl,rfl,fun h => by cases h⟩,rfl⟩
  · exact Persists.refl job

theorem carries_persists : Carries os (fun x y => Cellwise Persists x.1 y.1) where
  refl x := Cellwise.refl Persists.refl x.1
  trans h k := h.trans k (fun _ _ _ => Persists.trans)
  handler x := sigchldHandler_persists os x.1 x.2
  refresh x := jobsRefreshStates_persists os x.1 x.2
  complete x := Cellwise.map Job.complete_persists x.1
  continueAll i x := Cellwise.modify x.1 i Persists.refl (fun job _ => job.continueAll_persists)
  pass := passJob_persists os
  finish := finishFg_persists

theorem jobsResumeFg_persists {jobId timeoutSeconds : ℕ} {pauses : List Pause} {late : Bool}
    {table : List Job} {env : σ} {r : List Job × σ × List Line × List ℕ}
    (h : jobsResumeFg os jobId timeoutSeconds pauses late table env = some r) :
    Cellwise Persists table r.1 := (carries_persists os).resumeFg h

variable {os}

theorem step_persists {s t : Shell σ} {e : Event} (hadds : e.adds = false)
    (h : step os s e = some t) : Cellwise Persists s.table t.table :=
  (carries_persists os).step hadds h

/-! ## System calls -/

/-- Calls about processes in `P` keep `I`. -/
structure Asks (os : Os σ) (P : ℕ → Prop) (I : σ → Prop) : Prop where
  waitpid : ∀ s pid flags, P pid → I s → I (os.waitpid s pid flags).2
  procStat : ∀ s pid, P pid → I s → I (os.procStat s pid).2

/-- The table records only processes in `P`. -/
def AllPids (P : ℕ → Prop) (table : List Job) : Prop := ∀ job ∈ table, ∀ pid ∈ job.pids, P pid

theorem AllPids.persists {P : ℕ → Prop} {table table' : List Job} (h : AllPids P table)
    (hc : Cellwise Persists table table') : AllPids P table' := by
  intro job' hjob' pid hpid
  obtain ⟨i,hget⟩ := List.mem_iff_getElem?.mp hjob'
  obtain ⟨job,hjob,hp⟩ := hc i job' hget
  rw [hp.pids] at hpid
  exact h job (List.mem_of_getElem? hjob) pid hpid

section Env
variable {P : ℕ → Prop} {I : σ → Prop} (hos : Asks os P I)
include hos

theorem handlerProc_env (job : Job) {p : Proc} (hp : P p.pid) {s : σ} (hs : I s) :
    I (handlerProc os job p s).2.2 := by
  have hwait := hos.waitpid s p.pid pollFlags hp hs
  rcases handlerProc_cases os job p s with ⟨_,_,heq⟩ | ⟨_,_,_,_,heq⟩
  · rwa [heq]
  · rwa [heq]

theorem refreshProc_env (a : Scan) {p : Proc} (hp : P p.pid) {s : σ} (hs : I s) :
    I (refreshProc os a p s).2.2 := by
  have hwait := hos.waitpid s p.pid pollFlags hp hs
  rcases refreshProc_cases os a p s with ⟨_,heq⟩ | ⟨_,_,_,heq⟩ | ⟨_,_,heq⟩ | ⟨_,_,_,st,hst,heq⟩
  · rwa [heq]
  · rwa [heq]
  · rwa [heq]
  · have hstat := hos.procStat _ p.pid hp hwait
    rw [heq]
    rcases inspectProc_cases os a { p with state := st } (os.waitpid s p.pid pollFlags).2 hst with
      ⟨_,_,heq⟩ | ⟨_,heq⟩
    · rwa [heq]
    · rwa [heq]

theorem passProc_env (a : Pass) {p : Proc} (hp : P p.pid) {s : σ} (hs : I s) :
    I (passProc os a p s).2.2 := by
  have hwait := hos.waitpid s p.pid resumeFlags hp hs
  rcases passProc_cases os a p s with ⟨_,heq⟩ | ⟨_,_,heq⟩ | ⟨_,_,heq⟩ | ⟨_,_,_,_,_,_,_,_,_,_,heq⟩
  · rwa [heq]
  · rwa [heq]
  · rwa [heq]
  · rwa [heq]

theorem sigchldHandler_env {table : List Job} (ht : AllPids P table) {s : σ} (hs : I s) :
    I (sigchldHandler os table s).2 := by
  refine sweep_env (fun job hjob s hs => ?_) hs
  unfold handlerJob
  split
  · refine foldSweep_env (fun b p hp s hs => handlerProc_env hos b ?_ hs) hs
    exact ht job hjob p.pid (List.mem_map_of_mem hp)
  · exact hs

theorem jobsRefreshStates_env {table : List Job} (ht : AllPids P table) {s : σ} (hs : I s) :
    I (jobsRefreshStates os table s).2 := by
  refine sweep_env (fun job hjob s hs => ?_) hs
  unfold refreshJob
  split
  · refine foldSweep_env (fun b p hp s hs => refreshProc_env hos b ?_ hs) hs
    exact ht job hjob p.pid (List.mem_map_of_mem hp)
  · exact hs

theorem passJob_env (i : ℕ) {w : Waiting σ} (ht : AllPids P w.table) (hs : I w.env) :
    I (passJob os i w).2.env := by
  unfold passJob
  split
  · exact hs
  · next job hjob =>
    refine foldSweep_env (fun b p hp s hs => passProc_env hos b ?_ hs) hs
    exact ht job (List.mem_of_getElem? hjob) p.pid (List.mem_map_of_mem hp)

theorem carries_env :
    Carries os (fun x y => AllPids P x.1 → I x.2 → AllPids P y.1 ∧ I y.2) where
  refl _ ht hs := ⟨ht,hs⟩
  trans h k ht hs := k (h ht hs).1 (h ht hs).2
  handler x ht hs :=
    ⟨ht.persists (sigchldHandler_persists os x.1 x.2),sigchldHandler_env hos ht hs⟩
  refresh x ht hs :=
    ⟨ht.persists (jobsRefreshStates_persists os x.1 x.2),jobsRefreshStates_env hos ht hs⟩
  complete x ht hs := ⟨ht.persists ((carries_persists os).complete x),hs⟩
  continueAll i x ht hs := ⟨ht.persists ((carries_persists os).continueAll i x),hs⟩
  pass i w ht hs := ⟨ht.persists (passJob_persists os i w),passJob_env hos i ht hs⟩
  finish i w outcome ht hs := ⟨ht.persists (finishFg_persists i w outcome),hs⟩

theorem step_env {s t : Shell σ} {e : Event} (hadds : e.adds = false) (ht : AllPids P s.table)
    (hs : I s.env) (h : step os s e = some t) : I t.env :=
  ((carries_env hos).step hadds h ht hs).2

end Env

end Os

end CShellXv6.Jobs
