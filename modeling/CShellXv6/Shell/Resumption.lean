import CShellXv6.Shell.Tracking
import CShellXv6.Shell.Persist

/-! # How a resumed job comes back

The loop of `jobs_resume_fg` is left after a timeout, with a stopped process or
with every process gone, whatever `waitpid` answers and however often the handler
runs between two passes.
-/
namespace CShellXv6.Jobs
open Process Sweep

/-- The value that `jobs_resume_fg` returns at each of its exits. -/
def Outcome.value : Outcome → ℕ
  | .timedOut => 1
  | .stopped => 0
  | .done => 1

section Os
variable {σ : Type*} (os : Os σ)

/-- The call of `jobs_resume_fg` together with its return value. -/
def jobsResumeFgReturn (jobId timeoutSeconds : ℕ) (pauses : List Pause) (late : Bool)
    (table : List Job) (s : σ) : Option (ℕ × List Job × σ × List Line × List ℕ) :=
  let r := jobsRefreshStates os table s
  match findJob jobId r.1 with
  | none => some (0,r.1,r.2,[.noSuchJob],[])
  | some i =>
    let shown := (r.1[i]?.map (fun job => .command job.fullCmd)).toList
    (resumeLoop os i (decide (0 < timeoutSeconds)) pauses ⟨r.1.modify i Job.continueAll,r.2,[]⟩).map
      fun q =>
        let outcome := if late && decide (0 < timeoutSeconds) then .timedOut else q.1
        let f := finishFg i q.2 outcome
        (outcome.value,f.1,q.2.env,shown ++ f.2,q.2.reaped)

/-- Without the value it is the call that the other results are about. -/
theorem jobsResumeFgReturn_snd (jobId timeoutSeconds : ℕ) (pauses : List Pause) (late : Bool)
    (table : List Job) (s : σ) :
    (jobsResumeFgReturn os jobId timeoutSeconds pauses late table s).map Prod.snd =
      jobsResumeFg os jobId timeoutSeconds pauses late table s := by
  unfold jobsResumeFgReturn jobsResumeFg
  dsimp only
  cases findJob jobId (jobsRefreshStates os table s).1 with
  | none => rfl
  | some i =>
    dsimp only
    rw [Option.map_map]
    rfl

/-! ## The slot during the wait -/

def ActiveAt (i : ℕ) (table : List Job) : Prop := ∃ job, table[i]? = some job ∧ job.active = true

theorem ActiveAt.runHandlers {i : ℕ} {r : List Job × σ} (h : ActiveAt i r.1) (n : ℕ) :
    ActiveAt i (runHandlers os n r).1 := by
  induction n generalizing r with
  | zero => exact h
  | succ n ih =>
    obtain ⟨job,hget,hactive⟩ := h
    obtain ⟨s,_,hget'⟩ := sweep_at (f := handlerJob os) (I := fun _ => True) hget
      (fun _ _ _ _ _ _ => trivial) (s := r.2) trivial
    exact ih ⟨_,hget',(handlerJob_active os job s).trans hactive⟩

theorem ActiveAt.passJob {i : ℕ} {w : Waiting σ} (h : ActiveAt i w.table) :
    ActiveAt i (passJob os i w).2.table := by
  obtain ⟨job,hget,hactive⟩ := h
  simp only [Jobs.passJob, hget]
  exact ⟨_,List.getElem?_set_self (List.getElem?_eq_some_iff.mp hget).1,hactive⟩

/-- The handler and the passes write states and flags, never `active`. -/
theorem ActiveAt.resumeLoop {i : ℕ} {timeout : Bool} {pauses : List Pause} {w w' : Waiting σ}
    {outcome : Outcome} (h : ActiveAt i w.table)
    (hloop : resumeLoop os i timeout pauses w = some (outcome,w')) : ActiveAt i w'.table := by
  apply resumeLoop_invariant os (I := fun v => ActiveAt i v.table) _ _ h hloop
  · intro n v hv
    exact ActiveAt.runHandlers os (r := (v.table,v.env)) hv n
  · intro v hv
    exact hv.passJob os

/-! ## The last pass -/

theorem passProc_stopped {a : Pass} {p : Proc} {s : σ}
    (h : (passProc os a p s).1.anyStopped = true) :
    a.anyStopped = true ∨ (passProc os a p s).2.1.state = .stopped := by
  revert h
  unfold passProc
  split
  · exact Or.inl
  · dsimp only
    split
    · exact Or.inl
    · exact fun _ => Or.inr rfl
    · exact Or.inl
    · exact Or.inl
    · intro h
      simpa using h

/-- A pass that reports a stop leaves a stopped process in the table, since it
never comes back to a process that it has visited. -/
theorem passJob_stopped {i : ℕ} {w : Waiting σ} (h : (passJob os i w).1.anyStopped = true)
    {job : Job} (hjob : (passJob os i w).2.table[i]? = some job) :
    ∃ p ∈ job.procs, p.state = .stopped := by
  cases hget : w.table[i]? with
  | none =>
    simp only [passJob, hget] at h
    cases h
  | some first =>
    simp only [passJob, hget] at h hjob
    rw [List.getElem?_set_self (List.getElem?_eq_some_iff.mp hget).1] at hjob
    cases hjob
    revert h
    apply foldSweep_induct (f := passProc os)
      (P := fun a _ done' _ => a.anyStopped = true → ∃ p ∈ done', p.state = .stopped)
    · intro h
      cases h
    · intro a done done' p s ih h
      rcases passProc_stopped os h with h | h
      · obtain ⟨q,hq,hstopped⟩ := ih h
        exact ⟨q,List.mem_append_left _ hq,hstopped⟩
      · exact ⟨_,List.mem_append_right _ (List.mem_singleton_self _),h⟩

theorem resumeLoop_exits {i : ℕ} {timeout : Bool} {pauses : List Pause} {w w' : Waiting σ}
    {outcome : Outcome} (h : resumeLoop os i timeout pauses w = some (outcome,w')) :
    (outcome = .timedOut → timeout = true) ∧
      (outcome = .stopped → ∀ job, w'.table[i]? = some job →
        ∃ p ∈ job.procs, p.state = .stopped) := by
  induction pauses generalizing w with
  | nil => cases h
  | cons pause rest ih =>
    simp only [resumeLoop] at h
    split at h
    · next halarm =>
      cases h
      exact ⟨fun _ => (Bool.and_eq_true_iff.mp halarm).2,by simp⟩
    split at h
    · next hstopped =>
      cases h
      exact ⟨by simp,fun _ job hjob => passJob_stopped os hstopped hjob⟩
    split at h
    · exact ih h
    · cases h
      exact ⟨by simp,by simp⟩

/-! ## The three exits -/

/-- What `jobs_resume_fg` prints and leaves in the slot of the job, for each
value that it returns. -/
inductive Returned (timeoutSeconds : ℕ) (out : List Line) : ℕ → Job → Prop
  | timedOut {job : Job} (harmed : 0 < timeoutSeconds) (hline : .timedOut ∈ out)
      (hactive : job.active = false) (hfinished : job.finished = true) :
      Returned timeoutSeconds out 1 job
  | stopped {job : Job} (hactive : job.active = true) (hflag : job.isStopped = true)
      (hstopped : ∃ p ∈ job.procs, p.state = .stopped) : Returned timeoutSeconds out 0 job
  | done {job : Job} (hexited : job.AllExited) (hactive : job.active = false)
      (hfinished : job.finished = true) : Returned timeoutSeconds out 1 job

theorem finishFg_returned {timeoutSeconds i : ℕ} {w : Waiting σ} {last : Outcome}
    (hactive : ActiveAt i w.table) (htimed : last = .timedOut → 0 < timeoutSeconds)
    (hstopped : last = .stopped → ∀ job, w.table[i]? = some job →
      ∃ p ∈ job.procs, p.state = .stopped)
    (hdone : last = .done → ∀ job, w.table[i]? = some job → job.AllExited) (shown : List Line) :
    ∃ job', (finishFg i w last).1[i]? = some job' ∧
      Returned timeoutSeconds (shown ++ (finishFg i w last).2) last.value job' := by
  obtain ⟨job,hget,hactive⟩ := hactive
  cases last with
  | timedOut =>
    refine ⟨job.leave,by simp [finishFg,hget],?_⟩
    exact .timedOut (htimed rfl) (List.mem_append_right _ (List.mem_singleton_self _)) rfl rfl
  | stopped =>
    refine ⟨{ job with isStopped := true },by simp [finishFg,hget],?_⟩
    exact .stopped hactive rfl (hstopped rfl job hget)
  | done =>
    refine ⟨job.leave,by simp [finishFg,hget],?_⟩
    exact .done (hdone rfl job hget) rfl rfl

/-- A call of `jobs_resume_fg` that finds a job comes back with that job in its
slot, timed out, stopped or done. -/
theorem resumeFg_returned {jobId timeoutSeconds : ℕ} {pauses : List Pause} {late : Bool}
    {table : List Job} {s : σ} {i : ℕ}
    (hfind : findJob jobId (jobsRefreshStates os table s).1 = some i) {value : ℕ}
    {r : List Job × σ × List Line × List ℕ}
    (h : jobsResumeFgReturn os jobId timeoutSeconds pauses late table s = some (value,r)) :
    ∃ job job', table[i]? = some job ∧ job.jobId = jobId ∧ r.1[i]? = some job' ∧
      Persists job job' ∧ Returned timeoutSeconds r.2.2.1 value job' := by
  have hcall : jobsResumeFg os jobId timeoutSeconds pauses late table s = some r := by
    rw [← jobsResumeFgReturn_snd, h]
    rfl
  obtain ⟨found,hfound,hactive,hid,_⟩ := findJob_spec hfind
  have hstart : ActiveAt i ((jobsRefreshStates os table s).1.modify i Job.continueAll) :=
    ⟨found.continueAll,by simp [hfound],hactive⟩
  simp only [jobsResumeFgReturn, hfind] at h
  obtain ⟨⟨outcome,w⟩,hloop,heq⟩ := Option.map_eq_some_iff.mp h
  obtain ⟨htimed,hstopped⟩ := resumeLoop_exits os hloop
  suffices hlast : ∃ job', r.1[i]? = some job' ∧ Returned timeoutSeconds r.2.2.1 value job' by
    obtain ⟨job',hget',hreturned⟩ := hlast
    obtain ⟨job,hget,hpersists⟩ := jobsResumeFg_persists os hcall i job' hget'
    have hrefreshed := (jobsRefreshStates_persists os table s).get hget hfound
    exact ⟨job,job',hget,hrefreshed.jobId.symm.trans hid,hget',hpersists,hreturned⟩
  -- an alarm after the loop overrides the exit that the loop has taken
  by_cases hlate : (late && decide (0 < timeoutSeconds)) = true
  · simp only [hlate, ↓reduceIte] at heq
    cases heq
    apply finishFg_returned (hstart.resumeLoop os hloop)
    · intro _
      exact of_decide_eq_true (Bool.and_eq_true_iff.mp hlate).2
    · intro h
      cases h
    · intro h
      cases h
  · simp only [hlate, Bool.false_eq_true, ↓reduceIte] at heq
    cases heq
    apply finishFg_returned (hstart.resumeLoop os hloop)
    · intro h
      exact of_decide_eq_true (htimed h)
    · exact hstopped
    · exact (resumeLoop_spec os hloop).2

end Os

/-- The process stops before the third question about it. -/
def stoppingOs : Os ℕ where
  waitpid n _ _ := (if n = 2 then .got .stopped else .nothing,n + 1)
  procStat n _ := (.state 'S',n)
  waitpid_flags n _ _ _ := by
    dsimp only
    split <;> simp

def oneSlot : List Job := [newJob 1 7 [(7,"a".toList)] "a".toList]

/-- The handler learns of the stop, and the next pass finds it in the table. -/
theorem resumeFg_returned_handler :
    ∃ r, jobsResumeFgReturn stoppingOs 1 0 [⟨0,false⟩,⟨1,false⟩] false oneSlot 0 = some (0,r) ∧
      ∃ job', r.1[0]? = some job' ∧ job'.jobId = 1 ∧ Returned 0 r.2.2.1 0 job' := by
  have hfind : findJob 1 (jobsRefreshStates stoppingOs oneSlot 0).1 = some 0 := rfl
  obtain ⟨r,hr⟩ : ∃ r, jobsResumeFgReturn stoppingOs 1 0 [⟨0,false⟩,⟨1,false⟩] false oneSlot 0 =
      some (0,r) := ⟨_,rfl⟩
  obtain ⟨job,job',_,hid,hget,hpersists,hreturned⟩ := resumeFg_returned stoppingOs hfind hr
  exact ⟨r,hr,job',hget,hpersists.jobId.trans hid,hreturned⟩

end CShellXv6.Jobs
