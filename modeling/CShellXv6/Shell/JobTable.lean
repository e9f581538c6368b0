import CShellXv6.Library.Transition
import CShellXv6.Shell.Jobs

/-! # When a job leaves the table

The shell's calls on the job table in any order and with arbitrary answers of
the operating system. A slot is given up when `jobs_resume_fg` has seen all its
processes end or timed out, or by `jobs_check_completed` once the group leader
has ended; `jobs_refresh_states` never gives one up.
-/
namespace CShellXv6.Jobs
open Lexer Process Sweep Transition

structure Shell (σ : Type*) where
  table : List Job
  nextJobId : ℕ
  env : σ
  out : List Line

/-- One call on the job table. Both ways to add a job take a fresh number from
`jobs_alloc_id`. -/
inductive Event
  | addPipeline (pgid : ℕ) (procs : List (ℕ × CString)) (fullCmd : CString)
  | addStopped (pgid : ℕ) (procs : List (ℕ × CString)) (fullCmd : CString)
  | handler
  | refresh
  | checkCompleted
  | resumeBg (jobId : ℕ)
  | resumeFg (jobId timeoutSeconds : ℕ) (pauses : List Pause) (late : Bool)
  deriving DecidableEq, Repr

def start {σ : Type*} (env : σ) : Shell σ := ⟨List.replicate maxBgJobs emptyJob,1,env,[]⟩

def step {σ : Type*} (os : Os σ) (s : Shell σ) : Event → Option (Shell σ)
  | .addPipeline pgid procs fullCmd => some { s with
      table := jobsAddPipeline s.nextJobId pgid procs fullCmd s.table
      nextJobId := s.nextJobId + 1
      out := [] }
  | .addStopped pgid procs fullCmd => some { s with
      table := jobsAddStopped s.nextJobId pgid procs fullCmd s.table
      nextJobId := s.nextJobId + 1
      out := [] }
  | .handler =>
    let r := sigchldHandler os s.table s.env
    some { s with table := r.1, env := r.2, out := [] }
  | .refresh =>
    let r := jobsRefreshStates os s.table s.env
    some { s with table := r.1, env := r.2, out := [] }
  | .checkCompleted =>
    let r := jobsCheckCompleted os s.table s.env
    some { s with table := r.1, env := r.2.1, out := r.2.2 }
  | .resumeBg jobId =>
    let r := jobsResumeBg os jobId s.table s.env
    some { s with table := r.1, env := r.2.1, out := r.2.2 }
  | .resumeFg jobId timeoutSeconds pauses late =>
    (jobsResumeFg os jobId timeoutSeconds pauses late s.table s.env).map
      fun r => { s with table := r.1, env := r.2.1, out := r.2.2.1 }

/-! ## Jobs that stay -/

def Job.LeaderExited (job : Job) : Prop :=
  ∃ p ∈ job.procs, p.pid = job.pgid ∧ p.state = .exited

def Job.AllExited (job : Job) : Prop := ∀ p ∈ job.procs, p.state = .exited

/-- An active job is not yet reported, and finished only through its leader. -/
def Job.Sound (job : Job) : Prop :=
  job.active = true → job.reported = false ∧ (job.finished = true → job.LeaderExited)

/-- What a call does to a job that it leaves in the table. -/
def Stays (job job' : Job) : Prop :=
  job.Sound → job'.Sound ∧ job'.active = job.active ∧ job'.jobId = job.jobId

theorem Stays.refl (job : Job) : Stays job job := fun h => ⟨h,rfl,rfl⟩

theorem Stays.trans {a b c : Job} (h : Stays a b) (k : Stays b c) : Stays a c := by
  intro ha
  obtain ⟨hb,hab,hid⟩ := h ha
  obtain ⟨hc,hbc,hid'⟩ := k hb
  exact ⟨hc,hbc.trans hab,hid'.trans hid⟩

theorem Job.leaderExit_fields (job : Job) (pid : ℕ) (signaled : Bool) :
    (job.leaderExit pid signaled).active = job.active ∧
      (job.leaderExit pid signaled).jobId = job.jobId ∧
      (job.leaderExit pid signaled).pgid = job.pgid ∧
      (job.leaderExit pid signaled).reported = job.reported ∧
      ((job.leaderExit pid signaled).finished = true → job.finished = true ∨ pid = job.pgid) := by
  unfold Job.leaderExit
  split
  · next h => exact ⟨rfl,rfl,rfl,rfl,fun _ => Or.inr h⟩
  · exact ⟨rfl,rfl,rfl,rfl,Or.inl⟩

/-- The fields that the status loops never write, and the reason for writing
`finished`. -/
structure Loop (job job' : Job) (done' : List Proc) : Prop where
  active : job'.active = job.active
  jobId : job'.jobId = job.jobId
  pgid : job'.pgid = job.pgid
  reported : job'.reported = job.reported
  finished : job'.finished = true → job.finished = true ∨
    ∃ p ∈ done', p.pid = job.pgid ∧ p.state = .exited

theorem Loop.refl (job : Job) (done' : List Proc) : Loop job job done' :=
  ⟨rfl,rfl,rfl,rfl,Or.inl⟩

theorem Loop.append {job job' : Job} {done' : List Proc} (h : Loop job job' done') (p : Proc) :
    Loop job job' (done' ++ [p]) := by
  refine ⟨h.active,h.jobId,h.pgid,h.reported,fun hf => ?_⟩
  rcases h.finished hf with hf | ⟨q,hq,hpq⟩
  · exact Or.inl hf
  · exact Or.inr ⟨q,List.mem_append_left _ hq,hpq⟩

theorem Loop.leaderExit {job job' : Job} {done' : List Proc} (h : Loop job job' done') (p : Proc)
    (signaled : Bool) :
    Loop job (job'.leaderExit p.pid signaled) (done' ++ [{ p with state := .exited }]) := by
  obtain ⟨ha,hid,hpg,hrep,hfin⟩ := job'.leaderExit_fields p.pid signaled
  refine ⟨ha.trans h.active,hid.trans h.jobId,hpg.trans h.pgid,hrep.trans h.reported,fun hf => ?_⟩
  rcases hfin hf with hf | hpid
  · exact (h.append _).finished hf
  · exact Or.inr ⟨_,List.mem_append_right _ (List.mem_singleton_self _),hpid.trans h.pgid,rfl⟩

/-- Processes that were recorded as exited are still recorded so. -/
def KeepsExited (done done' : List Proc) : Prop := ∀ p ∈ done, p.state = .exited → p ∈ done'

theorem KeepsExited.snoc {done done' : List Proc} (h : KeepsExited done done') {p p' : Proc}
    (hp : p.state = .exited → p' = p) : KeepsExited (done ++ [p]) (done' ++ [p']) := by
  intro q hq hex
  rcases List.mem_append.mp hq with hq | hq
  · exact List.mem_append_left _ (h q hq hex)
  · rw [List.mem_singleton.mp hq] at hex ⊢
    rw [hp hex]
    exact List.mem_append_right _ (List.mem_singleton_self _)

section Os
variable {σ : Type*} (os : Os σ)

theorem handlerJob_loop (job : Job) (s : σ) :
    Loop job (foldSweep (handlerProc os) job job.procs s).1
      (foldSweep (handlerProc os) job job.procs s).2.1 := by
  refine foldSweep_induct (P := fun job' _ done' _ => Loop job job' done') job.procs
    (Loop.refl job []) ?_
  intro job' done done' p s h
  rcases handlerProc_cases os job' p s with ⟨signaled,_,heq⟩ | ⟨_,b,st,_,heq⟩
  · rw [heq]
    exact h.leaderExit p signaled
  · rw [heq]
    exact ⟨h.active,h.jobId,h.pgid,h.reported,(h.append _).finished⟩

theorem handlerJob_active (job : Job) (s : σ) : (handlerJob os job s).1.active = job.active := by
  unfold handlerJob
  split
  · exact (handlerJob_loop os job s).active
  · rfl

theorem handlerJob_stays (job : Job) (s : σ) : Stays job (handlerJob os job s).1 := by
  unfold handlerJob
  split
  · next hact =>
    simp only [Bool.and_eq_true, Bool.not_eq_true'] at hact
    have hloop := handlerJob_loop os job s
    intro hs
    refine ⟨fun _ => ⟨hloop.reported.trans (hs hact.1).1,fun hf => ?_⟩,hloop.active,hloop.jobId⟩
    rcases hloop.finished hf with hf | ⟨p,hp,hpid,hex⟩
    · rw [hact.2] at hf
      cases hf
    · exact ⟨p,hp,hpid.trans hloop.pgid.symm,hex⟩
  · exact Stays.refl job

/-- What the refresh loop knows: exited processes stay as they are, and only a
process that is alive can be stopped. -/
structure RefreshLoop (job : Job) (a : Scan) (done done' : List Proc) : Prop where
  loop : Loop job a.job done'
  kept : KeepsExited done done'
  stopped : a.anyStopped = true → a.anyAlive = true

theorem RefreshLoop.visit {job : Job} {a : Scan} {done done' : List Proc}
    (h : RefreshLoop job a done done') (p : Proc) (s : σ) :
    RefreshLoop job (refreshProc os a p s).1 (done ++ [p])
      (done' ++ [(refreshProc os a p s).2.1]) := by
  rcases refreshProc_cases os a p s with ⟨hex,heq⟩ | ⟨hne,signaled,_,heq⟩ | ⟨hne,_,heq⟩ |
    ⟨hne,_,_,st,hst,heq⟩
  · rw [heq]
    exact ⟨h.loop.append p,h.kept.snoc (fun _ => rfl),h.stopped⟩
  · rw [heq]
    exact ⟨h.loop.leaderExit p signaled,h.kept.snoc (fun hex => absurd hex hne),h.stopped⟩
  · rw [heq]
    exact ⟨h.loop.append _,h.kept.snoc (fun hex => absurd hex hne),h.stopped⟩
  · rw [heq]
    rcases inspectProc_cases os a { p with state := st } (os.waitpid s p.pid pollFlags).2 hst with
      ⟨st',_,heq⟩ | ⟨_,heq⟩
    · rw [heq]
      exact ⟨h.loop.append _,h.kept.snoc (fun hex => absurd hex hne),fun _ => rfl⟩
    · rw [heq]
      exact ⟨h.loop.append _,h.kept.snoc (fun hex => absurd hex hne),h.stopped⟩

theorem refreshJob_loop (job : Job) (s : σ) :
    RefreshLoop job (foldSweep (refreshProc os) ⟨job,false,false⟩ job.procs s).1 job.procs
      (foldSweep (refreshProc os) ⟨job,false,false⟩ job.procs s).2.1 :=
  foldSweep_induct (P := fun a done done' _ => RefreshLoop job a done done') job.procs
    ⟨Loop.refl job [],fun _ hp => absurd hp (by simp),by simp⟩ (fun _ _ _ p s h => h.visit os p s)

/-- A refresh never gives up a slot: a job that is not reported stays, since a
job without live processes has no stopped ones either. -/
theorem refreshJob_stays (job : Job) (s : σ) : Stays job (refreshJob os job s).1 := by
  unfold refreshJob
  split
  · next hact =>
    obtain ⟨hloop,hkept,hstopped⟩ := refreshJob_loop os job s
    intro hs
    obtain ⟨hrep,hlead⟩ := hs hact
    have hstay : (!(foldSweep (refreshProc os) ⟨job,false,false⟩ job.procs s).1.anyAlive &&
        ((foldSweep (refreshProc os) ⟨job,false,false⟩ job.procs s).1.job.reported ||
          (foldSweep (refreshProc os) ⟨job,false,false⟩ job.procs s).1.anyStopped)) = false := by
      rw [hloop.reported, hrep, Bool.false_or]
      cases hb : (foldSweep (refreshProc os) ⟨job,false,false⟩ job.procs s).1.anyStopped with
      | false => simp
      | true => simp [hstopped hb]
    simp only [hstay, Bool.false_eq_true, ↓reduceIte]
    refine ⟨fun _ => ⟨hloop.reported.trans hrep,fun hf => ?_⟩,hloop.active,hloop.jobId⟩
    rcases hloop.finished hf with hf | ⟨p,hp,hpid,hex⟩
    · obtain ⟨p,hp,hpid,hex⟩ := hlead hf
      exact ⟨p,hkept p hp hex,hpid.trans hloop.pgid.symm,hex⟩
    · exact ⟨p,hp,hpid.trans hloop.pgid.symm,hex⟩
  · exact Stays.refl job

theorem sigchldHandler_stays (table : List Job) (s : σ) :
    Cellwise Stays table (sigchldHandler os table s).1 :=
  sweep_cellwise (handlerJob_stays os) table s

theorem jobsRefreshStates_stays (table : List Job) (s : σ) :
    Cellwise Stays table (jobsRefreshStates os table s).1 :=
  sweep_cellwise (refreshJob_stays os) table s

theorem runHandlers_stays (n : ℕ) (r : List Job × σ) :
    Cellwise Stays r.1 (runHandlers os n r).1 := by
  induction n generalizing r with
  | zero => exact Cellwise.refl Stays.refl _
  | succ n ih => exact (sigchldHandler_stays os r.1 r.2).trans (ih _) (fun _ _ _ => Stays.trans)

/-! ## Waiting in the foreground -/

theorem Job.continueAll_stays (job : Job) : Stays job job.continueAll := by
  refine fun hs => ⟨fun hact => ?_,rfl,rfl⟩
  obtain ⟨hrep,hlead⟩ := hs hact
  refine ⟨hrep,fun hf => ?_⟩
  obtain ⟨p,hp,hpid,hex⟩ := hlead hf
  exact ⟨p,List.mem_map.mpr ⟨p,hp,by simp [hex]⟩,hpid,hex⟩

/-- What a pass knows: exited processes stay as they are, and all have exited
when none was alive or stopped. -/
structure PassLoop (a : Pass) (done done' : List Proc) : Prop where
  kept : KeepsExited done done'
  ended : a.alive = false → a.anyStopped = false → ∀ p ∈ done', p.state = .exited

theorem PassLoop.visit {a : Pass} {done done' : List Proc} (h : PassLoop a done done') (p : Proc)
    (s : σ) :
    PassLoop (passProc os a p s).1 (done ++ [p]) (done' ++ [(passProc os a p s).2.1]) := by
  have hover : ∀ p' : Proc, p'.state = .exited → a.alive = false → a.anyStopped = false →
      ∀ q ∈ done' ++ [p'], q.state = .exited := by
    intro p' hp halive hstopped q hq
    rcases List.mem_append.mp hq with hq | hq
    · exact h.ended halive hstopped q hq
    · rw [List.mem_singleton.mp hq]
      exact hp
  rcases passProc_cases os a p s with ⟨hex,heq⟩ | ⟨hne,_,heq⟩ | ⟨hne,_,heq⟩ |
    ⟨hne,_,_,a',st,hst,hlive,_,_,_,heq⟩
  · rw [heq]
    exact ⟨h.kept.snoc (fun _ => rfl),hover p hex⟩
  · rw [heq]
    exact ⟨h.kept.snoc (fun hex => absurd hex hne),hover _ rfl⟩
  · rw [heq]
    exact ⟨h.kept.snoc (fun hex => absurd hex hne),hover _ rfl⟩
  · rw [heq]
    refine ⟨h.kept.snoc (fun hex => absurd hex hne),fun halive hstopped => ?_⟩
    rcases hlive with hlive | hlive
    · exact absurd (hlive.symm.trans halive) (by decide)
    · exact absurd (hlive.symm.trans hstopped) (by decide)

theorem passJob_spec (i : ℕ) (w : Waiting σ) :
    Cellwise Stays w.table (passJob os i w).2.table ∧
      ((passJob os i w).1.alive = false → (passJob os i w).1.anyStopped = false →
        ∀ job, (passJob os i w).2.table[i]? = some job → job.AllExited) := by
  unfold passJob
  split
  · next hnone =>
    refine ⟨Cellwise.refl Stays.refl _,fun _ _ job hjob => ?_⟩
    rw [hnone] at hjob
    cases hjob
  · next job hjob =>
    have hloop := foldSweep_induct (f := passProc os)
      (P := fun a done done' _ => PassLoop a done done') job.procs (b := ⟨false,false,w.reaped⟩)
      (s := w.env) ⟨fun _ hp => absurd hp (by simp),by simp⟩ (fun _ _ _ p s h => h.visit os p s)
    refine ⟨Cellwise.set Stays.refl hjob ?_,fun halive hstopped job' hjob' => ?_⟩
    · refine fun hs => ⟨fun hact => ?_,rfl,rfl⟩
      obtain ⟨hrep,hlead⟩ := hs hact
      refine ⟨hrep,fun hf => ?_⟩
      obtain ⟨p,hp,hpid,hex⟩ := hlead hf
      exact ⟨p,hloop.kept p hp hex,hpid,hex⟩
    · rw [List.getElem?_set_self (List.getElem?_eq_some_iff.mp hjob).1] at hjob'
      cases hjob'
      exact hloop.ended halive hstopped

theorem resumeLoop_spec {i : ℕ} {timeout : Bool} {pauses : List Pause} {w w' : Waiting σ}
    {outcome : Outcome} (h : resumeLoop os i timeout pauses w = some (outcome,w')) :
    Cellwise Stays w.table w'.table ∧
      (outcome = .done → ∀ job, w'.table[i]? = some job → job.AllExited) := by
  induction pauses generalizing w with
  | nil => cases h
  | cons pause rest ih =>
    simp only [resumeLoop] at h
    have hhandlers := runHandlers_stays os pause.handlers (w.table,w.env)
    split at h
    · cases h
      exact ⟨hhandlers,by simp⟩
    · obtain ⟨hpass,hover⟩ := passJob_spec os i
        { w with
          table := (runHandlers os pause.handlers (w.table,w.env)).1
          env := (runHandlers os pause.handlers (w.table,w.env)).2 }
      have hstays := hhandlers.trans hpass (fun _ _ _ => Stays.trans)
      split at h
      · cases h
        exact ⟨hstays,by simp⟩
      · next hstopped =>
        split at h
        · obtain ⟨hrest,hdone⟩ := ih h
          exact ⟨hstays.trans hrest (fun _ _ _ => Stays.trans),hdone⟩
        · next halive =>
          cases h
          exact ⟨hstays,fun _ => hover (by simpa using halive) (by simpa using hstopped)⟩

theorem resumeLoop_stays {i : ℕ} {timeout : Bool} {pauses : List Pause} {table : List Job} {env : σ}
    {w : Waiting σ} {outcome : Outcome}
    (h : resumeLoop os i timeout pauses ⟨(jobsRefreshStates os table env).1.modify i Job.continueAll,
      (jobsRefreshStates os table env).2,[]⟩ = some (outcome,w)) : Cellwise Stays table w.table := by
  have hcont := (jobsRefreshStates_stays os table env).trans
    (Cellwise.modify _ i Stays.refl (fun job _ => job.continueAll_stays)) (fun _ _ _ => Stays.trans)
  exact hcont.trans (resumeLoop_spec os h).1 (fun _ _ _ => Stays.trans)

/-! ## Jobs that leave -/

/-- What a call does to a job that it may take out of the table. -/
def Leaves (ended : Job → Prop) (job job' : Job) : Prop :=
  job.Sound → job'.Sound ∧ (job'.active = true → job.active = true ∧ job'.jobId = job.jobId) ∧
    (job.active = true → job'.active = false → ended job')

theorem Stays.leaves {ended : Job → Prop} {job job' : Job} (h : Stays job job') :
    Leaves ended job job' := by
  intro hs
  obtain ⟨hs',hact,hid⟩ := h hs
  refine ⟨hs',fun ha => ⟨hact ▸ ha,hid⟩,fun ha hn => ?_⟩
  rw [hact, ha] at hn
  cases hn

theorem Stays.trans_leaves {ended : Job → Prop} {a b c : Job} (h : Stays a b) (k : Leaves ended b c) :
    Leaves ended a c := by
  intro ha
  obtain ⟨hb,hab,hid⟩ := h ha
  obtain ⟨hc,horigin,hover⟩ := k hb
  refine ⟨hc,fun hact => ?_,fun hact => hover (hab.trans hact)⟩
  obtain ⟨hbact,hbid⟩ := horigin hact
  exact ⟨hab ▸ hbact,hbid.trans hid⟩

theorem Job.complete_leaves (job : Job) : Leaves Job.LeaderExited job job.complete := by
  unfold Job.complete
  split
  · next hc =>
    simp only [Job.completed, Bool.and_eq_true] at hc
    intro hs
    exact ⟨fun hact => absurd hact (by simp),fun hact => absurd hact (by simp),
      fun hact _ => (hs hact).2 hc.1.1.2⟩
  · exact (Stays.refl job).leaves

theorem Job.leave_leaves {ended : Job → Prop} (job : Job) (h : ended job.leave) :
    Leaves ended job job.leave :=
  fun _ => ⟨fun hact => absurd hact (by simp [Job.leave]),
    fun hact => absurd hact (by simp [Job.leave]),fun _ _ => h⟩

end Os

/-! ## Jobs that are added -/

theorem modifyFirst_cellwise {R : Job → Job → Prop} (hR : ∀ job, R job job) {p : Job → Bool}
    {f : Job → Job} (hf : ∀ job, p job = true → R job (f job)) (table : List Job) :
    Cellwise R table (modifyFirst p f table) := by
  induction table with
  | nil => exact fun i job hjob => absurd hjob (by simp [modifyFirst])
  | cons job rest ih =>
    intro i job' hjob'
    rw [modifyFirst] at hjob'
    split at hjob'
    · next hp =>
      cases i with
      | zero =>
        cases hjob'
        exact ⟨job,rfl,hf job hp⟩
      | succ i => exact ⟨job',hjob',hR job'⟩
    · cases i with
      | zero =>
        cases hjob'
        exact ⟨job,rfl,hR job⟩
      | succ i => exact ih i job' hjob'

/-- With a fresh number the second loop of `jobs_add_stopped` finds the slot
that was just filled. -/
theorem jobsAddStopped_eq {jobId pgid : ℕ} {procs : List (ℕ × CString)} {fullCmd : CString}
    {table : List Job} (hfresh : ∀ job ∈ table, job.active = true → job.jobId ≠ jobId) :
    jobsAddStopped jobId pgid procs fullCmd table =
      modifyFirst (fun job => !job.active)
        (fun _ => (newJob jobId pgid procs fullCmd).stopAll) table := by
  induction table with
  | nil => rfl
  | cons job rest ih =>
    have hrest := ih (fun j hj => hfresh j (List.mem_cons_of_mem _ hj))
    simp only [jobsAddStopped, jobsAddPipeline] at hrest
    cases hact : job.active with
    | false => simp [jobsAddStopped,jobsAddPipeline,modifyFirst,hact,newJob]
    | true =>
      have hid := hfresh job List.mem_cons_self hact
      simp [jobsAddStopped,jobsAddPipeline,modifyFirst,hact,hid,hrest]

/-- A slot is unchanged, or was free and holds the new job. -/
def Joins (new job job' : Job) : Prop := job' = job ∨ (job.active = false ∧ job' = new)

theorem modifyFirst_joins (new : Job) (table : List Job) :
    Cellwise (Joins new) table (modifyFirst (fun job => !job.active) (fun _ => new) table) :=
  modifyFirst_cellwise (fun _ => Or.inl rfl) (fun _ h => Or.inr ⟨by simpa using h,rfl⟩) table

/-! ## Every call -/

/-- The table between two calls. -/
def Invariant {σ : Type*} (s : Shell σ) : Prop :=
  ∀ job ∈ s.table, job.Sound ∧ (job.active = true → job.jobId < s.nextJobId)

/-- What holds of a job when the call gives up its slot or announces its exit:
all its processes have exited, or for `jobs_check_completed` its group leader,
which is the only process of a single command. -/
def Event.Over : Event → Job → Prop
  | .checkCompleted, job => job.LeaderExited ∧ ∀ p, job.procs = [p] → p.state = .exited
  | _, job => job.AllExited

theorem Job.LeaderExited.single {job : Job} (h : job.LeaderExited) {p : Proc}
    (hp : job.procs = [p]) : p.state = .exited := by
  obtain ⟨q,hq,_,hex⟩ := h
  rw [hp, List.mem_singleton] at hq
  rwa [← hq]

theorem invariant_of_leaves {σ : Type*} {ended : Job → Prop} {s t : Shell σ} (hi : Invariant s)
    (hnext : t.nextJobId = s.nextJobId) (h : Cellwise (Leaves ended) s.table t.table) :
    Invariant t ∧ Cellwise (fun job job' => job.active = true → job'.active = false → ended job')
      s.table t.table := by
  constructor
  · intro job' hjob'
    obtain ⟨i,hget⟩ := List.mem_iff_getElem?.mp hjob'
    obtain ⟨job,hjob,hleaves⟩ := h i job' hget
    obtain ⟨hs,hid⟩ := hi job (List.mem_of_getElem? hjob)
    obtain ⟨hs',horigin,_⟩ := hleaves hs
    refine ⟨hs',fun hact => ?_⟩
    obtain ⟨hact',heq⟩ := horigin hact
    rw [heq, hnext]
    exact hid hact'
  · intro i job' hget
    obtain ⟨job,hjob,hleaves⟩ := h i job' hget
    exact ⟨job,hjob,(hleaves (hi job (List.mem_of_getElem? hjob)).1).2.2⟩

theorem invariant_of_joins {σ : Type*} {new : Job} {s t : Shell σ} (hi : Invariant s)
    (hnew : new.Sound ∧ new.jobId = s.nextJobId) (hnext : t.nextJobId = s.nextJobId + 1)
    (ended : Job → Prop) (h : Cellwise (Joins new) s.table t.table) :
    Invariant t ∧ Cellwise (fun job job' => job.active = true → job'.active = false → ended job')
      s.table t.table := by
  constructor
  · intro job' hjob'
    obtain ⟨i,hget⟩ := List.mem_iff_getElem?.mp hjob'
    obtain ⟨job,hjob,hjoins⟩ := h i job' hget
    rcases hjoins with rfl | ⟨_,rfl⟩
    · obtain ⟨hs,hid⟩ := hi job' (List.mem_of_getElem? hjob)
      exact ⟨hs,fun hact => by have := hid hact; omega⟩
    · exact ⟨hnew.1,fun _ => by omega⟩
  · intro i job' hget
    obtain ⟨job,hjob,hjoins⟩ := h i job' hget
    refine ⟨job,hjob,fun hact hn => ?_⟩
    rcases hjoins with rfl | ⟨hfree,_⟩
    · rw [hact] at hn
      cases hn
    · rw [hact] at hfree
      cases hfree

theorem Invariant.addStopped {σ : Type*} {s : Shell σ} (hi : Invariant s) {pgid : ℕ}
    {procs : List (ℕ × CString)} {fullCmd : CString} :
    jobsAddStopped s.nextJobId pgid procs fullCmd s.table =
      modifyFirst (fun job => !job.active)
        (fun _ => (newJob s.nextJobId pgid procs fullCmd).stopAll) s.table := by
  refine jobsAddStopped_eq (fun job hjob hact => ?_)
  have := (hi job hjob).2 hact
  omega

theorem jobsAddStopped_joins {σ : Type*} {s : Shell σ} (hi : Invariant s) {pgid : ℕ}
    {procs : List (ℕ × CString)} {fullCmd : CString} :
    Cellwise (Joins (newJob s.nextJobId pgid procs fullCmd).stopAll) s.table
      (jobsAddStopped s.nextJobId pgid procs fullCmd s.table) := by
  rw [hi.addStopped]
  exact modifyFirst_joins _ _

theorem newJob_sound (jobId pgid : ℕ) (procs : List (ℕ × CString)) (fullCmd : CString) :
    (newJob jobId pgid procs fullCmd).Sound ∧ (newJob jobId pgid procs fullCmd).stopAll.Sound :=
  ⟨fun _ => ⟨rfl,fun hf => by cases hf⟩,fun _ => ⟨rfl,fun hf => by cases hf⟩⟩

section Step
variable {σ : Type*} {os : Os σ} {s t : Shell σ}

theorem jobsCheckCompleted_leaves (table : List Job) (env : σ) :
    Cellwise (Leaves (Event.Over .checkCompleted)) table (jobsCheckCompleted os table env).1 := by
  refine (jobsRefreshStates_stays os table env).trans (Cellwise.map Job.complete_leaves _) ?_
  intro a b c hab hbc ha
  obtain ⟨hs,horigin,hover⟩ := hab.trans_leaves hbc ha
  exact ⟨hs,horigin,fun hact hn => ⟨hover hact hn,fun p hp => (hover hact hn).single hp⟩⟩

theorem jobsResumeBg_stays (jobId : ℕ) (table : List Job) (env : σ) :
    Cellwise Stays table (jobsResumeBg os jobId table env).1 := by
  have hrefresh := jobsRefreshStates_stays os table env
  rcases jobsResumeBg_cases os jobId table env with heq | ⟨i,out,_,heq⟩
  · rw [heq]
    exact hrefresh
  · rw [heq]
    exact hrefresh.trans (Cellwise.modify _ i Stays.refl (fun job _ => job.continueAll_stays))
      (fun _ _ _ => Stays.trans)

theorem finishFg_leaves {i : ℕ} {w : Waiting σ} {outcome : Outcome}
    (h : outcome = .done → ∀ job, w.table[i]? = some job → job.AllExited) :
    Cellwise (Leaves (fun job => .timedOut ∈ (finishFg i w outcome).2 ∨ job.AllExited)) w.table
      (finishFg i w outcome).1 := by
  have hrefl : ∀ {ended : Job → Prop} (job : Job), Leaves ended job job :=
    fun job => (Stays.refl job).leaves
  cases outcome with
  | timedOut =>
    refine Cellwise.modify _ i hrefl (fun job _ => job.leave_leaves (Or.inl ?_))
    exact List.mem_singleton_self _
  | stopped => exact Cellwise.modify _ i hrefl (fun job _ => Stays.leaves (fun hs => ⟨hs,rfl,rfl⟩))
  | done =>
    refine Cellwise.modify _ i hrefl (fun job hjob => job.leave_leaves (Or.inr ?_))
    exact h rfl job hjob

theorem jobsResumeFg_leaves {jobId timeoutSeconds : ℕ} {pauses : List Pause} {late : Bool}
    {table : List Job} {env : σ} {r : List Job × σ × List Line × List ℕ}
    (h : jobsResumeFg os jobId timeoutSeconds pauses late table env = some r) :
    Cellwise (Leaves (fun job => .timedOut ∈ r.2.2.1 ∨ job.AllExited)) table r.1 := by
  have hrefresh := jobsRefreshStates_stays os table env
  rcases jobsResumeFg_cases os h with rfl | ⟨i,outcome,last,w,shown,_,hloop,hlast,rfl⟩
  · exact hrefresh.trans (Cellwise.refl Stays.refl _) (fun _ _ _ k l => (k.trans l).leaves)
  · have hdone := (resumeLoop_spec os hloop).2
    refine (resumeLoop_stays os hloop).trans (finishFg_leaves ?_) (fun a b c hab hbc ha => ?_)
    · intro hout
      rcases hlast with hlast | hlast
      · rw [hlast] at hout
        cases hout
      · exact hdone (hlast ▸ hout)
    · obtain ⟨hs,horigin,hover⟩ := hab.trans_leaves hbc ha
      refine ⟨hs,horigin,fun hact hn => ?_⟩
      rcases hover hact hn with hout | hall
      · exact Or.inl (List.mem_append_right _ hout)
      · exact Or.inr hall

/-- One call keeps the table sound and gives up only slots of jobs that are
over, or that have timed out. -/
theorem step_spec {e : Event} (hi : Invariant s) (h : step os s e = some t) :
    Invariant t ∧ Cellwise (fun job job' => job.active = true → job'.active = false →
      .timedOut ∈ t.out ∨ e.Over job') s.table t.table := by
  have hstays : ∀ {l : List Job}, Cellwise Stays s.table l →
      Cellwise (Leaves (fun job => .timedOut ∈ t.out ∨ e.Over job)) s.table l := by
    intro l hl i job' hjob'
    obtain ⟨job,hjob,hst⟩ := hl i job' hjob'
    exact ⟨job,hjob,hst.leaves⟩
  cases e with
  | addPipeline pgid procs fullCmd =>
    cases h
    exact invariant_of_joins hi ⟨(newJob_sound _ _ _ _).1,rfl⟩ rfl _ (modifyFirst_joins _ _)
  | addStopped pgid procs fullCmd =>
    cases h
    exact invariant_of_joins hi ⟨(newJob_sound s.nextJobId pgid procs fullCmd).2,rfl⟩ rfl _
      (jobsAddStopped_joins hi)
  | handler =>
    cases h
    exact invariant_of_leaves hi rfl (hstays (sigchldHandler_stays os _ _))
  | refresh =>
    cases h
    exact invariant_of_leaves hi rfl (hstays (jobsRefreshStates_stays os _ _))
  | checkCompleted =>
    cases h
    refine invariant_of_leaves hi rfl ?_
    intro i job' hjob'
    obtain ⟨job,hjob,hl⟩ := jobsCheckCompleted_leaves s.table s.env i job' hjob'
    exact ⟨job,hjob,fun hs => ⟨(hl hs).1,(hl hs).2.1,fun hact hn => Or.inr ((hl hs).2.2 hact hn)⟩⟩
  | resumeBg jobId =>
    cases h
    exact invariant_of_leaves hi rfl (hstays (jobsResumeBg_stays jobId _ _))
  | resumeFg jobId timeoutSeconds pauses late =>
    obtain ⟨r,hr,rfl⟩ := Option.map_eq_some_iff.mp h
    exact invariant_of_leaves hi rfl (jobsResumeFg_leaves hr)

theorem Invariant.reachable {env : σ} (h : Reachable (step os) (start env) s) : Invariant s := by
  refine h.invariant ?_ (fun _ _ _ hi _ he => (step_spec hi he).1)
  intro job hjob
  rw [List.eq_of_mem_replicate hjob]
  exact ⟨fun hact => absurd hact Bool.false_ne_true,fun hact => absurd hact Bool.false_ne_true⟩

/-- Only `jobs_check_completed` announces an exit, and the announced job leaves
in the same call. -/
theorem step_prints {e : Event} (hi : Invariant s) (h : step os s e = some t) {name : CString}
    {pgid : ℕ} {b : Bool} (hline : .exited name pgid b ∈ t.out) :
    ∃ (i : ℕ) (job job' : Job), s.table[i]? = some job ∧ t.table[i]? = some job' ∧
      job.active = true ∧ job'.active = false ∧ job'.line = .exited name pgid b ∧
      e.Over job' := by
  cases e with
  | addPipeline pgid procs fullCmd =>
    cases h
    cases hline
  | addStopped pgid procs fullCmd =>
    cases h
    cases hline
  | handler =>
    cases h
    cases hline
  | refresh =>
    cases h
    cases hline
  | checkCompleted =>
    cases h
    obtain ⟨job1,hmem,hprint⟩ := List.mem_map.mp hline
    obtain ⟨hmem,hcompleted⟩ := List.mem_filter.mp hmem
    obtain ⟨i,hget⟩ := List.mem_iff_getElem?.mp hmem
    obtain ⟨job,hjob,hstays⟩ := jobsRefreshStates_stays os s.table s.env i job1 hget
    obtain ⟨hs,hact,_⟩ := hstays (hi job (List.mem_of_getElem? hjob)).1
    have hgone : job1.complete = { job1 with reported := true, active := false } := by
      simp [Job.complete,hcompleted]
    simp only [Job.completed, Bool.and_eq_true] at hcompleted
    have hlead : job1.LeaderExited := (hs hcompleted.1.1.1).2 hcompleted.1.1.2
    refine ⟨i,job,job1.complete,hjob,?_,hact ▸ hcompleted.1.1.1,by rw [hgone],?_,?_⟩
    · show ((jobsRefreshStates os s.table s.env).1.map Job.complete)[i]? = _
      rw [List.getElem?_map, hget, Option.map_some]
    · rw [hgone]
      exact hprint
    · rw [hgone]
      exact ⟨hlead,fun p hp => hlead.single hp⟩
  | resumeBg jobId =>
    cases h
    rcases jobsResumeBg_cases os jobId s.table s.env with heq | ⟨i,out,hout,heq⟩
    · simp [heq] at hline
    · rw [heq] at hline
      exact absurd hline (hout name pgid b)
  | resumeFg jobId timeoutSeconds pauses late =>
    obtain ⟨r,hr,rfl⟩ := Option.map_eq_some_iff.mp h
    rcases jobsResumeFg_cases os hr with rfl | ⟨i,outcome,last,w,shown,_,_,_,rfl⟩
    · simp at hline
    · cases last <;> simp [finishFg] at hline

end Step

/-- Whenever a call makes a slot inactive or prints that its job exited, the job
is over in the sense of that call, except when `jobs_resume_fg` timed out. -/
theorem job_leaves_when_over {σ : Type*} (os : Os σ) (env : σ) {s t : Shell σ} {e : Event}
    (hr : Reachable (step os) (start env) s) (he : step os s e = some t) :
    (∀ (i : ℕ) (job job' : Job), s.table[i]? = some job → t.table[i]? = some job' →
      job.active = true → job'.active = false → .timedOut ∈ t.out ∨ e.Over job') ∧
    ∀ name pgid b, .exited name pgid b ∈ t.out → ∃ (i : ℕ) (job job' : Job),
      s.table[i]? = some job ∧ t.table[i]? = some job' ∧ job.active = true ∧
      job'.active = false ∧ job'.line = .exited name pgid b ∧ e.Over job' := by
  have hi := Invariant.reachable hr
  refine ⟨fun i job job' hjob hjob' hact hn => ?_,fun _ _ _ hline => step_prints hi he hline⟩
  exact (step_spec hi he).2.get hjob hjob' hact hn

/-- Every process that is asked for has just ended. -/
def endingOs : Os Unit where
  waitpid _ _ _ := (.got (.exited false),())
  procStat _ _ := (.missing,())
  waitpid_flags _ _ _ _ := by simp

/-- Every process keeps running. -/
def runningOs : Os Unit where
  waitpid _ _ _ := (.nothing,())
  procStat _ _ := (.state 'S',())
  waitpid_flags _ _ _ _ := by simp

def oneJob : Shell Unit :=
  ⟨newJob 1 7 [(7,"a".toList)] "a".toList :: List.replicate 255 emptyJob,2,(),[]⟩

theorem oneJob_reachable (os : Os Unit) : Reachable (step os) (start ()) oneJob :=
  Runs.single (e := .addPipeline 7 [(7,"a".toList)] "a".toList) trivial (by
    simp only [step, start, jobsAddPipeline, maxBgJobs, List.replicate_succ (n := 255), modifyFirst]
    rfl)

theorem job_leaves_when_over_single :
    ∃ t, step endingOs oneJob .checkCompleted = some t ∧ t.out = [.exited "a".toList 7 false] ∧
      ∃ job', t.table[0]? = some job' ∧ job'.active = false ∧ Event.checkCompleted.Over job' := by
  refine ⟨_,rfl,by decide +kernel,_,rfl,rfl,?_⟩
  have h := (job_leaves_when_over endingOs () (oneJob_reachable endingOs)
    (e := .checkCompleted) rfl).1 0 _ _ rfl rfl rfl rfl
  exact h.resolve_left (by decide +kernel)

/-- `resume` with a timeout removes a job whose process is still running. -/
theorem resumeFg_timeout_removes_running :
    ∃ t, Reachable (step runningOs) (start ()) oneJob ∧
      step runningOs oneJob (.resumeFg 1 1 [⟨0,true⟩] false) = some t ∧
      (oneJob.table[0]?.map Job.active) = some true ∧ (t.table[0]?.map Job.active) = some false ∧
      (t.table[0]?.map Job.procs) = some [⟨7,"a".toList,.running⟩] :=
  ⟨_,oneJob_reachable runningOs,rfl,rfl,by decide +kernel,by decide +kernel⟩

end CShellXv6.Jobs
