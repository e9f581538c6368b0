import CShellXv6.Shell.Tracking
import Mathlib.Data.List.Sort

/-! # The numbers of the jobs

Slots are used again and numbers are not. Whatever the operating system answers,
the active slots of a running shell have different numbers, an exit is printed once
for a number, and `activities` lists the active jobs in the order of their numbers.
-/
namespace CShellXv6.Jobs
open Lexer Sweep

/-! ## The listing -/

inductive ActivityLine
  | header (jobId pgid : ℕ)
  | process (pid : ℕ) (cmdName state : CString)
  deriving DecidableEq, Repr

def Proc.activity (p : Proc) : ActivityLine :=
  .process p.pid p.cmdName
    (if p.state = .stopped then "Stopped".toList else "Running".toList)

def Job.activities (job : Job) : List ActivityLine :=
  .header job.jobId job.pgid ::
    (job.procs.filter (fun p => p.state != .exited)).map Proc.activity

/-- The difference is computed in an `int`. -/
def compareJobPtrs (a b : Job) : ℤ := ((a.jobId : ℤ) - b.jobId).bmod 4294967296

def qsort (jobs : List Job) : List Job := jobs.insertionSort (fun a b => compareJobPtrs a b ≤ 0)

def Job.listed (job : Job) : Bool := job.active && job.alive

def jobsRefreshAndPrintActivities {σ : Type*} (os : Os σ) (table : List Job) (s : σ) :
    List Job × σ × List ActivityLine :=
  let r := jobsRefreshStates os table s
  (r.1,r.2,(qsort (r.1.filter Job.listed)).flatMap Job.activities)

theorem orderedInsert_congr {α : Type*} {r q : α → α → Prop} [DecidableRel r] [DecidableRel q]
    {a : α} {l : List α} (h : ∀ b ∈ l, r a b ↔ q a b) :
    l.orderedInsert r a = l.orderedInsert q a := by
  induction l with
  | nil => rfl
  | cons b l ih =>
    obtain ⟨hb,hl⟩ := List.forall_mem_cons.mp h
    simp only [List.orderedInsert, hb, ih hl]

theorem insertionSort_congr {α : Type*} {r q : α → α → Prop} [DecidableRel r] [DecidableRel q]
    {l : List α} (h : ∀ a ∈ l, ∀ b ∈ l, r a b ↔ q a b) : l.insertionSort r = l.insertionSort q := by
  induction l with
  | nil => rfl
  | cons a l ih =>
    have hrest : l.insertionSort r = l.insertionSort q := by
      apply ih
      intro b hb c hc
      exact h b (List.mem_cons_of_mem _ hb) c (List.mem_cons_of_mem _ hc)
    rw [List.insertionSort_cons, List.insertionSort_cons, hrest]
    apply orderedInsert_congr
    intro b hb
    exact h a List.mem_cons_self b
      (List.mem_cons_of_mem _ ((List.perm_insertionSort q l).mem_iff.mp hb))

/-- Differences of small numbers do not overflow. -/
theorem compareJobPtrs_le_iff {a b : Job} (ha : a.jobId < 2147483648) (hb : b.jobId < 2147483648) :
    compareJobPtrs a b ≤ 0 ↔ a.jobId ≤ b.jobId := by
  have hdiff : compareJobPtrs a b = (a.jobId : ℤ) - b.jobId :=
    Int.bmod_eq_of_le (by omega) (by omega)
  rw [hdiff]
  omega

instance : Std.Total (fun a b : Job => a.jobId ≤ b.jobId) := ⟨fun _ _ => Nat.le_total _ _⟩

instance : IsTrans Job (fun a b => a.jobId ≤ b.jobId) := ⟨fun _ _ _ => Nat.le_trans⟩

theorem qsort_pairwise {jobs : List Job} (h : ∀ job ∈ jobs, job.jobId < 2147483648) :
    (qsort jobs).Pairwise (fun a b => a.jobId ≤ b.jobId) := by
  have hsort : qsort jobs = jobs.insertionSort (fun a b => a.jobId ≤ b.jobId) := by
    apply insertionSort_congr
    intro a ha b hb
    exact compareJobPtrs_le_iff (h a ha) (h b hb)
  rw [hsort]
  exact List.pairwise_insertionSort _ _

/-! ## Different numbers -/

def Distinct (a b : Job) : Prop := a.active = true → b.active = true → a.jobId ≠ b.jobId

theorem Distinct.symm {a b : Job} (h : Distinct a b) : Distinct b a :=
  fun hb ha heq => h ha hb heq.symm

instance : Std.Symm Distinct := ⟨fun _ _ => Distinct.symm⟩

theorem Persists.distinct {a a' b b' : Job} (ha : Persists a a') (hb : Persists b b')
    (h : Distinct a b) : Distinct a' b' := by
  intro hact hact'
  rw [ha.jobId, hb.jobId]
  exact h (ha.active hact) (hb.active hact')

theorem modifyFirst_elsewhere {p : Job → Bool} {a b : Job} (ha : p a = false) {table : List Job}
    {i : ℕ} (h : (modifyFirst p (fun _ => a) table)[i]? = table[i]?) :
    (modifyFirst p (fun _ => b) table)[i]? = table[i]? := by
  induction table generalizing i with
  | nil => rfl
  | cons job rest ih =>
    unfold modifyFirst at h ⊢
    split
    · next hp =>
      cases i with
      | zero =>
        rw [if_pos hp] at h
        cases h
        rw [ha] at hp
        cases hp
      | succ i => rfl
    · next hp =>
      rw [if_neg hp] at h
      cases i with
      | zero => rfl
      | succ i => exact ih h

/-- The active slots of a table when the numbers below `next` have been given out. -/
structure Numbered (table : List Job) (next : ℕ) : Prop where
  distinct : table.Pairwise Distinct
  range : ∀ job ∈ table, job.active = true → 1 ≤ job.jobId ∧ job.jobId < next
  size : ∀ job ∈ table, job.active = true →
    1 ≤ job.procs.length ∧ job.procs.length ≤ maxPidsPerJob

theorem SameJob.length_procs {job job' : Job} (h : SameJob job job') :
    job'.procs.length = job.procs.length := by
  have hpids := congrArg List.length h.pids
  simpa only [Job.pids, List.length_map] using hpids

namespace Numbered
variable {table table' : List Job} {next : ℕ}

theorem persists (h : Numbered table next) (hc : Cellwise Persists table table') :
    Numbered table' next := by
  have hold : ∀ job' ∈ table', job'.active = true →
      ∃ job ∈ table, job.active = true ∧ Persists job job' := by
    intro job' hjob' hact
    obtain ⟨i,hget⟩ := List.mem_iff_getElem?.mp hjob'
    obtain ⟨job,hjob,hp⟩ := hc i job' hget
    exact ⟨job,List.mem_of_getElem? hjob,hp.active hact,hp⟩
  refine ⟨hc.pairwise (fun _ _ _ _ => Persists.distinct) h.distinct,?_,?_⟩
  · intro job' hjob' hact
    obtain ⟨job,hjob,hact',hp⟩ := hold job' hjob' hact
    rw [hp.jobId]
    exact h.range job hjob hact'
  · intro job' hjob' hact
    obtain ⟨job,hjob,hact',hp⟩ := hold job' hjob' hact
    rw [hp.toSameJob.length_procs]
    exact h.size job hjob hact'

theorem mono (h : Numbered table next) {next' : ℕ} (hnext : next ≤ next') :
    Numbered table next' := by
  refine ⟨h.distinct,fun job hjob hact => ?_,h.size⟩
  obtain ⟨hpos,hlt⟩ := h.range job hjob hact
  exact ⟨hpos,hlt.trans_le hnext⟩

theorem fresh (h : Numbered table next) {new : Job} (hid : new.jobId = next) :
    ∀ job ∈ table, Distinct job new := by
  intro job hjob hact _ heq
  have hlt := (h.range job hjob hact).2
  omega

theorem join (h : Numbered table next) {new : Job} (hid : new.jobId = next) (hpos : 1 ≤ next)
    (hsize : 1 ≤ new.procs.length ∧ new.procs.length ≤ maxPidsPerJob) :
    Numbered (modifyFirst (fun job => !job.active) (fun _ => new) table) (next + 1) := by
  refine ⟨?_,fun job hjob hact => ?_,fun job hjob hact => ?_⟩
  · exact modifyFirst_pairwise (fun _ _ => Distinct.symm) h.distinct (h.fresh hid)
  · rcases mem_modifyFirst hjob with hjob | rfl
    · exact (h.mono (Nat.le_succ _)).range job hjob hact
    · omega
  · rcases mem_modifyFirst hjob with hjob | rfl
    · exact h.size job hjob hact
    · exact hsize

theorem addStopped_eq (h : Numbered table next) (pgid : ℕ) (procs : List (ℕ × CString))
    (fullCmd : CString) :
    jobsAddStopped next pgid procs fullCmd table =
      modifyFirst (fun job => !job.active)
        (fun _ => (newJob next pgid procs fullCmd).stopAll) table := by
  apply jobsAddStopped_eq
  intro job hjob hact
  exact Nat.ne_of_lt (h.range job hjob hact).2

/-- The second loop of `jobs_add_stopped` finds the slot that the first one filled. -/
theorem addStopped_elsewhere (h : Numbered table next) {pgid : ℕ} {procs : List (ℕ × CString)}
    {fullCmd : CString} {i : ℕ}
    (hi : (jobsAddPipeline next pgid procs fullCmd table)[i]? = table[i]?) :
    (jobsAddStopped next pgid procs fullCmd table)[i]? = table[i]? := by
  rw [h.addStopped_eq]
  exact modifyFirst_elsewhere rfl hi

theorem addStopped_full (h : Numbered table next) (hfull : ∀ job ∈ table, job.active = true)
    (pgid : ℕ) (procs : List (ℕ × CString)) (fullCmd : CString) :
    jobsAddStopped next pgid procs fullCmd table = table := by
  rw [h.addStopped_eq]
  induction table with
  | nil => rfl
  | cons job rest ih =>
    obtain ⟨hjob,hrest⟩ := List.forall_mem_cons.mp hfull
    have hnumbered : Numbered rest next :=
      ⟨(List.pairwise_cons.mp h.distinct).2,fun a ha => h.range a (List.mem_cons_of_mem _ ha),
        fun a ha => h.size a (List.mem_cons_of_mem _ ha)⟩
    simp only [modifyFirst, hjob, Bool.not_true, Bool.false_eq_true, ↓reduceIte, ih hnumbered hrest]

/-- Every active job with a process that has not exited is listed once, in the order
of the numbers. -/
theorem activities {σ : Type*} (h : Numbered table next) (hnext : next ≤ 2147483648) (os : Os σ)
    (s : σ) :
    ∃ jobs : List Job, (jobsRefreshAndPrintActivities os table s).2.2 = jobs.flatMap Job.activities ∧
      jobs.Perm ((jobsRefreshStates os table s).1.filter Job.listed) ∧
      jobs.Pairwise (fun a b => a.jobId < b.jobId) := by
  have hafter := h.persists (jobsRefreshStates_persists os table s)
  generalize hr : (jobsRefreshStates os table s).1 = refreshed at hafter
  have hactive : ∀ job ∈ refreshed.filter Job.listed, job ∈ refreshed ∧ job.active = true := by
    intro job hjob
    obtain ⟨hmem,hlisted⟩ := List.mem_filter.mp hjob
    simp only [Job.listed, Bool.and_eq_true] at hlisted
    exact ⟨hmem,hlisted.1⟩
  have hperm : (qsort (refreshed.filter Job.listed)).Perm (refreshed.filter Job.listed) :=
    List.perm_insertionSort _ _
  have hle : (qsort (refreshed.filter Job.listed)).Pairwise (fun a b => a.jobId ≤ b.jobId) := by
    apply qsort_pairwise
    intro job hjob
    obtain ⟨hmem,hact⟩ := hactive job hjob
    exact (hafter.range job hmem hact).2.trans_le hnext
  have hne : (qsort (refreshed.filter Job.listed)).Pairwise Distinct :=
    (hafter.distinct.filter Job.listed).perm hperm.symm (fun h => h.symm)
  refine ⟨qsort (refreshed.filter Job.listed),?_,hperm,?_⟩
  · rw [← hr]
    rfl
  · apply (hle.and hne).imp_of_mem
    intro a b ha hb hab
    obtain ⟨_,hacta⟩ := hactive a (hperm.mem_iff.mp ha)
    obtain ⟨_,hactb⟩ := hactive b (hperm.mem_iff.mp hb)
    exact lt_of_le_of_ne hab.1 (hab.2 hacta hactb)

end Numbered

theorem Job.complete_active {job : Job} (h : job.complete.active = true) :
    job.completed = false ∧ job.complete = job := by
  unfold Job.complete at h ⊢
  split at h
  · cases h
  · next hc => exact ⟨by simpa using hc,if_neg hc⟩

theorem step_nextJobId {σ : Type*} {os : Os σ} {s t : Shell σ} {e : Event} (hadds : e.adds = false)
    (h : step os s e = some t) : t.nextJobId = s.nextJobId := by
  cases e with
  | addPipeline pgid procs fullCmd => cases hadds
  | addStopped pgid procs fullCmd => cases hadds
  | resumeFg jobId timeoutSeconds pauses late =>
    obtain ⟨r,_,rfl⟩ := Option.map_eq_some_iff.mp h
    rfl
  | _ =>
    cases h
    rfl

end CShellXv6.Jobs

namespace CShellXv6.Commands
open Lexer Launch Jobs Transition Sweep

/-! ## Printed exits -/

section
variable {σ : Type*} {os : Os σ} {s t : System σ}

/-- The jobs whose exit a step prints. -/
def System.completions (os : Os σ) (s : System σ) : Event → List Job
  | .checkCompleted =>
    (jobsRefreshStates (logged os) s.shell.table (s.env,s.shell.calls)).1.filter Job.completed
  | _ => []

/-- A step together with the numbers of all jobs whose exit was printed so far. -/
def noted (os : Os σ) (s : System σ × List ℕ) (e : Event) : Option (System σ × List ℕ) :=
  (step os s.1 e).map fun t => (t,s.2 ++ (s.1.completions os e).map Job.jobId)

theorem checkCompleted_out (h : step os s .checkCompleted = some t) :
    t.shell.out = (s.completions os .checkCompleted).map fun job => .job job.line := by
  obtain ⟨_,hrun⟩ := Option.ite_none_right_eq_some.mp h
  cases hrun
  exact List.map_map

/-- A number below the next one that no active slot has. -/
def Retired (s : System σ) (jobId : ℕ) : Prop :=
  jobId < s.shell.nextJobId ∧ ∀ job ∈ s.shell.table, job.active = true → job.jobId ≠ jobId

theorem Retired.persists {jobId : ℕ} (h : Retired s jobId)
    (hc : Cellwise Persists s.shell.table t.shell.table)
    (hnext : t.shell.nextJobId = s.shell.nextJobId) : Retired t jobId := by
  refine ⟨hnext ▸ h.1,fun job' hjob' hact => ?_⟩
  obtain ⟨i,hget⟩ := List.mem_iff_getElem?.mp hjob'
  obtain ⟨job,hjob,hp⟩ := hc i job' hget
  rw [hp.jobId]
  exact h.2 job (List.mem_of_getElem? hjob) (hp.active hact)

theorem launch_numbered (hs : Tracked s) (hnum : Numbered s.shell.table s.shell.nextJobId)
    (hpos : 1 ≤ s.shell.nextJobId) (background : Bool) (list : TokenList) (a : Answers) :
    Numbered (s.launch background list a).state.table (s.launch background list a).state.nextJobId ∧
      s.shell.nextJobId ≤ (s.launch background list a).state.nextJobId := by
  rcases launch_table hs background list a with ⟨htable,_,hnext,_⟩ |
    ⟨new,forks,_,_,hid,hpids,⟨hne,_,_⟩,htable,_,hnext,_⟩
  · rw [htable]
    exact ⟨hnum.mono hnext,hnext⟩
  · have hlength : new.procs.length = min maxPidsPerJob forks.length := by
      have hlen := congrArg List.length hpids
      simpa only [Job.pids, List.length_map, List.length_take] using hlen
    have hforks : 0 < forks.length := List.length_pos_of_ne_nil hne
    have hmax : 0 < maxPidsPerJob := by decide
    rw [htable, hnext]
    exact ⟨hnum.join hid hpos (by omega),Nat.le_succ _⟩

theorem Retired.launched (hs : Tracked s) {jobId : ℕ} (h : Retired s jobId) (background : Bool)
    (list : TokenList) (a : Answers) (live : Bool) :
    Retired { s with shell := (s.launch background list a).state, live := live } jobId := by
  rcases launch_table hs background list a with ⟨htable,_,hnext,_⟩ |
    ⟨new,forks,_,_,hid,_,_,htable,_,hnext,_⟩
  · refine ⟨h.1.trans_le hnext,?_⟩
    dsimp only
    rw [htable]
    exact h.2
  · refine ⟨?_,?_⟩
    · dsimp only
      rw [hnext]
      exact h.1.trans (Nat.lt_succ_self _)
    · dsimp only
      rw [htable]
      intro job hjob hact
      rcases mem_modifyFirst hjob with hjob | rfl
      · exact h.2 job hjob hact
      · rw [hid]
        exact Nat.ne_of_gt h.1

theorem Retired.step {e : Event} (hs : Tracked s) {jobId : ℕ} (h : Retired s jobId)
    (he : step os s e = some t) : Retired t jobId := by
  rcases step_cases he with ⟨background,list,a,_,_,rfl⟩ | ⟨je,r,cs,hadds,hr,_,rfl⟩ | ⟨cs,_,rfl⟩
  · exact h.launched hs background list a _
  · exact h.persists (step_persists hadds hr) (step_nextJobId hadds hr)
  · exact h

/-- The numbers of the printed exits are different and belong to no active slot. -/
structure Accounted (s : System σ × List ℕ) : Prop where
  tracked : Tracked s.1
  numbered : Numbered s.1.shell.table s.1.shell.nextJobId
  positive : 1 ≤ s.1.shell.nextJobId
  nodup : s.2.Nodup
  retired : ∀ jobId ∈ s.2, Retired s.1 jobId

theorem step_numbered {e : Event} (hs : Tracked s)
    (hnum : Numbered s.shell.table s.shell.nextJobId) (hpos : 1 ≤ s.shell.nextJobId)
    (he : step os s e = some t) :
    Numbered t.shell.table t.shell.nextJobId ∧ s.shell.nextJobId ≤ t.shell.nextJobId := by
  rcases step_cases he with ⟨background,list,a,_,_,rfl⟩ | ⟨je,r,cs,hadds,hr,_,rfl⟩ | ⟨cs,_,rfl⟩
  · exact launch_numbered hs hnum hpos background list a
  · have hnext : r.nextJobId = s.shell.nextJobId := step_nextJobId hadds hr
    refine ⟨?_,hnext.ge⟩
    rw [System.after, hnext]
    exact hnum.persists (step_persists hadds hr)
  · exact ⟨hnum,le_rfl⟩

/-- The jobs whose exit is printed were active and have left. -/
theorem completions_spec {e : Event} (hnum : Numbered s.shell.table s.shell.nextJobId)
    (he : step os s e = some t) :
    ((s.completions os e).map Job.jobId).Nodup ∧
      ∀ jobId ∈ (s.completions os e).map Job.jobId, ¬Retired s jobId ∧ Retired t jobId := by
  cases e with
  | checkCompleted =>
    obtain ⟨_,hrun⟩ := Option.ite_none_right_eq_some.mp he
    cases hrun
    have hpersists := jobsRefreshStates_persists (logged os) s.shell.table (s.env,s.shell.calls)
    have hafter := hnum.persists hpersists
    unfold System.completions
    generalize hr : (jobsRefreshStates (logged os) s.shell.table (s.env,s.shell.calls)).1 =
      refreshed at hpersists hafter
    have hactive : ∀ job ∈ refreshed.filter Job.completed, job ∈ refreshed ∧ job.active = true := by
      intro job hjob
      obtain ⟨hmem,hcompleted⟩ := List.mem_filter.mp hjob
      simp only [Job.completed, Bool.and_eq_true] at hcompleted
      exact ⟨hmem,hcompleted.1.1.1⟩
    refine ⟨?_,fun jobId hjobId => ?_⟩
    · apply List.pairwise_map.mpr
      apply (hafter.distinct.filter Job.completed).imp_of_mem
      intro a b ha hb hab
      exact hab (hactive a ha).2 (hactive b hb).2
    · obtain ⟨job,hjob,rfl⟩ := List.mem_map.mp hjobId
      obtain ⟨hmem,hact⟩ := hactive job hjob
      constructor
      · intro hretired
        obtain ⟨i,hget⟩ := List.mem_iff_getElem?.mp hmem
        obtain ⟨old,hold,hp⟩ := hpersists i job hget
        exact hretired.2 old (List.mem_of_getElem? hold) (hp.active hact) hp.jobId.symm
      · refine ⟨(hafter.range job hmem hact).2,fun left hleft hactive' => ?_⟩
        have hleft' : left ∈ refreshed.map Job.complete := hr ▸ hleft
        obtain ⟨other,hother,rfl⟩ := List.mem_map.mp hleft'
        obtain ⟨hnot,heq⟩ := other.complete_active hactive'
        have hne : other ≠ job := by
          rintro rfl
          rw [(List.mem_filter.mp hjob).2] at hnot
          cases hnot
        rw [heq] at hactive' ⊢
        exact hafter.distinct.forall hother hmem hne hactive' hact
  | _ => simp [System.completions]

theorem Accounted.step {s t : System σ × List ℕ} {e : Event} (h : Accounted s)
    (he : noted os s e = some t) : Accounted t := by
  obtain ⟨u,hu,rfl⟩ := Option.map_eq_some_iff.mp he
  obtain ⟨hnumbered,hnext⟩ := step_numbered h.tracked h.numbered h.positive hu
  obtain ⟨hnodup,hretired⟩ := completions_spec h.numbered hu
  refine ⟨h.tracked.step hu,hnumbered,h.positive.trans hnext,?_,?_⟩
  · apply List.nodup_append.mpr
    refine ⟨h.nodup,hnodup,?_⟩
    rintro jobId hold _ hnew rfl
    exact (hretired jobId hnew).1 (h.retired jobId hold)
  · intro jobId hjobId
    rcases List.mem_append.mp hjobId with hold | hnew
    · exact (h.retired jobId hold).step h.tracked hu
    · exact (hretired jobId hnew).2

theorem reachable_accounted {env : σ} {s : System σ × List ℕ}
    (h : Reachable (noted os) (start env,[]) s) : Accounted s := by
  refine h.invariant ⟨start_tracked env,?_,le_rfl,List.nodup_nil,by simp⟩
    (fun _ _ _ hs _ he => hs.step he)
  have hempty : ∀ job ∈ (start env).shell.table, job.active ≠ true := by
    intro job hjob
    rw [List.eq_of_mem_replicate hjob]
    decide
  refine ⟨?_,fun job hjob hact => absurd hact (hempty job hjob),
    fun job hjob hact => absurd hact (hempty job hjob)⟩
  apply List.pairwise_of_forall_mem_list
  intro a ha b _ hact
  exact absurd hact (hempty a ha)

/-- In every run the active slots have different numbers that were given out, and
between 1 and 64 processes. No number has its exit printed twice. A job that is added
as stopped changes at most the slot that it fills. The listing has every active job
with a process that has not exited once, in the order of the numbers. -/
theorem job_numbers {env : σ} {s : System σ} {printed : List ℕ}
    (h : Reachable (noted os) (start env,[]) (s,printed)) (hids : s.shell.nextJobId ≤ 2 ^ 31) :
    (s.shell.table.Pairwise Distinct ∧
      ∀ job ∈ s.shell.table, job.active = true →
        (1 ≤ job.jobId ∧ job.jobId ≤ s.shell.nextJobId - 1) ∧
        (1 ≤ job.procs.length ∧ job.procs.length ≤ 64)) ∧
    (printed.Nodup ∧ ∀ t, step os s .checkCompleted = some t →
      t.shell.out = (s.completions os .checkCompleted).map fun job => .job job.line) ∧
    (∀ (pgid : ℕ) (procs : List (ℕ × CString)) (cmd : CString),
      (∀ i : ℕ, (jobsAddPipeline s.shell.nextJobId pgid procs cmd s.shell.table)[i]? =
          s.shell.table[i]? →
        (jobsAddStopped s.shell.nextJobId pgid procs cmd s.shell.table)[i]? =
          s.shell.table[i]?) ∧
      ((∀ job ∈ s.shell.table, job.active = true) →
        jobsAddStopped s.shell.nextJobId pgid procs cmd s.shell.table = s.shell.table)) ∧
    ∃ jobs : List Job,
      (jobsRefreshAndPrintActivities (logged os) s.shell.table (s.env,s.shell.calls)).2.2 =
        jobs.flatMap Job.activities ∧
      jobs.Perm ((jobsRefreshStates (logged os) s.shell.table
        (s.env,s.shell.calls)).1.filter Job.listed) ∧
      jobs.Pairwise (fun a b => a.jobId < b.jobId) := by
  obtain ⟨_,hnum,_,hnodup,_⟩ := reachable_accounted h
  refine ⟨⟨hnum.distinct,fun job hjob hact => ⟨?_,hnum.size job hjob hact⟩⟩,
    ⟨hnodup,fun t ht => checkCompleted_out ht⟩,fun pgid procs cmd => ⟨?_,?_⟩,?_⟩
  · have hrange := hnum.range job hjob hact
    dsimp only at hrange
    omega
  · intro i hi
    exact hnum.addStopped_elsewhere hi
  · intro hfull
    exact hnum.addStopped_full hfull pgid procs cmd
  · exact hnum.activities hids (logged os) (s.env,s.shell.calls)

end

/-- The job `a | b &` is started, its processes end, and its exit is printed. -/
theorem job_numbers_firstJob :
    ∃ s, Reachable (noted endingOs) (start (),[]) (s,[1]) ∧ s.shell.nextJobId = 2 ∧
      s.shell.table.Pairwise Distinct ∧ [1].Nodup := by
  have hrun : ((execute (noted endingOs) (start (),[])
      [.group true onePipe smooth,.checkCompleted]).map fun r => (r.1.shell.nextJobId,r.2)) =
        some (2,[1]) := by
    decide +kernel
  obtain ⟨⟨s,printed⟩,hs,heq⟩ := Option.map_eq_some_iff.mp hrun
  obtain ⟨hnext,rfl⟩ := Prod.mk.inj heq
  have hreach : Reachable (noted endingOs) (start (),[]) (s,[1]) :=
    Runs.of_events (fun _ _ => trivial) hs
  have hnumbers := job_numbers hreach (by dsimp only at hnext; omega)
  exact ⟨s,hreach,hnext,hnumbers.1.1,hnumbers.2.1.1⟩

end CShellXv6.Commands
