import CShellXv6.Shell.MainLoop
import CShellXv6.Shell.Persist

/-! # The life of a recorded process

After a refresh the stop flag of a job agrees with the states of its processes,
whatever the operating system answers. When the answers are those of processes that
die once, a process that is recorded as exited stays so: the handler still asks about
it, but gets no news of a stop or a continue.
-/
namespace CShellXv6.Jobs
open Lexer Process Sweep Transition
open MainLoop (jobsHasStopped)

/-! ## Stop flags -/

section Flags
variable {σ : Type*} (os : Os σ)

/-- The flag of the refresh loop tells whether one of the visited processes is
stopped. -/
def Scan.Exact (a : Scan) (done : List Proc) : Prop :=
  a.anyStopped = true ↔ ∃ p ∈ done, p.state = .stopped

theorem Scan.Exact.snoc {a a' : Scan} {done : List Proc} (h : a.Exact done) {p : Proc}
    (ha : a'.anyStopped = (a.anyStopped || p.state == .stopped)) : a'.Exact (done ++ [p]) := by
  unfold Scan.Exact at h ⊢
  rw [ha, Bool.or_eq_true, h]
  simp only [List.mem_append, List.mem_singleton, beq_iff_eq]
  constructor
  · rintro (⟨q,hq,hstate⟩ | hp)
    · exact ⟨q,Or.inl hq,hstate⟩
    · exact ⟨p,Or.inr rfl,hp⟩
  · rintro ⟨q,hq | rfl,hstate⟩
    · exact Or.inl ⟨q,hq,hstate⟩
    · exact Or.inr hstate

theorem refreshProc_anyStopped (a : Scan) (p : Proc) (s : σ) :
    (refreshProc os a p s).1.anyStopped =
      (a.anyStopped || (refreshProc os a p s).2.1.state == .stopped) := by
  rcases refreshProc_cases os a p s with ⟨hex,heq⟩ | ⟨_,_,_,heq⟩ | ⟨_,_,heq⟩ | ⟨_,_,_,st,hst,heq⟩
  · rw [heq, hex]
    simp
  · rw [heq]
    simp
  · rw [heq]
    simp
  · rw [heq]
    rcases inspectProc_cases os a { p with state := st } (os.waitpid s p.pid pollFlags).2 hst with
      ⟨st',_,heq⟩ | ⟨_,heq⟩
    · rw [heq]
    · rw [heq]
      simp

theorem refreshJob_isStopped {job : Job} {s : σ} (hact : (refreshJob os job s).1.active = true) :
    (refreshJob os job s).1.isStopped = true ↔
      ∃ p ∈ (refreshJob os job s).1.procs, p.state = .stopped := by
  have hexact := foldSweep_induct (f := refreshProc os) (P := fun a _ done' _ => a.Exact done')
    job.procs (b := ⟨job,false,false⟩) (s := s) (by simp [Scan.Exact])
    (fun a _ _ p s h => h.snoc (refreshProc_anyStopped os a p s))
  unfold refreshJob at hact ⊢
  split
  · dsimp only
    split
    · exact hexact
    · exact hexact
  · next hidle =>
    rw [if_neg hidle] at hact
    exact absurd hact hidle

theorem jobsRefreshStates_isStopped {table : List Job} {s : σ} :
    ∀ job ∈ (jobsRefreshStates os table s).1, job.active = true →
      (job.isStopped = true ↔ ∃ p ∈ job.procs, p.state = .stopped) := by
  intro job hjob hact
  obtain ⟨i,hget⟩ := List.mem_iff_getElem?.mp hjob
  have hcells := sweep_cellwise (f := refreshJob os) (R := fun _ job' => job'.active = true →
    (job'.isStopped = true ↔ ∃ p ∈ job'.procs, p.state = .stopped))
    (fun _ _ => refreshJob_isStopped os) table s
  obtain ⟨_,_,hstop⟩ := hcells i job hget
  exact hstop hact

theorem jobsHasStopped_iff (table : List Job) (s : σ) :
    jobsHasStopped os table s = true ↔ ∃ job ∈ (jobsRefreshStates os table s).1,
      job.active = true ∧ ∃ p ∈ job.procs, p.state = .stopped := by
  unfold jobsHasStopped
  rw [List.any_eq_true]
  constructor
  · rintro ⟨job,hjob,hcond⟩
    obtain ⟨hact,hstop⟩ := Bool.and_eq_true_iff.mp hcond
    exact ⟨job,hjob,hact,(jobsRefreshStates_isStopped os job hjob hact).mp hstop⟩
  · rintro ⟨job,hjob,hact,hstop⟩
    refine ⟨job,hjob,Bool.and_eq_true_iff.mpr ⟨hact,?_⟩⟩
    exact (jobsRefreshStates_isStopped os job hjob hact).mpr hstop

end Flags

/-! ## Processes that die once -/

/-- The answers are about processes that stay dead: a dead one has no news of a stop
or a continue, and only a dead one has an exit status, is no child or shows as gone. -/
structure Truthful {σ : Type*} (os : Os σ) (dead : σ → ℕ → Prop) : Prop where
  waitpid : ∀ s pid flags q, dead s q → dead (os.waitpid s pid flags).2 q
  procStat : ∀ s pid q, dead s q → dead (os.procStat s pid).2 q
  silent : ∀ s pid flags, dead s pid → (os.waitpid s pid flags).1 ≠ .got .stopped ∧
    (os.waitpid s pid flags).1 ≠ .got .continued
  exited : ∀ s pid flags signaled, (os.waitpid s pid flags).1 = .got (.exited signaled) →
    dead (os.waitpid s pid flags).2 pid
  noChild : ∀ s pid flags, (os.waitpid s pid flags).1 = .noChild →
    dead (os.waitpid s pid flags).2 pid
  gone : ∀ s pid, (os.procStat s pid).1 = .missing ∨ (os.procStat s pid).1 = .state 'Z' →
    dead (os.procStat s pid).2 pid

section Dead
variable {σ : Type*} {os : Os σ} {dead : σ → ℕ → Prop} (hos : Truthful os dead)

/-- What one look at a process does. -/
structure Look (dead : σ → ℕ → Prop) (p : Proc) (s : σ) (p' : Proc) (s' : σ) : Prop where
  mono : ∀ q, dead s q → dead s' q
  keeps : p.state = .exited → dead s p.pid → p' = p
  ended : p'.state = .exited → p' = p ∨ dead s' p'.pid

include hos

theorem handlerProc_look (job : Job) (p : Proc) (s : σ) :
    Look dead p s (handlerProc os job p s).2.1 (handlerProc os job p s).2.2 := by
  have hmono := hos.waitpid s p.pid pollFlags
  have hsilent := hos.silent s p.pid pollFlags
  have hexited := hos.exited s p.pid pollFlags
  cases hw : (os.waitpid s p.pid pollFlags).1 with
  | got r =>
    cases r with
    | exited signaled =>
      simp only [handlerProc, hw]
      refine ⟨hmono,fun hex _ => ?_,fun _ => Or.inr (hexited signaled hw)⟩
      rw [← hex]
    | stopped =>
      simp only [handlerProc, hw]
      exact ⟨hmono,fun _ hdead => absurd hw (hsilent hdead).1,fun hst => by cases hst⟩
    | continued =>
      simp only [handlerProc, hw]
      exact ⟨hmono,fun _ hdead => absurd hw (hsilent hdead).2,fun hst => by cases hst⟩
  | nothing =>
    simp only [handlerProc, hw]
    exact ⟨hmono,fun _ _ => rfl,fun _ => Or.inl rfl⟩
  | noChild =>
    simp only [handlerProc, hw]
    exact ⟨hmono,fun _ _ => rfl,fun _ => Or.inl rfl⟩

theorem refreshProc_look (a : Scan) (p : Proc) (s : σ) :
    Look dead p s (refreshProc os a p s).2.1 (refreshProc os a p s).2.2 := by
  have hmono := hos.waitpid s p.pid pollFlags
  rcases refreshProc_cases os a p s with ⟨hex,heq⟩ | ⟨hne,signaled,hw,heq⟩ | ⟨hne,hw,heq⟩ |
    ⟨hne,_,_,st,hst,heq⟩
  · rw [heq]
    exact ⟨fun _ => id,fun _ _ => rfl,fun _ => Or.inl rfl⟩
  · rw [heq]
    exact ⟨hmono,fun hex => absurd hex hne,fun _ => Or.inr (hos.exited s p.pid pollFlags signaled hw)⟩
  · rw [heq]
    exact ⟨hmono,fun hex => absurd hex hne,fun _ => Or.inr (hos.noChild s p.pid pollFlags hw)⟩
  · rw [heq]
    have hboth : ∀ q, dead s q →
        dead (os.procStat (os.waitpid s p.pid pollFlags).2 p.pid).2 q :=
      fun q hq => hos.procStat _ p.pid q (hmono q hq)
    rcases inspectProc_cases os a { p with state := st } (os.waitpid s p.pid pollFlags).2 hst with
      ⟨st',hst',heq⟩ | ⟨hgone,heq⟩
    · rw [heq]
      exact ⟨hboth,fun hex => absurd hex hne,fun hst => absurd hst hst'⟩
    · rw [heq]
      exact ⟨hboth,fun hex => absurd hex hne,fun _ => Or.inr (hos.gone _ p.pid hgone)⟩

theorem passProc_look (a : Pass) (p : Proc) (s : σ) :
    Look dead p s (passProc os a p s).2.1 (passProc os a p s).2.2 := by
  have hmono := hos.waitpid s p.pid resumeFlags
  rcases passProc_cases os a p s with ⟨hex,heq⟩ | ⟨hne,⟨signaled,hw⟩,heq⟩ | ⟨hne,hw,heq⟩ |
    ⟨hne,_,_,a',st,hst,_,_,_,_,heq⟩
  · rw [heq]
    exact ⟨fun _ => id,fun _ _ => rfl,fun _ => Or.inl rfl⟩
  · rw [heq]
    exact ⟨hmono,fun hex => absurd hex hne,
      fun _ => Or.inr (hos.exited s p.pid resumeFlags signaled hw)⟩
  · rw [heq]
    exact ⟨hmono,fun hex => absurd hex hne,fun _ => Or.inr (hos.noChild s p.pid resumeFlags hw)⟩
  · rw [heq]
    exact ⟨hmono,fun hex => absurd hex hne,fun hst' => absurd hst' hst⟩

omit hos

/-! ### Whole jobs -/

/-- Processes that are recorded as exited are dead. -/
def Ended (dead : σ → ℕ → Prop) (procs : List Proc) (s : σ) : Prop :=
  ∀ p ∈ procs, p.state = .exited → dead s p.pid

theorem Ended.mono {procs : List Proc} {s s' : σ} (h : Ended dead procs s)
    (hmono : ∀ q, dead s q → dead s' q) : Ended dead procs s' :=
  fun p hp hex => hmono _ (h p hp hex)

/-- Processes that are recorded as exited stay as they are. -/
def StayExited (procs procs' : List Proc) : Prop :=
  ∀ (k : ℕ) (p : Proc), procs[k]? = some p → p.state = .exited → procs'[k]? = some p

theorem StayExited.refl (procs : List Proc) : StayExited procs procs := fun _ _ hp _ => hp

theorem StayExited.trans {a b c : List Proc} (h : StayExited a b) (k : StayExited b c) :
    StayExited a c :=
  fun i p hp hex => k i p (h i p hp hex) hex

theorem StayExited.snoc {done done' : List Proc} (h : StayExited done done')
    (hlength : done'.length = done.length) {p p' : Proc} (hp : p.state = .exited → p' = p) :
    StayExited (done ++ [p]) (done' ++ [p']) := by
  intro k q hq hex
  rw [List.getElem?_append] at hq ⊢
  rw [hlength]
  split at hq
  · next hk =>
    rw [if_pos hk]
    exact h k q hq hex
  · next hk =>
    rw [if_neg hk]
    rw [List.getElem?_singleton] at hq ⊢
    split at hq
    · next hzero =>
      cases hq
      rw [if_pos hzero, hp hex]
    · cases hq

/-- What a loop over the processes of a job does. -/
structure Watch (dead : σ → ℕ → Prop) (procs : List Proc) (s : σ) (procs' : List Proc)
    (s' : σ) : Prop where
  mono : ∀ q, dead s q → dead s' q
  length : procs'.length = procs.length
  stay : Ended dead procs s → StayExited procs procs'
  ended : Ended dead procs s → Ended dead procs' s'

theorem foldSweep_watch {β : Type*} {f : β → Proc → σ → β × Proc × σ}
    (hf : ∀ b p s, Look dead p s (f b p s).2.1 (f b p s).2.2) (b : β) (procs : List Proc) (s : σ) :
    Watch dead procs s (foldSweep f b procs s).2.1 (foldSweep f b procs s).2.2 := by
  refine foldSweep_induct (P := fun _ done done' s' => Watch dead done s done' s') procs
    ⟨fun _ => id,rfl,fun _ => StayExited.refl [],fun h => h⟩ ?_
  intro b done done' p s' h
  have hlook := hf b p s'
  have hfront : Ended dead (done ++ [p]) s → Ended dead done s ∧
      (p.state = .exited → dead s' p.pid) := by
    intro hended
    refine ⟨fun q hq => hended q (List.mem_append_left _ hq),fun hex => ?_⟩
    exact h.mono _ (hended p (List.mem_append_right _ (List.mem_singleton_self p)) hex)
  refine ⟨fun q hq => hlook.mono q (h.mono q hq),?_,fun hended => ?_,fun hended => ?_⟩
  · rw [List.length_append, List.length_append, h.length]
    rfl
  · obtain ⟨hdone,hp⟩ := hfront hended
    exact (h.stay hdone).snoc h.length (fun hex => hlook.keeps hex (hp hex))
  · obtain ⟨hdone,hp⟩ := hfront hended
    intro q hq hex
    rcases List.mem_append.mp hq with hq | hq
    · exact hlook.mono _ (h.ended hdone q hq hex)
    · rw [List.mem_singleton.mp hq] at hex ⊢
      rcases hlook.ended hex with heq | hdead
      · rw [heq] at hex ⊢
        exact hlook.mono _ (hp hex)
      · exact hdead

theorem Watch.refl (procs : List Proc) (s : σ) : Watch dead procs s procs s :=
  ⟨fun _ => id,rfl,fun _ => StayExited.refl procs,id⟩

theorem continueAll_watch (job : Job) (s : σ) :
    Watch dead job.procs s job.continueAll.procs s := by
  refine ⟨fun _ => id,List.length_map _,fun _ k p hp hex => ?_,fun hended p' hp' hex => ?_⟩
  · simp only [Job.continueAll, List.getElem?_map, hp, Option.map_some, hex, reduceCtorEq, ↓reduceIte]
  · obtain ⟨p,hp,rfl⟩ := List.mem_map.mp hp'
    split at hex
    · cases hex
    · next hst =>
      rw [if_neg hst]
      exact hended p hp hex

/-! ### Whole tables -/

/-- What a call on the table does. -/
structure Guards (dead : σ → ℕ → Prop) (table : List Job) (s : σ) (table' : List Job)
    (s' : σ) : Prop where
  mono : ∀ q, dead s q → dead s' q
  length : table'.length = table.length
  cells : ∀ (i : ℕ) (job job' : Job), table[i]? = some job → table'[i]? = some job' →
    Ended dead job.procs s → StayExited job.procs job'.procs ∧ Ended dead job'.procs s'

namespace Guards
variable {table table' table'' : List Job} {s s' s'' : σ}

theorem refl (table : List Job) (s : σ) : Guards dead table s table s := by
  refine ⟨fun _ => id,rfl,fun i job job' hjob hjob' hended => ?_⟩
  rw [hjob] at hjob'
  cases hjob'
  exact ⟨StayExited.refl _,hended⟩

theorem trans (h : Guards dead table s table' s') (k : Guards dead table' s' table'' s'') :
    Guards dead table s table'' s'' := by
  refine ⟨fun q hq => k.mono q (h.mono q hq),k.length.trans h.length,
    fun i job job'' hjob hjob'' hended => ?_⟩
  have hi : i < table'.length := by
    rw [h.length]
    exact (List.getElem?_eq_some_iff.mp hjob).1
  have hjob' : table'[i]? = some table'[i] := List.getElem?_eq_getElem hi
  obtain ⟨hstay,hended'⟩ := h.cells i job _ hjob hjob' hended
  obtain ⟨hstay',hended''⟩ := k.cells i _ job'' hjob' hjob'' hended'
  exact ⟨hstay.trans hstay',hended''⟩

theorem sweep {f : Job → σ → Job × σ}
    (hf : ∀ job s, Watch dead job.procs s (f job s).1.procs (f job s).2) (table : List Job) (s : σ) :
    Guards dead table s (Sweep.sweep f table s).1 (Sweep.sweep f table s).2 := by
  induction table generalizing s with
  | nil => exact refl [] s
  | cons job rest ih =>
    have hfirst := hf job s
    have hrest := ih (f job s).2
    refine ⟨fun q hq => hrest.mono q (hfirst.mono q hq),congrArg Nat.succ hrest.length,?_⟩
    intro i a a' ha ha' hended
    cases i with
    | zero =>
      cases ha
      cases ha'
      exact ⟨hfirst.stay hended,(hfirst.ended hended).mono hrest.mono⟩
    | succ i => exact hrest.cells i a a' ha ha' (hended.mono hfirst.mono)

/-- One slot is rewritten. -/
theorem modify {g : Job → Job} {i : ℕ}
    (hmono : ∀ q, dead s q → dead s' q)
    (hg : ∀ job, table[i]? = some job → Watch dead job.procs s (g job).procs s') :
    Guards dead table s (table.modify i g) s' := by
  refine ⟨hmono,List.length_modify ..,fun j job job' hjob hjob' hended => ?_⟩
  rw [List.getElem?_modify, hjob, Option.map_eq_map, Option.map_some] at hjob'
  split at hjob'
  · next hij =>
    subst hij
    cases hjob'
    exact ⟨(hg job hjob).stay hended,(hg job hjob).ended hended⟩
  · cases hjob'
    exact ⟨StayExited.refl _,hended.mono hmono⟩

theorem map {g : Job → Job} (hg : ∀ job, (g job).procs = job.procs) (table : List Job) (s : σ) :
    Guards dead table s (table.map g) s := by
  refine ⟨fun _ => id,List.length_map _,fun i job job' hjob hjob' hended => ?_⟩
  rw [List.getElem?_map, hjob, Option.map_some] at hjob'
  cases hjob'
  rw [hg]
  exact ⟨StayExited.refl _,hended⟩

end Guards

section Calls
include hos

theorem sigchldHandler_guards (table : List Job) (s : σ) :
    Guards dead table s (sigchldHandler os table s).1 (sigchldHandler os table s).2 := by
  apply Guards.sweep
  intro job s
  unfold handlerJob
  split
  · exact foldSweep_watch (handlerProc_look hos) job job.procs s
  · exact Watch.refl job.procs s

theorem jobsRefreshStates_guards (table : List Job) (s : σ) :
    Guards dead table s (jobsRefreshStates os table s).1 (jobsRefreshStates os table s).2 := by
  apply Guards.sweep
  intro job s
  have hloop := foldSweep_watch (refreshProc_look hos) ⟨job,false,false⟩ job.procs s
  unfold refreshJob
  split
  · dsimp only
    split
    · exact hloop
    · exact hloop
  · exact Watch.refl job.procs s

theorem passJob_guards (i : ℕ) (w : Waiting σ) :
    Guards dead w.table w.env (passJob os i w).2.table (passJob os i w).2.env := by
  unfold passJob
  split
  · exact Guards.refl w.table w.env
  · next job hjob =>
    have hloop := foldSweep_watch (passProc_look hos) ⟨false,false,w.reaped⟩ job.procs w.env
    dsimp only
    rw [List.set_eq_modify]
    apply Guards.modify hloop.mono
    intro a ha
    rw [hjob] at ha
    cases ha
    exact hloop

omit hos in
theorem finishFg_guards (i : ℕ) (w : Waiting σ) (outcome : Outcome) :
    Guards dead w.table w.env (finishFg i w outcome).1 w.env := by
  cases outcome with
  | timedOut => exact Guards.modify (fun _ => id) (fun job _ => Watch.refl job.procs w.env)
  | stopped => exact Guards.modify (fun _ => id) (fun job _ => Watch.refl job.procs w.env)
  | done => exact Guards.modify (fun _ => id) (fun job _ => Watch.refl job.procs w.env)

theorem carries_guards : Carries os (fun x y => Guards dead x.1 x.2 y.1 y.2) where
  refl x := Guards.refl x.1 x.2
  trans h k := h.trans k
  handler x := sigchldHandler_guards hos x.1 x.2
  refresh x := jobsRefreshStates_guards hos x.1 x.2
  complete x := by
    apply Guards.map
    intro job
    unfold Job.complete
    split
    · rfl
    · rfl
  continueAll i x := Guards.modify (fun _ => id) (fun job _ => continueAll_watch job x.2)
  pass := passJob_guards hos
  finish := finishFg_guards

theorem step_guards {s t : Shell σ} {e : Event} (hadds : e.adds = false)
    (h : step os s e = some t) : Guards dead s.table s.env t.table t.env :=
  (carries_guards hos).step hadds h

omit hos in
theorem added_env {s t : Shell σ} {e : Event} (hadds : e.adds = true)
    (h : step os s e = some t) : t.env = s.env := by
  cases e with
  | addPipeline pgid procs fullCmd =>
    cases h
    rfl
  | addStopped pgid procs fullCmd =>
    cases h
    rfl
  | _ => cases hadds

omit hos in
/-- A slot is unchanged or has no process that is recorded as exited. -/
theorem added_fresh {s : Shell σ} {t : Shell σ} {e : Event} (hadds : e.adds = true)
    (h : step os s e = some t) :
    Cellwise (fun job job' => job' = job ∨ ∀ p ∈ job'.procs, p.state ≠ .exited) s.table t.table := by
  have hnew : ∀ pgid procs fullCmd, ∀ p ∈ (newJob s.nextJobId pgid procs fullCmd).procs,
      p.state ≠ .exited := by
    intro pgid procs fullCmd p hp
    obtain ⟨_,_,rfl⟩ := List.mem_map.mp hp
    simp
  have hstop : ∀ job : Job, ∀ p ∈ job.stopAll.procs, p.state ≠ .exited := by
    intro job p hp
    obtain ⟨_,_,rfl⟩ := List.mem_map.mp hp
    simp
  cases e with
  | addPipeline pgid procs fullCmd =>
    cases h
    exact modifyFirst_cellwise (fun _ => Or.inl rfl) (fun _ _ => Or.inr (hnew pgid procs fullCmd)) _
  | addStopped pgid procs fullCmd =>
    cases h
    have hfill : Cellwise (fun job job' => job' = job ∨ ∀ p ∈ job'.procs, p.state ≠ .exited) s.table
        (jobsAddPipeline s.nextJobId pgid procs fullCmd s.table) :=
      modifyFirst_cellwise (fun _ => Or.inl rfl) (fun _ _ => Or.inr (hnew pgid procs fullCmd)) _
    have hmark : Cellwise (fun job job' => job' = job ∨ ∀ p ∈ job'.procs, p.state ≠ .exited)
        (jobsAddPipeline s.nextJobId pgid procs fullCmd s.table)
        (jobsAddStopped s.nextJobId pgid procs fullCmd s.table) :=
      modifyFirst_cellwise (fun _ => Or.inl rfl) (fun job _ => Or.inr (hstop job)) _
    apply hfill.trans hmark
    rintro job job' job'' hjob' (rfl | hfresh)
    · exact hjob'
    · exact Or.inr hfresh
  | _ => cases hadds

/-- In no slot is a living process recorded as exited. -/
theorem reachable_ended {env : σ} {s : Shell σ} (h : Reachable (step os) (start env) s) :
    ∀ job ∈ s.table, Ended dead job.procs s.env := by
  refine h.invariant (I := fun s => ∀ job ∈ s.table, Ended dead job.procs s.env) ?_ ?_
  · intro job hjob p hp
    rw [List.eq_of_mem_replicate hjob] at hp
    cases hp
  · intro s e t hs _ he job' hjob'
    obtain ⟨i,hget⟩ := List.mem_iff_getElem?.mp hjob'
    cases hadds : e.adds with
    | true =>
      obtain ⟨job,hjob,hfresh⟩ := added_fresh hadds he i job' hget
      have henv : t.env = s.env := added_env hadds he
      rw [henv]
      rcases hfresh with rfl | hfresh
      · exact hs job' (List.mem_of_getElem? hjob)
      · exact fun p hp hex => absurd hex (hfresh p hp)
    | false =>
      have hguards := step_guards hos hadds he
      have hi : i < s.table.length := by
        rw [← hguards.length]
        exact (List.getElem?_eq_some_iff.mp hget).1
      have hjob : s.table[i]? = some s.table[i] := List.getElem?_eq_getElem hi
      exact (hguards.cells i _ job' hjob hget (hs _ (List.getElem_mem hi))).2

/-- Right after a refresh every active job has its stop flag exactly when one of its
processes is stopped, so `jobs_has_stopped` is exact. No call moves a process out of
the exited state. -/
theorem process_lifecycle {env : σ} {s : Shell σ} (h : Reachable (step os) (start env) s) :
    (∀ job ∈ (jobsRefreshStates os s.table s.env).1, job.active = true →
      (job.isStopped = true ↔ ∃ p ∈ job.procs, p.state = .stopped)) ∧
    (jobsHasStopped os s.table s.env = true ↔ ∃ job ∈ (jobsRefreshStates os s.table s.env).1,
      job.active = true ∧ ∃ p ∈ job.procs, p.state = .stopped) ∧
    ∀ e t, e.adds = false → step os s e = some t →
      ∀ (i : ℕ) (job : Job), s.table[i]? = some job → job.active = true →
        ∃ job', t.table[i]? = some job' ∧ StayExited job.procs job'.procs := by
  refine ⟨jobsRefreshStates_isStopped os,jobsHasStopped_iff os s.table s.env,?_⟩
  intro e t hadds he i job hjob _
  have hguards := step_guards hos hadds he
  have hi : i < t.table.length := by
    rw [hguards.length]
    exact (List.getElem?_eq_some_iff.mp hjob).1
  have hjob' : t.table[i]? = some t.table[i] := List.getElem?_eq_getElem hi
  have hended := reachable_ended hos h job (List.mem_of_getElem? hjob)
  exact ⟨_,hjob',(hguards.cells i job _ hjob hjob' hended).1⟩

end Calls

end Dead

/-! ## Children of the shell -/

theorem unixOs_truthful : Truthful unixOs (fun u pid => (u.children pid).dead = true) where
  waitpid u pid flags q hq := by
    rcases u.waitpid_cases pid flags with ⟨_,_,_,hlater⟩ | ⟨_,_,hlater⟩ | ⟨_,_,_,hlater⟩
    · exact hlater.dead q hq
    · exact hlater.dead q hq
    · exact hlater.dead q hq
  procStat u pid q hq := (u.procStat_spec pid).1.dead q hq
  silent u pid flags hdead := by
    rcases u.waitpid_cases pid flags with ⟨_,hgot,_⟩ | ⟨hno,_⟩ | ⟨_,_,halive,hlater⟩
    · change (u.waitpid pid flags).1 ≠ _ ∧ (u.waitpid pid flags).1 ≠ _
      rw [hgot]
      simp
    · change (u.waitpid pid flags).1 ≠ _ ∧ (u.waitpid pid flags).1 ≠ _
      rw [hno]
      simp
    · rw [hlater.dead pid hdead] at halive
      cases halive
  exited u pid flags signaled h := by
    have hreaped := (Unix.waitpid_exited h).1
    change ((u.waitpid pid flags).2.children pid).dead = true
    rw [hreaped]
    rfl
  noChild u pid flags h := by
    obtain ⟨hreaped,hlater⟩ := Unix.waitpid_noChild h
    apply hlater.dead
    rw [hreaped]
    rfl
  gone u pid h := by
    obtain ⟨hlater,hmissing,hzombie⟩ := u.procStat_spec pid
    rcases h with h | h
    · apply hlater.dead
      rw [hmissing h]
      rfl
    · exact (hzombie h).1

/-- Two children, of which the second ends before the first call. -/
def twoChildren : Unix where
  children _ := .running false
  script := [[(8,.exit false)]]
  sigchld := false

def pairOfProcs : List (ℕ × CString) := [(7,"a".toList),(8,"b".toList)]

theorem process_lifecycle_twoChildren :
    ∃ s, Reachable (step unixOs) (start twoChildren) s ∧
      s.table[0]?.map Job.procs =
        some [⟨7,"a".toList,.running⟩,⟨8,"b".toList,.exited⟩] ∧
      ∀ t, step unixOs s .handler = some t → ∃ job', t.table[0]? = some job' ∧
        job'.procs[1]? = some ⟨8,"b".toList,.exited⟩ := by
  have hrun : ((execute (step unixOs) (start twoChildren)
      [.addPipeline 7 pairOfProcs [],.refresh]).bind (fun s => s.table[0]?)).map
        (fun job => (job.active,job.procs)) =
      some (true,[⟨7,"a".toList,.running⟩,⟨8,"b".toList,.exited⟩]) := by
    decide +kernel
  obtain ⟨job,hjob,heq⟩ := Option.map_eq_some_iff.mp hrun
  obtain ⟨s,hs,hjob⟩ := Option.bind_eq_some_iff.mp hjob
  obtain ⟨hact,hprocs⟩ := Prod.mk.inj heq
  have hreach : Reachable (step unixOs) (start twoChildren) s :=
    Runs.of_events (fun _ _ => trivial) hs
  refine ⟨s,hreach,by rw [hjob, Option.map_some, hprocs],fun t ht => ?_⟩
  obtain ⟨job',hjob',hstay⟩ :=
    (process_lifecycle unixOs_truthful hreach).2.2 .handler t rfl ht 0 job hjob hact
  exact ⟨job',hjob',hstay 1 _ (by rw [hprocs]; rfl) rfl⟩

end CShellXv6.Jobs
