import CShellXv6.Library.Monitor
import CShellXv6.FileSystem.CrashSafety

/-! # Processes that wait for the log

begin_op and sys_sync sleep on `&log` until their condition holds, and end_op and
the end of a commit wake them. The log below a run of the sleeping processes is a
run of the log in which a process takes its step when the condition holds.
-/
namespace CShellXv6.Log
open Bio Transition
variable {n : ℕ} {P : Type} [DecidableEq P]

/-- Where a process is: in the loop of begin_op, in that of sys_sync, or elsewhere. -/
inductive Loc
  | run
  | begin
  | sync (m : ℕ)

/-- A process does something to the log, calls begin_op or sys_sync, or goes round their loop. -/
inductive Input (n : ℕ) (P : Type)
  | log (e : Event n P)
  | begin
  | sync
  | go

/-- What a process does outside begin_op and sys_sync. -/
def Event.isBy (p : P) : Event n P → Bool
  | .bio q _ => decide (q = p)
  | .logWrite q _ => decide (q = p)
  | .endOp q => decide (q = p)
  | .commit q => decide (q = p)
  | _ => false

/-- Whether a step calls `wakeup(&log)`. -/
def wakes (s : State n P) : Event n P → List Unit
  | .endOp _ => if s.outstanding - 1 = 0 then [] else [()]
  | .commit p => if s.role p = .commit .done then [()] else []
  | _ => []

/-- Whether begin_op has to wait. -/
def Full (s : State n P) : Prop :=
  s.committing = true ∨ LOGBLOCKS < s.lh.length + (s.outstanding + 1) * MAXOPBLOCKS

instance (s : State n P) : Decidable (Full s) := inferInstanceAs (Decidable (_ ∨ _))

/-- Whether some process is in an operation or commits. -/
def Busy (s : State n P) : Prop := s.committing = true ∨ 0 < s.outstanding

instance (s : State n P) : Decidable (Busy s) := inferInstanceAs (Decidable (_ ∨ _))

def sections (start : ℕ) (boot p : P) (l : Loc) (i : Input n P) (s : State n P) :
    Option (Monitor.Outcome (State n P) Loc Unit) :=
  match l, i with
  | .run, .log e =>
    if e.isBy p = true then (step start boot s e).map fun t => ⟨t,.run,wakes s e,none⟩ else none
  | .run, .begin => some ⟨s,.begin,[],none⟩
  | .begin, .go =>
    if Full s then some ⟨s,.begin,[],some ()⟩
    else (step start boot s (.beginOp p)).map fun t => ⟨t,.run,[],none⟩
  | .run, .sync =>
    if Busy s then
      (step start boot s (.sync p)).map fun t => ⟨t,.sync (s.ncommit + 1),[],some ()⟩
    else (step start boot s (.sync p)).map fun t => ⟨t,.run,[],none⟩
  | .sync m, .go =>
    if s.ncommit < m then some ⟨s,.sync m,[],some ()⟩
    else (step start boot s (.synced p)).map fun t => ⟨t,.run,[],none⟩
  | _, _ => none

variable {start : ℕ} {boot p : P} {s t : State n P}

/-- A sync waits for the commit that runs or for the next one, and an operation will lead to it. -/
def Pending (s : State n P) (m : ℕ) : Prop := m ≤ s.ncommit + 1 ∧ (s.ncommit < m → Busy s)

/-- What a section is: at most one step of the log, after which its process waits only if it
has to. -/
structure Section (start : ℕ) (boot : P) (l : Loc) (i : Input n P) (s : State n P)
    (o : Monitor.Outcome (State n P) Loc Unit) : Prop where
  step : o.data = s ∨ ∃ e, step start boot s e = some o.data ∧ e ≠ .crash ∧
    (i = .log e ∨ Follows start s e) ∧ o.wakes = wakes s e
  waits : ∀ c, o.waits = some c → o.next = .begin ∧ Full o.data ∨
    ∃ m, o.next = .sync m ∧ o.data.ncommit < m
  sync : ∀ m, o.next = .sync m → l = .sync m ∨ Pending s m

/-- A section that does not wait. -/
theorem Section.proceed {l : Loc} {i : Input n P} {e : Event n P} {ws : List Unit}
    (ht : Log.step start boot s e = some t) (hc : e ≠ .crash) (hf : i = .log e ∨ Follows start s e)
    (hw : ws = wakes s e) : Section start boot l i s ⟨t,.run,ws,none⟩ :=
  ⟨.inr ⟨e,ht,hc,hf,hw⟩,fun c hc => (by cases hc),fun m hm => by cases hm⟩

theorem section_of_eq {l : Loc} {i : Input n P} {o : Monitor.Outcome (State n P) Loc Unit}
    (h : sections start boot p l i s = some o) : Section start boot l i s o := by
  cases l with
  | run =>
    cases i with
    | log e =>
      obtain ⟨hby,hmap⟩ := Option.ite_none_right_eq_some.mp h
      obtain ⟨t,ht,rfl⟩ := Option.map_eq_some_iff.mp hmap
      have hcrash : e ≠ .crash := by
        rintro rfl
        cases hby
      exact .proceed ht hcrash (.inl rfl) rfl
    | begin =>
      obtain rfl := Option.some.inj h
      exact ⟨.inl rfl,fun c hc => (by cases hc),fun m hm => by cases hm⟩
    | sync =>
      simp only [sections] at h
      split at h
      case isTrue hbusy =>
        obtain ⟨t,ht,rfl⟩ := Option.map_eq_some_iff.mp h
        have hnum : t.ncommit = s.ncommit := by
          obtain ⟨_,he⟩ := Option.ite_none_right_eq_some.mp ht
          split at he
          · obtain rfl := Option.some.inj he
            rfl
          · obtain rfl := Option.some.inj he
            rfl
        refine ⟨.inr ⟨_,ht,fun hc => (by cases hc),.inr trivial,rfl⟩,fun _ _ => .inr ⟨_,rfl,?_⟩,
          fun m hm => .inr ?_⟩
        · rw [hnum]
          exact Nat.lt_succ_self _
        · obtain rfl := Loc.sync.inj hm
          exact ⟨Nat.le_refl _,fun _ => hbusy⟩
      case isFalse =>
        obtain ⟨t,ht,rfl⟩ := Option.map_eq_some_iff.mp h
        exact .proceed ht (fun hc => by cases hc) (.inr trivial) rfl
    | go => cases h
  | begin =>
    cases i with
    | go =>
      simp only [sections] at h
      split at h
      case isTrue hfull =>
        obtain rfl := Option.some.inj h
        exact ⟨.inl rfl,fun _ _ => .inl ⟨rfl,hfull⟩,fun m hm => by cases hm⟩
      case isFalse =>
        obtain ⟨t,ht,rfl⟩ := Option.map_eq_some_iff.mp h
        exact .proceed ht (fun hc => by cases hc) (.inr trivial) rfl
    | _ => cases h
  | sync m =>
    cases i with
    | go =>
      simp only [sections] at h
      split at h
      case isTrue hlt =>
        obtain rfl := Option.some.inj h
        exact ⟨.inl rfl,fun _ _ => .inr ⟨m,rfl,hlt⟩,fun _ hm => .inl hm⟩
      case isFalse =>
        obtain ⟨t,ht,rfl⟩ := Option.map_eq_some_iff.mp h
        exact .proceed ht (fun hc => by cases hc) (.inr trivial) rfl
    | _ => cases h

theorem commitStep_frame {phase : Phase} (h : commitStep start s p phase = some t)
    (hd : phase ≠ .done) :
    t.mode = s.mode ∧ t.committing = s.committing ∧ t.ncommit = s.ncommit := by
  cases phase with
  | commit =>
    obtain rfl := Option.some.inj h
    exact ⟨rfl,rfl,rfl⟩
  | writeHead | clear =>
    obtain ⟨bio,_,rfl⟩ := Option.map_eq_some_iff.mp h
    exact ⟨rfl,rfl,rfl⟩
  | writeLog tail | installTrans tail =>
    simp only [commitStep] at h
    split at h
    · obtain ⟨bio,_,rfl⟩ := Option.map_eq_some_iff.mp h
      exact ⟨rfl,rfl,rfl⟩
    · obtain rfl := Option.some.inj h
      exact ⟨rfl,rfl,rfl⟩
  | done => exact absurd rfl hd

/-- What a step does to the fields that those who wait look at. -/
inductive Effect (s t : State n P) (e : Event n P) : Prop
  | same (hout : t.outstanding = s.outstanding) (hcom : t.committing = s.committing)
      (hnum : t.ncommit = s.ncommit) (hlh : t.lh = s.lh)
  | begin (hout : t.outstanding = s.outstanding + 1) (hcom : t.committing = s.committing)
      (hnum : t.ncommit = s.ncommit) (hlh : t.lh = s.lh)
  | add (hpos : 0 < s.outstanding) (hout : t.outstanding = s.outstanding)
      (hcom : t.committing = s.committing) (hnum : t.ncommit = s.ncommit)
      (hlh : s.lh.length ≤ t.lh.length)
  | last (hcom : t.committing = true) (hnum : t.ncommit = s.ncommit)
  | more (q : P) (he : e = .endOp q) (hmore : s.outstanding - 1 ≠ 0)
      (hout : t.outstanding = s.outstanding - 1) (hnum : t.ncommit = s.ncommit)
  | commit (q : P) (phase : Phase) (hr : s.role q = .commit phase)
      (hcom : t.committing = s.committing) (hnum : t.ncommit = s.ncommit)
  | done (q : P) (he : e = .commit q) (hr : s.role q = .commit .done) (hlh : t.lh = s.lh)
      (hnum : t.ncommit = s.ncommit + 1)

theorem step_effect {e : Event n P} (he : step start boot s e = some t) (hup : s.mode = .up)
    (hcrash : e ≠ .crash) : t.mode = .up ∧ Effect s t e := by
  cases e with
  | bio q e =>
    obtain ⟨_,hmap⟩ := Option.ite_none_right_eq_some.mp he
    obtain ⟨bio,_,rfl⟩ := Option.map_eq_some_iff.mp hmap
    exact ⟨hup,.same rfl rfl rfl rfl⟩
  | beginOp q =>
    obtain ⟨_,hsome⟩ := Option.ite_none_right_eq_some.mp he
    obtain rfl := Option.some.inj hsome
    exact ⟨hup,.begin rfl rfl rfl rfl⟩
  | logWrite q b =>
    obtain ⟨hg,he⟩ := Option.ite_none_right_eq_some.mp he
    split at he
    · obtain rfl := Option.some.inj he
      exact ⟨hup,.same rfl rfl rfl rfl⟩
    · obtain ⟨bio,_,rfl⟩ := Option.map_eq_some_iff.mp he
      refine ⟨hup,.add hg.2.2.2.2 rfl rfl rfl ?_⟩
      rw [List.length_append]
      exact Nat.le_add_right _ _
  | endOp q =>
    obtain ⟨_,he⟩ := Option.ite_none_right_eq_some.mp he
    split at he
    case isTrue =>
      obtain rfl := Option.some.inj he
      exact ⟨hup,.last rfl rfl⟩
    case isFalse hmore =>
      obtain rfl := Option.some.inj he
      exact ⟨hup,.more q rfl hmore rfl rfl⟩
  | commit q =>
    obtain ⟨phase,hr,_,he⟩ := step_commit he
    by_cases hdone : phase = .done
    · subst hdone
      obtain rfl := Option.some.inj he
      exact ⟨hup,.done q rfl hr rfl rfl⟩
    · obtain ⟨hmode,hcom,hnum⟩ := commitStep_frame he hdone
      exact ⟨hmode.trans hup,.commit q phase hr hcom hnum⟩
  | sync q =>
    obtain ⟨_,he⟩ := Option.ite_none_right_eq_some.mp he
    split at he
    · obtain rfl := Option.some.inj he
      exact ⟨hup,.same rfl rfl rfl rfl⟩
    · obtain rfl := Option.some.inj he
      exact ⟨hup,.same rfl rfl rfl rfl⟩
  | synced q =>
    obtain ⟨m,_,_,rfl⟩ := step_synced he
    exact ⟨hup,.same rfl rfl rfl rfl⟩
  | crash => exact absurd rfl hcrash
  | recover =>
    simp only [Log.step, hup, recoverStep] at he
    cases he

section Invariants
variable [Fintype P] {a : Spec P}

section
omit [DecidableEq P]

theorem Stands.committing_of_role (h : Stands start s a) {phase : Phase}
    (hp : s.role p = .commit phase) : s.committing = true := by
  rcases h with hdown | ⟨c,hup⟩
  · rw [hdown.log.2.2 p] at hp
    cases hp
  · rw [hup.committing, (hup.role p phase).mp hp]
    rfl

/-- What a step that wakes nobody leaves to those who wait. -/
theorem Effect.unwoken {e : Event n P} (he : Effect s t e) (h : Stands start s a)
    (hw : wakes s e = []) : t.ncommit = s.ncommit ∧ (Full s → Full t) := by
  unfold Full
  cases he with
  | same hout hcom hnum hlh =>
    rw [hout, hcom, hlh]
    exact ⟨hnum,id⟩
  | begin hout hcom hnum hlh =>
    rw [hout, hcom, hlh, Nat.succ_mul (s.outstanding + 1)]
    exact ⟨hnum,Or.imp_right fun hroom => by omega⟩
  | add hpos hout hcom hnum hlh =>
    rw [hout, hcom]
    exact ⟨hnum,Or.imp_right fun hroom => by omega⟩
  | last hcom hnum => exact ⟨hnum,fun _ => .inl hcom⟩
  | more q he hmore =>
    rw [he, wakes, if_neg hmore] at hw
    cases hw
  | commit q phase hr hcom hnum => exact ⟨hnum,fun _ => .inl (hcom.trans (h.committing_of_role hr))⟩
  | done q he hr =>
    rw [he, wakes, if_pos hr] at hw
    cases hw

theorem Effect.pending {e : Event n P} (he : Effect s t e) (h : Stands start s a) {m : ℕ}
    (hm : Pending s m) : Pending t m := by
  unfold Pending Busy at hm ⊢
  cases he with
  | same hout hcom hnum =>
    rw [hout, hcom, hnum]
    exact hm
  | begin hout hcom hnum =>
    rw [hout, hnum]
    exact ⟨hm.1,fun _ => .inr (Nat.succ_pos _)⟩
  | add hpos hout hcom hnum =>
    rw [hout, hnum]
    exact ⟨hm.1,fun _ => .inr hpos⟩
  | last hcom hnum =>
    rw [hnum]
    exact ⟨hm.1,fun _ => .inl hcom⟩
  | more q he hmore hout hnum =>
    rw [hout, hnum]
    exact ⟨hm.1,fun _ => .inr (Nat.pos_of_ne_zero hmore)⟩
  | commit q phase hr hcom hnum =>
    rw [hnum]
    exact ⟨hm.1,fun _ => .inl (hcom.trans (h.committing_of_role hr))⟩
  | done q he hr hlh hnum =>
    rw [hnum]
    exact ⟨Nat.le_succ_of_le hm.1,fun hlt => absurd hlt (Nat.not_lt.mpr hm.1)⟩

/-- Between transactions the log is empty. -/
def Clean (s : State n P) : Prop :=
  s.mode = .up → s.outstanding = 0 → s.committing = false → s.lh = []

theorem Effect.clean {e : Event n P} (he : Effect s t e) (hst : Stands start s a)
    (hup : s.mode = .up) (h : Clean s) : Clean t := by
  intro _ hzero hidle
  cases he with
  | same hout hcom hnum hlh => rw [hlh, h hup (hout ▸ hzero) (hcom ▸ hidle)]
  | begin hout => omega
  | add hpos hout => omega
  | last hcom =>
    rw [hcom] at hidle
    cases hidle
  | more q he hmore hout => exact absurd (hout.symm.trans hzero) hmore
  | commit q phase hr hcom =>
    rw [hcom, hst.committing_of_role hr] at hidle
    cases hidle
  | done q he hr hlh =>
    obtain ⟨c,hc⟩ := hst.up hup
    obtain rfl := (hc.role q _).mp hr
    have hstage : getHead (s.bio.disk ROOTDEV start) = [] ∧ s.lh = [] := hc.stage
    rw [hlh, hstage.2]

theorem Stands.of_busy (h : Stands start s a) (hb : Busy s) :
    ∃ q, s.role q = .op ∨ ∃ phase, s.role q = .commit phase := by
  rcases h with hdown | ⟨c,hup⟩
  · obtain ⟨hout,hcom,_⟩ := hdown.log
    rcases hb with hb | hb
    · rw [hcom] at hb
      cases hb
    · rw [hout] at hb
      exact absurd hb (Nat.lt_irrefl 0)
  · rcases hb with hb | hb
    · rw [hup.committing] at hb
      obtain ⟨⟨q,phase⟩,hc⟩ := Option.isSome_iff_exists.mp hb
      exact ⟨q,.inr ⟨phase,(hup.role q phase).mpr hc⟩⟩
    · rw [hup.count] at hb
      obtain ⟨q,hq⟩ := Finset.card_pos.mp hb
      exact ⟨q,.inl (Finset.mem_filter.mp hq).2⟩

end

omit [Fintype P] in
/-- Recovery ends with an empty log. -/
theorem clean_recover (he : recoverStep start boot s s.mode = some t) : Clean t := by
  intro hmode _ _
  cases hm : s.mode with
  | readHead =>
    rw [hm] at he
    obtain ⟨x,_,rfl⟩ := Option.map_eq_some_iff.mp he
    cases hmode
  | installTrans tail =>
    rw [hm] at he
    simp only [recoverStep] at he
    split at he
    · obtain ⟨bio,_,rfl⟩ := Option.map_eq_some_iff.mp he
      cases hmode
    · obtain rfl := Option.some.inj he
      cases hmode
  | clear =>
    rw [hm] at he
    obtain ⟨bio,_,rfl⟩ := Option.map_eq_some_iff.mp he
    rfl
  | up =>
    rw [hm] at he
    cases he

theorem Clean.step {e : Event n P} (h : Clean s) (hst : Stands start s a)
    (he : Log.step start boot s e = some t) : Clean t := by
  by_cases hcrash : e = .crash
  · subst hcrash
    obtain rfl := Option.some.inj he
    intro hmode
    cases hmode
  by_cases hup : s.mode = .up
  · exact (step_effect he hup hcrash).2.clean hst hup h
  · cases e with
    | recover => exact clean_recover he
    | crash => exact absurd rfl hcrash
    | commit q =>
      obtain ⟨_,_,hmode,_⟩ := step_commit he
      exact absurd hmode hup
    | synced q =>
      obtain ⟨_,_,hm,_⟩ := step_synced he
      exact absurd hm.1 hup
    | _ => exact absurd (Option.ite_none_right_eq_some.mp he).1.1 hup

/-- What the runs of the log establish. -/
theorem clean_of_run {disk : ℕ → ℕ → Block} (hd : LogOk start (getHead (disk ROOTDEV start)))
    (hr : Runs (Log.step start boot) (Follows start) (State.powerOn disk) t) :
    Clean t ∧ ∃ a, Stands start t a := by
  induction hr with
  | refl =>
    refine ⟨fun hmode => ?_,_,stands_powerOn disk hd⟩
    cases hmode
  | tail _ hg he ih =>
    obtain ⟨hclean,a,hst⟩ := ih
    obtain ⟨a',_,hst'⟩ := hst.step hg he
    exact ⟨hclean.step hst he,a',hst'⟩

omit [DecidableEq P] [Fintype P] in
theorem Clean.busy_of_full (h : Clean s) (hup : s.mode = .up) (hf : Full s) : Busy s := by
  by_contra hb
  obtain ⟨hcom,hout⟩ := not_or.mp hb
  have hout := Nat.eq_zero_of_not_pos hout
  have hnil := h hup hout (Bool.eq_false_iff.mpr hcom)
  rcases hf with hf | hf
  · exact hcom hf
  · rw [hnil, hout] at hf
    exact absurd hf (by decide)

end Invariants

/-- What keeps a process asleep. -/
def Blocked : Loc → Unit → State n P → Prop
  | .run, _, _ => False
  | .begin, _, s => Full s
  | .sync m, _, s => s.ncommit < m

/-- The processes below the rules of file system code. -/
def Rules (start : ℕ) (u : Monitor.State (State n P) Loc Unit P) :
    Monitor.Event (Input n P) P → Prop
  | .run _ (.log e) => Follows start u.data e
  | _ => True

section Runs
variable [Fintype P] {u v : Monitor.State (State n P) Loc Unit P}

/-- What a run of the sleeping processes establishes: the log below them runs as it does without
them, and every process in sys_sync waits for a commit to come. -/
structure Below (start : ℕ) (boot : P) (d : State n P) (u : Monitor.State (State n P) Loc Unit P) :
    Prop where
  run : Runs (Log.step start boot) (Follows start) d u.data
  mode : u.data.mode = .up
  sync : ∀ p m, (u.thread p).loc = .sync m → Pending u.data m

theorem Below.after {a : Spec P} {d : State n P} {i : Input n P}
    {o : Monitor.Outcome (State n P) Loc Unit} (h : Below start boot d u)
    (hst : Stands start u.data a) (ho : Section start boot (u.thread p).loc i u.data o)
    (hg : Rules start u (.run p i)) : Below start boot d (u.after p o) := by
  have hpending : ∀ m, o.next = .sync m → Pending u.data m := fun m hm =>
    (ho.sync m hm).elim (h.sync p m) id
  have hsync : (∀ m, Pending u.data m → Pending o.data m) →
      ∀ q m, ((u.after p o).thread q).loc = .sync m → Pending o.data m := by
    intro hkeep q m hq
    rw [u.after_loc] at hq
    split at hq
    · exact hkeep m (hpending m hq)
    · exact hkeep m (h.sync q m hq)
  rcases ho.step with hsame | ⟨e,he,hcrash,hf,_⟩
  · have hrun := h.run
    have hmode := h.mode
    rw [← hsame] at hrun hmode
    exact ⟨hrun,hmode,hsync fun m hm => hsame ▸ hm⟩
  · have hf : Follows start u.data e := by
      rcases hf with rfl | hf
      · exact hg
      · exact hf
    obtain ⟨hmode,heff⟩ := step_effect he h.mode hcrash
    exact ⟨.tail h.run hf he,hmode,hsync fun m => heff.pending hst⟩

theorem below_of_run {disk : ℕ → ℕ → Block} {d : State n P}
    (hd : LogOk start (getHead (disk ROOTDEV start)))
    (hboot : Runs (Log.step start boot) (Follows start) (State.powerOn disk) d) (hup : d.mode = .up)
    (hr : Runs (Monitor.step (sections start boot)) (Rules start)
      ⟨d,fun _ => ⟨.run,none,.ready⟩⟩ u) : Below start boot d u := by
  apply hr.invariant (I := Below start boot d)
  · exact ⟨.refl d,hup,fun p m hm => by cases hm⟩
  · intro u e v hu hg he
    obtain ⟨_,a,hst⟩ := clean_of_run hd (hboot.trans hu.run)
    rcases Monitor.step_cases he with ⟨p,i,o,rfl,_,ho,rfl⟩ | ⟨_,hdata,hthread⟩
    · exact hu.after hst (section_of_eq ho) hg
    · refine ⟨hdata ▸ hu.run,hdata ▸ hu.mode,fun p m hm => ?_⟩
      rw [hdata]
      exact hu.sync p m ((hthread p).loc ▸ hm)

theorem Blocked.after {a : Spec P} {i : Input n P} {o : Monitor.Outcome (State n P) Loc Unit}
    {l l' : Loc} {c : Unit} (h : Blocked l c s) (hup : s.mode = .up) (hst : Stands start s a)
    (ho : Section start boot l' i s o) (hc : c ∉ o.wakes) : Blocked l c o.data := by
  rcases ho.step with hsame | ⟨e,he,hcrash,_,hw⟩
  · rw [hsame]
    exact h
  · have hnil : wakes s e = [] := by
      rw [← hw]
      exact List.eq_nil_iff_forall_not_mem.mpr fun _ => hc
    obtain ⟨hnum,hfull⟩ := (step_effect he hup hcrash).2.unwoken hst hnil
    cases l with
    | run => exact h
    | begin => exact hfull h
    | sync m => exact Nat.lt_of_le_of_lt (Nat.le_of_eq hnum) h

end Runs

/-- Steps of processes that call begin_op and sys_sync only. -/
def Calls : Monitor.Event (Input n P) P → Prop
  | .run _ (.log _) => False
  | _ => True

omit [DecidableEq P] in
theorem Calls.rules {u : Monitor.State (State n P) Loc Unit P} {e : Monitor.Event (Input n P) P}
    (h : Calls e) : Rules start u e := by
  cases e with
  | run p i =>
    cases i with
    | log e => exact h.elim
    | _ => trivial
  | _ => trivial

end CShellXv6.Log
