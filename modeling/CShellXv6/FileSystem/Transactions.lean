import Mathlib.Algebra.Order.BigOperators.Group.Finset
import CShellXv6.FileSystem.CrashSafety

/-! # Room in the log, and what sync waits for

An operation reserves room for the blocks it may change before it begins. What
the reservation guarantees, what it does not, and which operations are on the
disk when sys_sync returns.
-/
namespace CShellXv6.Log
open Bio Transition
variable {n : ℕ} {P : Type} [DecidableEq P] [Fintype P]

/-- What an observer counts: the blocks that each operation has added to the log, the operations
that have ended, those of them that the last commit covers, and those that had ended when a process
called sys_sync. -/
structure Tally (P : Type) where
  added : P → ℕ
  ended : ℕ
  covered : ℕ
  mark : P → ℕ

/-- The step after which the changes of the ended operations survive a crash. -/
def Settles (s : State n P) (p : P) : Prop :=
  s.role p = .commit .writeHead ∨ (s.role p = .commit .commit ∧ s.lh = [])

instance (s : State n P) (p : P) : Decidable (Settles s p) := inferInstanceAs (Decidable (_ ∨ _))

def Tally.note (s : State n P) (e : Event n P) (t : State n P) (o : Tally P) : Tally P :=
  match e with
  | .beginOp p => { o with added := Function.update o.added p 0 }
  | .logWrite p _ =>
    { o with added := Function.update o.added p (o.added p + t.lh.length - s.lh.length) }
  | .endOp _ => { o with ended := o.ended + 1 }
  | .commit p => if Settles s p then { o with covered := o.ended } else o
  | .sync p => { o with mark := Function.update o.mark p o.ended }
  | .crash => { o with ended := o.covered, mark := fun _ => 0 }
  | _ => o

/-- The rules of file system code, and its bound on the blocks of an operation. -/
def Bounded (start : ℕ) (x : State n P × Tally P) (e : Event n P) : Prop :=
  Follows start x.1 e ∧ ∀ p b, e = .logWrite p b → x.2.added p < MAXOPBLOCKS

/-- The room that a process has reserved and not used. -/
def spare (r : Role) (added : ℕ) : ℕ := if r = .op then MAXOPBLOCKS - added else 0

def reserved (s : State n P) (o : Tally P) : ℕ := ∑ p, spare (s.role p) (o.added p)

theorem spare_le (r : Role) (added : ℕ) : spare r added ≤ if r = .op then MAXOPBLOCKS else 0 := by
  unfold spare
  split
  · exact Nat.sub_le _ _
  · exact Nat.le_refl 0

theorem reserved_update (s t : State n P) (o o' : Tally P) (p : P)
    (h : ∀ q, q ≠ p → t.role q = s.role q ∧ o'.added q = o.added q) :
    reserved t o' + spare (s.role p) (o.added p) =
      reserved s o + spare (t.role p) (o'.added p) := by
  have hrest : ∑ q ∈ Finset.univ.erase p, spare (t.role q) (o'.added q) =
      ∑ q ∈ Finset.univ.erase p, spare (s.role q) (o.added q) := by
    apply Finset.sum_congr rfl
    intro q hq
    rw [(h q (Finset.ne_of_mem_erase hq)).1, (h q (Finset.ne_of_mem_erase hq)).2]
  unfold reserved
  rw [← Finset.add_sum_erase _ _ (Finset.mem_univ p), ← Finset.add_sum_erase Finset.univ
    (fun q => spare (s.role q) (o.added q)) (Finset.mem_univ p), hrest]
  omega

omit [DecidableEq P] in
theorem reserved_le (s : State n P) (o : Tally P) :
    reserved s o ≤ (Finset.univ.filter fun p => s.role p = .op).card * MAXOPBLOCKS := by
  calc reserved s o ≤ ∑ p, if s.role p = .op then MAXOPBLOCKS else 0 :=
        Finset.sum_le_sum fun p _ => spare_le _ _
    _ = _ := by rw [← Finset.sum_filter, Finset.sum_const, Nat.nsmul_eq_mul]

/-- The part of a commit in which its changes survive a crash. -/
def Role.committed : Role → Bool
  | .commit (.installTrans _) => true
  | .commit .clear => true
  | .commit .done => true
  | _ => false

/-- How the counts stand to the log. -/
structure Counts (s : State n P) (o : Tally P) : Prop where
  room : s.lh.length + reserved s o ≤ LOGBLOCKS
  covered : o.covered ≤ o.ended
  settled : s.outstanding = 0 → s.committing = false → o.covered = o.ended
  committed : ∀ p, (s.role p).committed = true → o.covered = o.ended
  marks : ∀ p, o.mark p ≤ o.ended
  syncing : ∀ p m, s.role p = .sync m → m ≤ s.ncommit + 1 ∧ (m ≤ s.ncommit → o.mark p ≤ o.covered)

section Steps
variable {start : ℕ} {boot p : P} {s t : State n P} {o : Tally P} {a : Spec P}
    {c : Option (P × Phase)}

omit [DecidableEq P] in
/-- While no process uses the log. -/
theorem counts_idle (hrole : ∀ p, s.role p = .idle) (hlen : s.lh.length ≤ LOGBLOCKS)
    (hcov : o.covered = o.ended) (hmark : ∀ p, o.mark p ≤ o.ended) : Counts s o := by
  have hzero : reserved s o = 0 := by
    apply Finset.sum_eq_zero
    intro p _
    rw [hrole p]
    rfl
  refine ⟨by rw [hzero]; exact hlen,Nat.le_of_eq hcov,fun _ _ => hcov,fun _ _ => hcov,hmark,?_⟩
  intro p m hp
  rw [hrole p] at hp
  cases hp

/-- A process takes a role outside operations, and the rest of the log stays. -/
theorem Counts.setRole {r : Role} (h : Counts s o) (hr : r ≠ .op)
    (hcom : r.committed = true → o.covered = o.ended)
    (hsync : ∀ m, r = .sync m → m ≤ s.ncommit + 1 ∧ (m ≤ s.ncommit → o.mark p ≤ o.covered)) :
    Counts (s.setRole p r) o := by
  have hself : (s.setRole p r).role p = r := Function.update_self ..
  have hne : ∀ q, q ≠ p → (s.setRole p r).role q = s.role q :=
    fun q hq => Function.update_of_ne hq ..
  have hres := reserved_update s (s.setRole p r) o o p fun q hq => ⟨hne q hq,rfl⟩
  rw [hself, show spare r (o.added p) = 0 from if_neg hr] at hres
  refine ⟨?_,h.covered,h.settled,fun q hq => ?_,h.marks,fun q m hq => ?_⟩
  · have := h.room
    change s.lh.length + reserved (s.setRole p r) o ≤ LOGBLOCKS
    omega
  · by_cases hqp : q = p
    · rw [hqp, hself] at hq
      exact hcom hq
    · rw [hne q hqp] at hq
      exact h.committed q hq
  · by_cases hqp : q = p
    · rw [hqp, hself] at hq
      rw [hqp]
      exact hsync m hq
    · rw [hne q hqp] at hq
      exact h.syncing q m hq

theorem Counts.beginOp (h : Counts s o) (hup : Up start s a c)
    (hroom : s.lh.length + (s.outstanding + 1) * MAXOPBLOCKS ≤ LOGBLOCKS) :
    Counts ({ s with outstanding := s.outstanding + 1 }.setRole p .op)
      { o with added := Function.update o.added p 0 } := by
  generalize ht : { s with outstanding := s.outstanding + 1 }.setRole p .op = t
  have hself : t.role p = .op := by rw [← ht]; exact Function.update_self ..
  have hne : ∀ q, q ≠ p → t.role q = s.role q := by
    intro q hq
    rw [← ht]
    exact Function.update_of_ne hq ..
  have hlh : t.lh = s.lh := by rw [← ht]; rfl
  have hres := reserved_update s t o { o with added := Function.update o.added p 0 } p
    fun q hq => ⟨hne q hq,Function.update_of_ne hq ..⟩
  have hle := reserved_le s o
  rw [← hup.count] at hle
  rw [Nat.add_mul, Nat.one_mul] at hroom
  constructor
  case room =>
    have hlast : spare (t.role p) (Function.update o.added p 0 p) ≤ MAXOPBLOCKS := by
      rw [hself]
      exact spare_le _ _
    dsimp only at hres
    rw [hlh]
    omega
  case covered => exact h.covered
  case settled =>
    intro e
    rw [← ht] at e
    exact absurd e (Nat.succ_ne_zero _)
  case committed =>
    intro q hq
    by_cases hqp : q = p
    · rw [hqp, hself] at hq
      cases hq
    · exact h.committed q (hne q hqp ▸ hq)
  case marks => exact h.marks
  case syncing =>
    intro q m hq
    rw [show t.ncommit = s.ncommit by rw [← ht]; rfl]
    by_cases hqp : q = p
    · rw [hqp, hself] at hq
      cases hq
    · exact h.syncing q m ((hne q hqp).symm.trans hq)

/-- A block that is added takes the room of one that was reserved. -/
theorem Counts.logWrite (h : Counts s o) (hrole : s.role p = .op) (hadd : o.added p < MAXOPBLOCKS)
    (bio : Bio.State n P Block) (k : ℕ) :
    Counts { s with bio := bio, lh := s.lh ++ [k] } { o with
      added := Function.update o.added p (o.added p + (s.lh ++ [k]).length - s.lh.length) } := by
  refine ⟨?_,h.covered,h.settled,h.committed,h.marks,h.syncing⟩
  have hres := reserved_update s { s with bio := bio, lh := s.lh ++ [k] } o
    { o with added := Function.update o.added p (o.added p + (s.lh ++ [k]).length - s.lh.length) } p
    fun q hq => ⟨rfl,Function.update_of_ne hq ..⟩
  have hroom := h.room
  have hlen : (s.lh ++ [k]).length = s.lh.length + 1 := List.length_append
  dsimp only at hres ⊢
  rw [hlen, Function.update_self, hrole, spare, spare, if_pos rfl, if_pos rfl] at hres
  rw [hlen]
  omega

theorem Counts.endOp (h : Counts s o) (hup : Up start s a c) (hrole : s.role p = .op) :
    Counts (if s.outstanding - 1 = 0 then
        { s with outstanding := 0, committing := true }.setRole p (.commit .commit)
      else { s with outstanding := s.outstanding - 1 }.setRole p .idle)
      { o with ended := o.ended + 1 } := by
  have hnone := hup.none_of_op hrole
  have hbase : ∀ (out : ℕ) (com : Bool), (out = 0 → com = false → False) →
      Counts { s with outstanding := out, committing := com } { o with ended := o.ended + 1 } := by
    intro out com hnot
    refine ⟨h.room,Nat.le_succ_of_le h.covered,fun h1 h2 => (hnot h1 h2).elim,fun q hq => ?_,
      fun q => Nat.le_succ_of_le (h.marks q),h.syncing⟩
    -- nobody commits while the operation runs
    cases hr : s.role q with
    | commit phase =>
      have hc := (hup.role q phase).mp hr
      rw [hnone] at hc
      cases hc
    | _ => rw [show s.role q = _ from hr] at hq; cases hq
  split
  case isTrue =>
    exact (hbase 0 true fun _ e => by cases e).setRole (fun e => by cases e) (fun e => by cases e)
      fun m e => by cases e
  case isFalse hlast =>
    exact (hbase (s.outstanding - 1) s.committing fun e _ => hlast e).setRole (fun e => by cases e)
      (fun e => by cases e) fun m e => by cases e

/-- A step of a commit. -/
theorem Counts.commit {phase : Phase} (h : Counts s o)
    (hrole : s.role p = .commit phase) (hs : commitStep start s p phase = some t) :
    Counts t (if Settles s p then { o with covered := o.ended } else o) := by
  have hlater : ∀ {s' : State n P} {o' : Tally P} {next : Phase}, Counts s' o' →
      (Role.committed (.commit next) = true → o'.covered = o'.ended) →
      Counts (s'.setRole p (.commit next)) o' :=
    fun h' hcom => h'.setRole (fun e => by cases e) hcom fun m e => by cases e
  have hnot : phase ≠ .writeHead → phase ≠ .commit → ¬ Settles s p := by
    rintro h1 h2 (e | ⟨e,_⟩)
    · exact h1 (Role.commit.inj (hrole.symm.trans e))
    · exact h2 (Role.commit.inj (hrole.symm.trans e))
  have hcovered : Counts s { o with covered := o.ended } :=
    ⟨h.room,Nat.le_refl _,fun _ _ => rfl,fun _ _ => rfl,h.marks,
      fun q m hq => ⟨(h.syncing q m hq).1,fun _ => h.marks q⟩⟩
  have hkeep : ∀ bio : Bio.State n P Block, ∀ {o' : Tally P}, Counts s o' →
      Counts { s with bio := bio } o' :=
    fun bio o' h' => ⟨h'.room,h'.covered,h'.settled,h'.committed,h'.marks,h'.syncing⟩
  cases phase with
  | commit =>
    obtain rfl := Option.some.inj hs
    by_cases hlen : 0 < s.lh.length
    · have hnot : ¬ Settles s p := by
        rintro (e | ⟨_,e⟩)
        · rw [hrole] at e
          cases e
        · rw [e] at hlen
          exact Nat.lt_irrefl 0 hlen
      rw [if_pos hlen, if_neg hnot]
      exact hlater h fun e => by cases e
    · have hnil : s.lh = [] := List.eq_nil_of_length_eq_zero (by omega)
      rw [if_neg hlen, if_pos (.inr ⟨hrole,hnil⟩)]
      exact hlater hcovered fun _ => rfl
  | writeLog tail =>
    rw [if_neg (hnot Phase.noConfusion Phase.noConfusion)]
    simp only [commitStep] at hs
    split at hs
    · obtain ⟨bio,_,rfl⟩ := Option.map_eq_some_iff.mp hs
      exact hlater (hkeep bio h) fun e => by cases e
    · obtain rfl := Option.some.inj hs
      exact hlater h fun e => by cases e
  | writeHead =>
    obtain ⟨bio,_,rfl⟩ := Option.map_eq_some_iff.mp hs
    rw [if_pos (.inl hrole)]
    exact hlater (hkeep bio hcovered) fun _ => rfl
  | installTrans tail =>
    have hcom := h.committed p (by rw [hrole]; rfl)
    rw [if_neg (hnot Phase.noConfusion Phase.noConfusion)]
    simp only [commitStep] at hs
    split at hs
    · obtain ⟨bio,_,rfl⟩ := Option.map_eq_some_iff.mp hs
      exact hlater (hkeep bio h) fun _ => hcom
    · obtain rfl := Option.some.inj hs
      exact hlater h fun _ => hcom
  | clear =>
    have hcom := h.committed p (by rw [hrole]; rfl)
    rw [if_neg (hnot Phase.noConfusion Phase.noConfusion)]
    obtain ⟨bio,_,rfl⟩ := Option.map_eq_some_iff.mp hs
    apply hlater _ fun _ => hcom
    refine ⟨?_,h.covered,h.settled,h.committed,h.marks,h.syncing⟩
    exact Nat.le_trans (Nat.add_le_add_right (Nat.zero_le _) _) h.room
  | done =>
    have hcom := h.committed p (by rw [hrole]; rfl)
    rw [if_neg (hnot Phase.noConfusion Phase.noConfusion)]
    obtain rfl := Option.some.inj hs
    have hbase : Counts { s with committing := false, ncommit := s.ncommit + 1 } o :=
      ⟨h.room,h.covered,fun _ _ => hcom,h.committed,h.marks,fun q m hq =>
        ⟨Nat.le_succ_of_le (h.syncing q m hq).1,fun _ => hcom ▸ h.marks q⟩⟩
    exact hbase.setRole (fun e => by cases e) (fun e => by cases e) fun m e => by cases e

theorem Counts.step {e : Event n P} (h : Counts s o) (hst : Stands start s a)
    (hadd : ∀ p b, e = .logWrite p b → o.added p < MAXOPBLOCKS)
    (he : Log.step start boot s e = some t) : Counts t (Tally.note s e t o) := by
  cases e with
  | bio p e =>
    obtain ⟨_,hrest⟩ := Option.ite_none_right_eq_some.mp he
    obtain ⟨bio,_,rfl⟩ := Option.map_eq_some_iff.mp hrest
    exact ⟨h.room,h.covered,h.settled,h.committed,h.marks,h.syncing⟩
  | beginOp p =>
    obtain ⟨⟨hmode,_,_,hroom⟩,ht⟩ := Option.ite_none_right_eq_some.mp he
    obtain rfl := Option.some.inj ht
    obtain ⟨c,hup⟩ := hst.up hmode
    exact h.beginOp hup hroom
  | logWrite p b =>
    obtain ⟨⟨_,hrole,_⟩,ht⟩ := Option.ite_none_right_eq_some.mp he
    split at ht
    · obtain rfl := Option.some.inj ht
      have hsame : Tally.note s (.logWrite p b) s o = o := by
        simp only [Tally.note, Nat.add_sub_cancel, Function.update_eq_self]
      rw [hsame]
      exact h
    · obtain ⟨bio,_,rfl⟩ := Option.map_eq_some_iff.mp ht
      exact h.logWrite hrole (hadd p b rfl) bio _
  | endOp p =>
    obtain ⟨⟨hmode,hrole,_⟩,ht⟩ := Option.ite_none_right_eq_some.mp he
    obtain ⟨c,hup⟩ := hst.up hmode
    have hend := h.endOp hup hrole
    split at ht
    case isTrue hlast =>
      obtain rfl := Option.some.inj ht
      rwa [if_pos hlast] at hend
    case isFalse hlast =>
      obtain rfl := Option.some.inj ht
      rwa [if_neg hlast] at hend
  | commit p =>
    obtain ⟨phase,hr,_,ht⟩ := step_commit he
    exact h.commit hr ht
  | sync p =>
    obtain ⟨⟨_,hrole⟩,ht⟩ := Option.ite_none_right_eq_some.mp he
    have hmark : Counts s { o with mark := Function.update o.mark p o.ended } := by
      refine ⟨h.room,h.covered,h.settled,h.committed,fun q => ?_,fun q m hq => ?_⟩
      · by_cases hqp : q = p
        · rw [hqp]
          exact Nat.le_of_eq (Function.update_self ..)
        · exact Nat.le_trans (Nat.le_of_eq (Function.update_of_ne hqp ..)) (h.marks q)
      · have hqp : q ≠ p := by
          rintro rfl
          rw [hrole] at hq
          cases hq
        dsimp only
        rw [Function.update_of_ne hqp]
        exact h.syncing q m hq
    split at ht
    · obtain rfl := Option.some.inj ht
      refine hmark.setRole (fun e => by cases e) (fun e => by cases e) fun m e => ?_
      obtain rfl := Role.sync.inj e
      exact ⟨Nat.le_refl _,fun hle => absurd hle (Nat.not_succ_le_self _)⟩
    · obtain rfl := Option.some.inj ht
      exact hmark
  | synced p =>
    obtain ⟨m,_,_,rfl⟩ := step_synced he
    exact h.setRole (fun e => by cases e) (fun e => by cases e) fun m e => by cases e
  | crash =>
    obtain rfl := Option.some.inj he
    exact counts_idle (fun _ => rfl) (Nat.zero_le _) rfl fun _ => Nat.zero_le _
  | recover =>
    rcases hst with hdown | ⟨c,hup⟩
    · obtain ⟨hout,hcom,hrole⟩ := hdown.log
      have hcov := h.settled hout hcom
      have hlen : s.lh.length ≤ LOGBLOCKS := Nat.le_trans (Nat.le_add_right _ _) h.room
      simp only [Log.step] at he
      cases hm : s.mode with
      | readHead =>
        rw [hm] at he
        obtain ⟨⟨lh,bio⟩,hb,rfl⟩ := Option.map_eq_some_iff.mp he
        obtain ⟨hlh,_⟩ := readHead_spec hdown.wf (hdown.view _ start rootdev_ne_zero) hb
        exact counts_idle hrole (hlh ▸ hdown.headOk.length) hcov h.marks
      | installTrans tail =>
        rw [hm] at he
        simp only [recoverStep] at he
        split at he
        · obtain ⟨bio,_,rfl⟩ := Option.map_eq_some_iff.mp he
          exact counts_idle hrole hlen hcov h.marks
        · obtain rfl := Option.some.inj he
          exact counts_idle hrole hlen hcov h.marks
      | clear =>
        rw [hm] at he
        obtain ⟨bio,_,rfl⟩ := Option.map_eq_some_iff.mp he
        exact counts_idle hrole (Nat.zero_le _) hcov h.marks
      | up =>
        rw [hm] at he
        cases he
    · simp only [Log.step, hup.mode] at he
      cases he

end Steps

section Runs
variable {start : ℕ} {boot p : P} {x : State n P × Tally P}

/-- Runs from power-on in which the operations keep to their bound. -/
def BoundedRun (start : ℕ) (boot : P) (disk : ℕ → ℕ → Block) (x : State n P × Tally P) : Prop :=
  Runs (watched (Log.step start boot) Tally.note) (Bounded start)
    (State.powerOn disk,⟨fun _ => 0,0,0,fun _ => 0⟩) x

theorem BoundedRun.counts {disk : ℕ → ℕ → Block} (hd : LogOk start (getHead (disk ROOTDEV start)))
    (h : BoundedRun start boot disk x) : (∃ a, Stands start x.1 a) ∧ Counts x.1 x.2 := by
  apply Runs.invariant (I := fun x => (∃ a, Stands start x.1 a) ∧ Counts x.1 x.2) h
  · refine ⟨⟨_,stands_powerOn disk hd⟩,?_⟩
    exact counts_idle (fun _ => rfl) (Nat.zero_le _) rfl fun _ => Nat.le_refl 0
  · rintro y e z ⟨⟨a,hst⟩,hc⟩ ⟨hf,hadd⟩ he
    obtain ⟨t,ht,rfl⟩ := Option.map_eq_some_iff.mp he
    obtain ⟨a',_,hst'⟩ := hst.step hf ht
    exact ⟨⟨a',hst'⟩,hc.step hst hadd ht⟩

/-- As long as no operation adds more than MAXOPBLOCKS blocks, neither log_write nor end_op panics:
the room that begin_op reserves is there. -/
theorem reservation_suffices {disk : ℕ → ℕ → Block}
    (hd : LogOk start (getHead (disk ROOTDEV start)))
    (h : BoundedRun start boot disk x) (hp : x.1.role p = .op) :
    (∀ b, x.1.bio.Holds p b → x.2.added p < MAXOPBLOCKS →
      (Log.step start boot x.1 (.logWrite p b)).isSome = true) ∧
    (Log.step start boot x.1 (.endOp p)).isSome = true := by
  obtain ⟨⟨a,hst⟩,hc⟩ := h.counts hd
  obtain ⟨c,hup⟩ := hst.up_of_role (p := p) (by rw [hp]; exact Role.noConfusion)
  have hcom : x.1.committing = false := by rw [hup.committing, hup.none_of_op hp]; rfl
  have hout : 0 < x.1.outstanding := by
    rw [hup.count]
    exact Finset.card_pos.mpr ⟨p,Finset.mem_filter.mpr ⟨Finset.mem_univ p,hp⟩⟩
  constructor
  · intro b hb hadd
    have hspare : spare (x.1.role p) (x.2.added p) ≤ reserved x.1 x.2 :=
      Finset.single_le_sum (f := fun q => spare (x.1.role q) (x.2.added q))
        (fun _ _ => Nat.zero_le _)
        (Finset.mem_univ p)
    rw [hp, spare, if_pos rfl] at hspare
    have hroom := hc.room
    have hlen : x.1.lh.length < LOGBLOCKS := by omega
    simp only [Log.step, hup.mode, hp, hb, hlen, hout, and_self, if_true]
    split
    · rfl
    · simp [Bio.step, hb]
  · simp only [Log.step, hup.mode, hp, hcom, and_self, if_true]
    split
    · rfl
    · rfl

omit [DecidableEq P] [Fintype P] in
/-- As many logged blocks as there are buffers pin all of them. -/
theorem Pinned.full {bio : Bio.State n P Block} {pins : Fin n → ℕ} {lh : List ℕ}
    (h : Pinned bio pins lh) (hnodup : lh.Nodup) (hfull : lh.length = n) (b : Fin n) :
    0 < pins b := by
  have himage : lh.toFinset ⊆
      (Finset.univ.filter fun b => 0 < pins b).image fun b => (bio.cache.buf b).blockno := by
    intro k hk
    obtain ⟨b,_,hno,hb⟩ := h.pinned k (List.mem_toFinset.mp hk)
    exact Finset.mem_image.mpr ⟨b,Finset.mem_filter.mpr ⟨Finset.mem_univ b,hb⟩,hno⟩
  have hcard : n ≤ (Finset.univ.filter fun b => 0 < pins b).card := by
    calc n = lh.toFinset.card := by rw [List.toFinset_card_of_nodup hnodup, hfull]
      _ ≤ _ := Finset.card_le_card himage
      _ ≤ _ := Finset.card_image_le
  have huniv := Finset.eq_univ_of_card (Finset.univ.filter fun b => 0 < pins b)
    (Nat.le_antisymm (Finset.card_le_univ _) (by rwa [Fintype.card_fin]))
  have hb : b ∈ Finset.univ.filter fun b => 0 < pins b := by
    rw [huniv]
    exact Finset.mem_univ b
  exact (Finset.mem_filter.mp hb).2

end Runs

/-- Steps that keep the rules and the bound, in a form that can be checked. -/
def Kept (start : ℕ) (x : State n P × Tally P) : Event n P → Prop
  | .bio _ (.bget _ dev _) => dev ≠ 0
  | .bio _ (.modify _ _ _) => False
  | .bio _ (.releasesleep _ b) =>
    (x.1.bio.cache.buf b).dev = ROOTDEV ∧ (x.1.bio.cache.buf b).blockno ∈ x.1.lh
  | .logWrite p b => ((x.1.bio.cache.buf b).dev = ROOTDEV ∧
      Home start (x.1.bio.cache.buf b).blockno ∧ (x.1.bio.cache.buf b).blockno < 256 ^ 4) ∧
      x.2.added p < MAXOPBLOCKS
  | .endOp p => ∀ b, (x.1.bio.cache.buf b).lock ≠ some p
  | _ => True

instance (start : ℕ) (x : State n P × Tally P) : (e : Event n P) → Decidable (Kept start x e)
  | .bio _ (.bget _ dev _) => inferInstanceAs (Decidable (dev ≠ 0))
  | .bio _ (.modify _ _ _) => inferInstanceAs (Decidable False)
  | .bio _ (.releasesleep _ b) => inferInstanceAs (Decidable (
      (x.1.bio.cache.buf b).dev = ROOTDEV ∧ (x.1.bio.cache.buf b).blockno ∈ x.1.lh))
  | .bio _ (.acquiresleep _) => .isTrue trivial
  | .bio _ (.bread _) => .isTrue trivial
  | .bio _ (.bwrite _ _) => .isTrue trivial
  | .bio _ (.brelse _) => .isTrue trivial
  | .bio _ (.bpin _ _) => .isTrue trivial
  | .bio _ (.bunpin _ _) => .isTrue trivial
  | .logWrite p b => inferInstanceAs (Decidable (((x.1.bio.cache.buf b).dev = ROOTDEV ∧
      Home start (x.1.bio.cache.buf b).blockno ∧ (x.1.bio.cache.buf b).blockno < 256 ^ 4) ∧
        x.2.added p < MAXOPBLOCKS))
  | .endOp p => inferInstanceAs (Decidable (∀ b, (x.1.bio.cache.buf b).lock ≠ some p))
  | .beginOp _ => .isTrue trivial
  | .commit _ => .isTrue trivial
  | .sync _ => .isTrue trivial
  | .synced _ => .isTrue trivial
  | .crash => .isTrue trivial
  | .recover => .isTrue trivial

omit [DecidableEq P] [Fintype P] in
theorem Kept.bounded {start : ℕ} {x : State n P × Tally P} {e : Event n P} (h : Kept start x e) :
    Bounded start x e := by
  refine ⟨?_,fun p b hb => by rw [hb] at h; exact h.2⟩
  cases e with
  | bio p e =>
    cases e with
    | modify q b v => exact h.elim
    | releasesleep q b => exact fun _ => .inr h
    | _ => exact h
  | logWrite p b => exact h.1
  | _ => exact h

omit [Fintype P] in
theorem BoundedRun.of_events {start : ℕ} {boot : P} {disk : ℕ → ℕ → Block}
    {x : State n P × Tally P} (es : List (Event n P))
    (hx : execute (restrict (watched (step start boot) Tally.note) (Kept start))
      (State.powerOn disk,⟨fun _ => 0,0,0,fun _ => 0⟩) es = some x) :
    BoundedRun start boot disk x :=
  (Runs.of_execute es hx).mono fun _ _ h => h.bounded

/-- An operation that holds its first block. -/
theorem reservation_suffices_first : ∃ x : State 1 Bool × Tally Bool,
    BoundedRun 2 true (fun _ _ _ => 0) x ∧
    (step 2 true x.1 (.logWrite false ⟨0,Nat.one_pos⟩)).isSome = true := by
  have hrun : (execute (restrict (watched (step 2 true) Tally.note) (Kept 2))
      ((State.powerOn fun _ _ _ => 0 : State 1 Bool),⟨fun _ => 0,0,0,fun _ => 0⟩)
      [.recover, .recover, .recover, .beginOp false, .bio false (.bget false 1 50),
        .bio false (.acquiresleep false), .bio false (.bread false)]).map (fun x =>
      (decide (x.1.role false = .op),decide (x.1.bio.Holds false ⟨0,Nat.one_pos⟩),x.2.added false))
      = some (true,true,0) := by decide +kernel
  obtain ⟨x,hx,hfacts⟩ := Option.map_eq_some_iff.mp hrun
  obtain ⟨hrole,hfacts⟩ := Prod.mk.injEq .. ▸ hfacts
  obtain ⟨hholds,hadded⟩ := Prod.mk.injEq .. ▸ hfacts
  have hreach := BoundedRun.of_events _ hx
  exact ⟨x,hreach,(reservation_suffices logOk_nil hreach (of_decide_eq_true hrole)).1 _
    (of_decide_eq_true hholds) (by rw [hadded]; decide)⟩

end CShellXv6.Log
