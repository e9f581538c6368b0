import CShellXv6.Kernel.Conduct

/-! # Turnaround times

`schedtest` takes `rtime + wtime` for the turnaround time. Every hart counts the
processes that run and wait when its timer comes, but only the first hart
advances `ticks`. The sum stays within the time between `ctime` and `etime` as
long as no process is counted twice between two increments of `ticks`.
-/
namespace CShellXv6.Kernel
open SpinLock Transition
variable {n : ℕ} {policy : Policy}

/-- Whether a process has been counted since the last increment of `ticks`. -/
def noteCounted (t : BitVec 32) (q : Proc) (t' : BitVec 32) (q' : Proc) (counted : Bool) : Bool :=
  if t' = t ∧ q'.state ≠ .unused ∧ q'.state ≠ .used then
    counted || decide (q.rtime < q'.rtime ∨ q.wtime < q'.wtime)
  else false

/-- A step that does not count the process again, with `ticks` within the positive
numbers of an `int`. -/
def CountedOnce (_ : BitVec 32) (q : Proc) (t' : BitVec 32) (q' : Proc) (counted : Bool) : Prop :=
  t'.msb = false ∧ (counted = true → q'.rtime ≤ q.rtime ∧ q'.wtime ≤ q.wtime)

instance (t : BitVec 32) (q : Proc) (t' : BitVec 32) (q' : Proc) (counted : Bool) :
    Decidable (CountedOnce t q t' q' counted) :=
  inferInstanceAs (Decidable (_ ∧ _))

/-- The step does not count the process for a second time. -/
def Fair (n : ℕ) (policy : Policy) (p : Slot) (x : System n × Bool) (e : Event (Fin n) Entry) :
    Prop :=
  ∀ m' ∈ step (code n policy) x.1 e,
    CountedOnce x.1.data.ticks (x.1.data.proc p) m'.data.ticks (m'.data.proc p) x.2

instance (n : ℕ) (policy : Policy) (p : Slot) (x : System n × Bool) (e : Event (Fin n) Entry) :
    Decidable (Fair n policy p x e) :=
  inferInstanceAs (Decidable (∀ m' ∈ step (code n policy) x.1 e, _))

/-! ## The accounts of one process -/

/-- The accounts of a process that goes on. -/
structure Running (t : BitVec 32) (q : Proc) (counted : Bool) : Prop where
  born : q.ctime.toNat ≤ t.toNat
  counted : q.rtime + q.wtime + q.ctime.toNat ≤ t.toNat + counted.toNat

/-- The accounts of a process that has written its `etime`. -/
structure Settled (t : BitVec 32) (q : Proc) : Prop where
  born : q.ctime.toNat ≤ q.etime.toNat
  ended : q.etime.toNat ≤ t.toNat
  counted : q.rtime + q.wtime + q.ctime.toNat ≤ q.etime.toNat + 1

def Ledger (t : BitVec 32) (ph : Phase) (q : Proc) (counted : Bool) : Prop :=
  t.msb = false ∧ match ph with
    | .unused => True
    | .making _ .claimed => True
    | .making _ .stamped => q.ctime.toNat ≤ t.toNat
    | .making _ .fresh => q.ctime.toNat ≤ t.toNat ∧ q.rtime = 0 ∧ q.wtime = 0
    | .leaving => Settled t q
    | .zombie => Settled t q
    | _ => Running t q counted

section Lives
variable {a : Agent (Fin n) Slot} {t t' : BitVec 32} {p : Slot} {ph ph' : Phase} {q q' : Proc}
  {counted : Bool}

/-- One more is counted at most, and then the process has not been counted before. -/
theorem Running.note (h : Running t q counted) (hborn : q'.ctime = q.ctime)
    (hcount : q'.rtime + q'.wtime ≤ q.rtime + q.wtime + 1)
    (hr : q.rtime ≤ q'.rtime) (hw : q.wtime ≤ q'.wtime) (hc : CountedOnce t q t q' counted)
    (hstate : q'.state = ph'.state) (halive : ph'.alive = true) :
    Running t q' (noteCounted t q t q' counted) := by
  refine ⟨hborn ▸ h.born,?_⟩
  have hmade := Phase.made halive
  rw [← hstate] at hmade
  have hsum := h.counted
  rw [noteCounted, if_pos ⟨rfl,hmade⟩, hborn]
  cases counted with
  | true =>
    have honce := hc.2 rfl
    simp only [Bool.true_or, Bool.toNat_true] at hsum ⊢
    omega
  | false =>
    by_cases hgrow : q.rtime < q'.rtime ∨ q.wtime < q'.wtime
    · simp only [Bool.false_or, hgrow, decide_true, Bool.toNat_true, Bool.toNat_false] at hsum ⊢
      omega
    · simp only [Bool.false_or, hgrow, decide_false, Bool.toNat_false] at hsum ⊢
      omega

theorem Running.mild (h : Running t q counted) (hm : q.Mild q') (hc : CountedOnce t q t q' counted)
    (hstate : q'.state = ph'.state) (halive : ph'.alive = true) :
    Running t q' (noteCounted t q t q' counted) := by
  obtain ⟨hborn,hrun,hwait,_⟩ := hm.counters
  exact h.note hborn (by omega) (by omega) (by omega) hc hstate halive

theorem Settled.mild (h : Settled t q) (hm : q.Mild q') : Settled t q' := by
  obtain ⟨hborn,hrun,hwait,hend,_⟩ := hm.counters
  exact ⟨by rw [hborn, hend]; exact h.born,by rw [hend]; exact h.ended,
    by rw [hborn, hend, hrun, hwait]; exact h.counted⟩

/-- The process writes its `etime`. -/
theorem Running.settle (h : Running t q counted) (hm : { q with etime := t }.Mild q') :
    Settled t q' := by
  obtain ⟨hborn,hrun,hwait,hend,_⟩ := hm.counters
  have hsum := h.counted
  have hle : counted.toNat ≤ 1 := Bool.toNat_le counted
  refine ⟨?_,?_,?_⟩
  · rw [hborn, hend]
    exact h.born
  · rw [hend]
  · rw [hborn, hrun, hwait, hend]
    dsimp only
    omega

theorem Ledger.touch (h : Ledger t ph q counted) (hm : q.Mild q')
    (hc : CountedOnce t q t q' counted) (hstate : q'.state = ph.state) :
    Ledger t ph q' (noteCounted t q t q' counted) := by
  obtain ⟨hborn,hrun,hwait,_⟩ := hm.counters
  refine ⟨h.1,?_⟩
  have hledger := h.2
  cases ph with
  | unused => trivial
  | making maker stage =>
    cases stage with
    | claimed => trivial
    | stamped =>
      show q'.ctime.toNat ≤ _
      rw [hborn]
      exact hledger
    | fresh =>
      show q'.ctime.toNat ≤ _ ∧ _ ∧ _
      rw [hborn, hrun, hwait]
      exact hledger
  | leaving => exact Settled.mild hledger hm
  | zombie => exact Settled.mild hledger hm
  | _ => exact Running.mild hledger hm hc hstate rfl

theorem Ledger.lives (hl : Lives policy a t p ph q ph' q') (hstate : q'.state = ph'.state)
    (hc : CountedOnce t q t q' counted) (h : Ledger t ph q counted) :
    Ledger t ph' q' (noteCounted t q t q' counted) := by
  have hledger := h.2
  cases hl with
  | deed hd =>
    cases hd with
    | touch hm => exact h.touch hm hc hstate
    | rouse hm => exact ⟨h.1,Running.mild hledger hm hc hstate rfl⟩
    | yield hm => exact ⟨h.1,Running.mild hledger hm hc hstate rfl⟩
    | sleep hm => exact ⟨h.1,Running.mild hledger hm hc hstate rfl⟩
    | leave hm => exact ⟨h.1,Running.settle hledger hm⟩
    | claim => exact ⟨h.1,trivial⟩
    | stamp hm =>
      refine ⟨h.1,?_⟩
      show q'.ctime.toNat ≤ _
      rw [hm.counters.1]
    | reset hm =>
      obtain ⟨hborn,hrun,hwait,_⟩ := hm.counters
      refine ⟨h.1,?_,hrun,hwait⟩
      rw [hborn]
      exact hledger
    | publish hm =>
      obtain ⟨hborn,hr,hw⟩ := hledger
      have hnew : Running t q counted := ⟨hborn,by omega⟩
      exact ⟨h.1,hnew.mild hm hc hstate rfl⟩
    | discard => exact ⟨h.1,trivial⟩
    | reap => exact ⟨h.1,trivial⟩
    | choose hm _ _ hrunnable =>
      have hopen : Running t q counted := by
        rcases Phase.eq_runnable hrunnable with rfl | rfl
        · exact hledger
        · exact hledger
      obtain ⟨hborn,hrun,hwait,_⟩ := hm.counters
      dsimp only at hrun hwait
      exact ⟨h.1,hopen.note hborn (by omega) (by omega) (by omega) hc hstate rfl⟩
    | start hm _ hph =>
      have hopen : Running t q counted := by
        rcases hph with rfl | ⟨rfl,_⟩
        · exact hledger
        · exact hledger
      exact ⟨h.1,hopen.mild hm hc hstate rfl⟩
  | die hm => exact ⟨h.1,Settled.mild hledger hm⟩
  | run =>
    exact ⟨h.1,Running.note hledger rfl (by dsimp only; omega) (Nat.le_succ _) (Nat.le_refl _) hc
      hstate rfl⟩
  | wait hph =>
    by_cases hrunnable : q.state = .runnable
    · rw [if_pos hrunnable] at hc ⊢
      have hnext : ph.alive = true → Running t q counted →
          Running t { q with wtime := q.wtime + 1 } (noteCounted t q t _ counted) :=
        fun halive hopen => hopen.note rfl (by dsimp only; omega) (Nat.le_refl _) (Nat.le_succ _) hc
          hstate halive
      rcases Phase.eq_runnable (hph.trans hrunnable) with rfl | rfl
      · exact ⟨h.1,hnext rfl hledger⟩
      · exact ⟨h.1,hnext rfl hledger⟩
    · rw [if_neg hrunnable] at hc hstate ⊢
      exact h.touch (Proc.Mild.refl q) hc hstate

/-- The clock makes room for one more count. -/
theorem Ledger.tick (hc : CountedOnce t q (t + 1) q counted) (h : Ledger t ph q counted) :
    Ledger (t + 1) ph q (noteCounted t q (t + 1) q counted) := by
  have hold := h.1
  have hnew := hc.1
  have hledger := h.2
  rw [BitVec.msb_eq_false_iff_two_mul_lt] at hold hnew
  have hnext : (t + 1).toNat = t.toNat + 1 := by
    have hone : (1 : BitVec 32).toNat = 1 := rfl
    rw [BitVec.toNat_add, hone]
    apply Nat.mod_eq_of_lt
    omega
  have hopen : Running t q counted → Running (t + 1) q (noteCounted t q (t + 1) q counted) := by
    intro ho
    have hsum := ho.counted
    have hle : counted.toNat ≤ 1 := Bool.toNat_le counted
    refine ⟨?_,?_⟩
    · rw [hnext]
      exact Nat.le_succ_of_le ho.born
    · rw [hnext]
      omega
  have hsettled : Settled t q → Settled (t + 1) q :=
    fun hs => ⟨hs.born,by rw [hnext]; exact Nat.le_succ_of_le hs.ended,hs.counted⟩
  refine ⟨hc.1,?_⟩
  cases ph with
  | unused => trivial
  | making maker stage =>
    cases stage with
    | claimed => trivial
    | stamped =>
      show _ ≤ (t + 1).toNat
      rw [hnext]
      exact Nat.le_succ_of_le hledger
    | fresh =>
      show _ ≤ (t + 1).toNat ∧ _
      rw [hnext]
      exact ⟨Nat.le_succ_of_le hledger.1,hledger.2⟩
  | leaving => exact hsettled hledger
  | zombie => exact hsettled hledger
  | _ => exact hopen hledger

end Lives

/-! ## Runs -/

theorem boot_ledger (p : Slot) : Ledger (boot n policy).data.ticks ((bootGhost n).phase p)
    ((boot n policy).data.proc p) false := by
  have hticks : (0 : BitVec 32).msb = false := by decide
  refine ⟨hticks,?_⟩
  by_cases hp : p = 0
  · simp only [boot, bootGhost, hp, ↓reduceIte]
    exact ⟨Nat.le_refl 0,Nat.le_refl 0⟩
  · simp only [bootGhost, hp, ↓reduceIte]

theorem Settled.sum_le {t : BitVec 32} {q : Proc} (h : Settled t q) (ht : t.msb = false) :
    (q.rtime + q.wtime : ℤ) ≤ q.etime.toInt - q.ctime.toInt + 1 := by
  obtain ⟨hborn,hended,hcounted⟩ := h
  rw [BitVec.msb_eq_false_iff_two_mul_lt] at ht
  rw [BitVec.toInt_eq_toNat_of_lt (by omega), BitVec.toInt_eq_toNat_of_lt (by omega)]
  omega

/-- The timer interrupts that each hart has taken since the last increment of `ticks`. -/
def noteTimer (s : Data n) (e : Event (Fin n) Entry) (s' : Data n) (o : Fin n → ℕ) : Fin n → ℕ :=
  if s'.ticks = s.ticks then
    match e with
    | .trap h (.timer _) => Function.update o h (o h + 1)
    | .trap h .kerneltrap => Function.update o h (o h + 1)
    | _ => o
  else fun _ => 0

abbrev timerStep (n : ℕ) (policy : Policy) :
    System n × (Fin n → ℕ) → Event (Fin n) Entry → Option (System n × (Fin n → ℕ)) :=
  watched (step (code n policy)) (fun m e m' => noteTimer m.data e m'.data)

/-- `ticks` is only incremented when every hart has taken one timer interrupt. -/
def Paced (n : ℕ) (policy : Policy) (x : System n × (Fin n → ℕ)) (e : Event (Fin n) Entry) : Prop :=
  ∀ m' ∈ step (code n policy) x.1 e, m'.data.ticks ≠ x.1.data.ticks → ∀ h, x.2 h = 1

instance (n : ℕ) (policy : Policy) (x : System n × (Fin n → ℕ)) (e : Event (Fin n) Entry) :
    Decidable (Paced n policy x e) :=
  inferInstanceAs (Decidable (∀ m' ∈ step (code n policy) x.1 e, _))

/-- On two harts the first process forks twice. One child runs while the other waits
for two ticks, each counted by both harts; then the children exit one after the
other, and their parent calls `waitx` for both. -/
def countedTwice (h k : Fin n) : List (Event (Fin n) Entry) :=
  script [(h,202,.syscall 0 (.fork .ok)),(h,34,.syscall 0 (.fork .ok)),(h,37,.timer 0),
      (k,202,.timer 1),(h,390,.timer 0),(k,195,.timer 1),
      (h,390,.syscall 0 (.waitx true true true true)),(k,195,.syscall 1 (.exit 0)),
      (k,477,.syscall 2 (.exit 0))] ++ List.replicate 274 (.run k) ++
    script [(h,18,.syscall 0 (.waitx true true true true))] ++ List.replicate 11 (.run h)

end CShellXv6.Kernel
