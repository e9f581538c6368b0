import CShellXv6.Kernel.ProcNumbers
import Mathlib.Data.Finset.Max

/-! # The order of creation under the FIFO scheduler

On one hart the scheduler dispatches the first of the runnable processes by `ctime` and slot.
The process numbers grow with each creation, but several processes are made in one tick and
slots are used again, so that the two orders agree only while each new process comes last.
-/
namespace CShellXv6.Kernel
open SpinLock Transition
variable {n : ℕ}

/-! ## Runs -/

/-- The scheduler has interrupts on only at the head of its loop. -/
def Masked (m : System 1) (e : Event (Fin 1) Entry) : Prop :=
  ∀ h, e = .trap h .kerneltrap → m.data.cpu h = none → m.frames h = [scheduler .fifo]

/-- A process that the step makes comes last. -/
def CreatesLast (m : System 1) (e : Event (Fin 1) Entry) : Prop :=
  ∀ m' ∈ step (code 1 .fifo) m e, ∀ x, (m.data.proc x).state = .unused →
    (m'.data.proc x).state = .used → m.data.CreatedLast x

instance (m : System 1) (e : Event (Fin 1) Entry) : Decidable (CreatesLast m e) :=
  inferInstanceAs (Decidable (∀ m' ∈ step (code 1 .fifo) m e, _))

/-- Every process in the table has a number. -/
def Known (s : Data 1) : Prop := ∀ x, (s.proc x).state ≠ .unused → (s.proc x).pid ≠ 0

/-- A free slot is only claimed. -/
theorem Lives.of_unused {a : Agent (Fin n) Slot} {ticks : BitVec 32} {p : Slot} {ph' : Phase}
    {q q' : Proc} (hl : Lives .fifo a ticks p .unused q ph' q') :
    ph'.state = .unused ∨ ph'.state = .used := by
  cases hl with
  | deed hd =>
    cases hd with
    | touch => exact Or.inl rfl
    | claim => exact Or.inr rfl
    | choose _ _ _ hstate => cases hstate
    | start _ _ hph =>
      rcases hph with hph | ⟨hph,_⟩
      · cases hph
      · cases hph
  | wait => exact Or.inl rfl

theorem stepped_unused {w w' : World 1} {e : Event (Fin 1) Entry} (hi : Inv w) (hi' : Inv w')
    (hs : (life 1 .fifo).Stepped e w w') {x : Slot} (hx : (w.1.proc x).state = .unused) :
    (w'.1.proc x).state = .unused ∨ (w'.1.proc x).state = .used := by
  rcases stepped_cases hs with ⟨_,rfl⟩ | ⟨a,tr,held,hm,_⟩
  · exact Or.inl hx
  · rcases hm.lives hi x with ⟨_,hl⟩ | ⟨_,_,_,hsame⟩
    · rw [Phase.eq_unused ((hi.state x).symm.trans hx)] at hl
      rw [hi'.state x]
      exact hl.of_unused
    · exact Or.inl (hsame ▸ hx)

theorem Known.step {last : Prop} {s s' : Data 1} (hs : Known s)
    (hclaim : ∀ x, (s.proc x).state = .unused →
      (s'.proc x).state = .unused ∨ (s'.proc x).state = .used)
    (h : s' = s ∨ Orderly last s s') : Known s' := by
  rcases h with rfl | h
  · exact hs
  intro x hx
  by_cases hfree : (s.proc x).state = .unused
  · exact h.made x (by simp [hfree]) ((hclaim x hfree).resolve_left hx)
  · intro hzero
    rcases h.freed x hzero with hpid | hunused
    · exact hs x hfree hpid
    · exact hx hunused

/-- What holds at every state of a run. -/
structure Sorted (last : Prop) (m : System 1) : Prop where
  conforms : ∃ w held ctx, (life 1 .fifo).Conforms (code 1 .fifo) order m w held ctx
  governs : ∀ h, (numbering last).Governs (code 1 .fifo) .scheduler h m
  known : Known m.data

theorem Masked.regime {last : Prop} {m m' : System 1} {e : Event (Fin 1) Entry} (hm : Masked m e)
    (he : step (code 1 .fifo) m e = some m') (h : Fin 1) :
    (numbering last).Masked (code 1 .fifo) .scheduler h m e := by
  rintro e' rfl hidle
  obtain ⟨⟨_,htrap⟩,_⟩ := Option.ite_none_right_eq_some.mp he
  cases hf : m.frames h with
  | nil => exact Or.inl rfl
  | cons p rest =>
    rw [hf] at htrap
    cases e' with
    | kerneltrap =>
      rw [← hf]
      exact Or.inr (hm h rfl (hidle h))
    | _ => cases htrap

theorem Sorted.step {last : Prop} {m m' : System 1} {e : Event (Fin 1) Entry} (hm : Sorted last m)
    (hmasked : Masked m e) (hlast : last → CreatesLast m e)
    (he : step (code 1 .fifo) m e = some m') :
    Sorted last m' ∧ (m'.data = m.data ∨ Orderly last m.data m'.data) := by
  obtain ⟨⟨w,held,ctx,hc⟩,hgoverns,hknown⟩ := hm
  obtain ⟨w',held',ctx',hc',hs⟩ := hc.step (order_sound 1 .fifo) (life_sound 1 .fifo) he
  have hgoverned := fun h => (hgoverns h).step (order_sound 1 .fifo) (numbering_sound last h)
    hc.toDisciplined (hmasked.regime he h) he fun hl => hlast hl m' he
  have horderly := (hgoverned 0).2
  refine ⟨⟨⟨w',held',ctx',hc'⟩,fun h => (hgoverned h).1,?_⟩,horderly⟩
  refine hknown.step (fun x hx => ?_) horderly
  rw [hc.data] at hx
  rw [hc'.data]
  exact stepped_unused hc.inv hc'.inv hs hx

theorem boot_numbered (last : Prop) : Numbered last (boot 1 .fifo).data := by
  have hpid : ∀ x, ((boot 1 .fifo).data.proc x).pid = if x = 0 then 1 else 0 := by
    intro x
    simp only [boot]
    split
    · rfl
    · rfl
  have hfirst : ∀ x, ((boot 1 .fifo).data.proc x).pid ≠ 0 → x = 0 := by
    intro x hx
    by_contra hne
    rw [hpid, if_neg hne] at hx
    exact hx rfl
  constructor
  · exact Nat.two_pos
  · intro x
    rw [hpid]
    split
    · exact Nat.one_lt_two
    · exact Nat.two_pos
  · intro x y hx hxy
    rw [hfirst x hx, hfirst y (hxy ▸ hx)]
  · intro x hx
    rw [hfirst x hx]
    simp [boot]
  · intro _ x y hx hxy
    rw [hfirst x hx, hfirst y (Nat.ne_zero_of_lt hxy)] at hxy
    exact absurd hxy (Nat.lt_irrefl _)

theorem boot_sorted (last : Prop) : Sorted last (boot 1 .fifo) := by
  have hsteady : (numbering last).Steady true (boot 1 .fifo).data :=
    ⟨boot_numbered last,fun _ _ => rfl⟩
  refine ⟨⟨_,_,_,boot_conforms 1 .fifo⟩,fun h => ⟨?_,fun t => ?_⟩,fun x hx => ?_⟩
  · show (numbering last).Stack (code 1 .fifo) .scheduler h 0 _ [scheduler .fifo]
    exact ⟨true,Or.inl rfl,hsteady,scheduler_safe hsteady⟩
  · refine ⟨_,_,rfl,fun s hs => ⟨hs,fun _ => .of_quiet⟩,fun q hq => ?_⟩
    exact absurd hq List.not_mem_nil
  · simp only [boot] at hx ⊢
    split
    · exact Nat.one_ne_zero
    · next hne =>
      rw [if_neg hne] at hx
      exact absurd rfl hx

theorem sorted_runs {last : Prop} {m : System 1} (hr : Runs (step (code 1 .fifo))
    (fun m e => Masked m e ∧ (last → CreatesLast m e)) (boot 1 .fifo) m) : Sorted last m :=
  hr.invariant (boot_sorted last) fun _ _ _ hm hg he => (hm.step hg.1 hg.2 he).1

/-! ## Dispatches -/

/-- No runnable process has a smaller number. -/
def Data.InOrder (s : Data n) (p : Slot) : Prop :=
  ∀ q, (s.proc q).state = .runnable → (s.proc p).pid ≤ (s.proc q).pid

theorem Data.Earliest.unique {s : Data n} {table : List Slot} {p q : Slot}
    (hp : s.Earliest table (some p)) (hq : s.Earliest table (some q)) : p = q := by
  rcases hp.2.2 q hq.1 hq.2.1 with hpq | ⟨_,hpq⟩
  · rcases hq.2.2 p hp.1 hp.2.1 with hqp | ⟨hqp,_⟩
    · exact absurd hqp (Int.lt_asymm hpq)
    · exact absurd hqp (Int.ne_of_gt hpq)
  · rcases hq.2.2 p hp.1 hp.2.1 with hqp | ⟨_,hqp⟩
    · omega
    · exact Fin.le_antisymm hpq hqp

theorem Data.Earliest.not_before {s : Data n} {table : List Slot} {p q : Slot}
    (hp : s.Earliest table (some p)) (hq : q ∈ table) (hrun : (s.proc q).state = .runnable) :
    ¬s.Before q p := by
  rintro (hlt | ⟨heq,hlt⟩)
  · rcases hp.2.2 q hq hrun with hpq | ⟨hpq,_⟩
    · exact absurd hpq (Int.lt_asymm hlt)
    · exact absurd hpq (Int.ne_of_gt hlt)
  · rcases hp.2.2 q hq hrun with hpq | ⟨_,hpq⟩
    · exact absurd heq (Int.ne_of_gt hpq)
    · exact absurd hlt (Nat.not_lt_of_le hpq)

/-- One of the runnable processes was created first. -/
theorem Data.exists_inOrder {s : Data n} {p : Slot} (hp : (s.proc p).state = .runnable) :
    ∃ x, (s.proc x).state = .runnable ∧ s.InOrder x := by
  have hne : (Finset.univ.filter fun x => (s.proc x).state = .runnable).Nonempty :=
    ⟨p,Finset.mem_filter.mpr ⟨Finset.mem_univ p,hp⟩⟩
  obtain ⟨x,hx,hleast⟩ := Finset.exists_min_image _ (fun x => (s.proc x).pid) hne
  refine ⟨x,(Finset.mem_filter.mp hx).2,fun q hq => hleast q ?_⟩
  exact Finset.mem_filter.mpr ⟨Finset.mem_univ q,hq⟩

/-- A process is dispatched by a step of its own, not by a trap. -/
theorem Sorted.dispatches {last : Prop} {m m' : System 1} {e : Event (Fin 1) Entry}
    (hm : Sorted last m) (hlast : last → CreatesLast m e)
    (he : SpinLock.step (code 1 .fifo) m e = some m') {p : Slot}
    (hp : Dispatches m.data m'.data p) : m.data.Earliest (List.finRange nproc) (some p) ∧ Numbered last m.data := by
  cases e with
  | run h =>
    have hmasked : Masked m (.run h) := fun _ heq => by cases heq
    rcases (hm.step hmasked hlast he).2 with hsame | horderly
    · rw [hsame] at hp
      exact absurd hp.2 hp.1
    · exact horderly.chosen p hp
  | trap h e =>
    rw [step_data rfl he] at hp
    exact absurd hp.2 hp.1

/-- The scheduler dispatches the first process by `ctime` and slot, so that a dispatch is in the
order of creation when the process created first is that one. This is so at every dispatch if
each process comes last when it is made. -/
theorem fifo_creation_order {m m' : System 1} {e : Event (Fin 1) Entry} {p : Slot}
    (he : step (code 1 .fifo) m e = some m') (hp : Dispatches m.data m'.data p) :
    (Runs (step (code 1 .fifo)) Masked (boot 1 .fifo) m →
      m.data.Earliest (List.finRange nproc) (some p) ∧
      (m.data.InOrder p ↔ ∀ x, (m.data.proc x).state = .runnable → m.data.InOrder x →
        m.data.Earliest (List.finRange nproc) (some x))) ∧
    (Runs (step (code 1 .fifo)) (fun m e => Masked m e ∧ CreatesLast m e) (boot 1 .fifo) m →
      CreatesLast m e → m.data.InOrder p) := by
  constructor
  · intro hr
    have hm : Sorted False m := sorted_runs (hr.mono fun _ _ hg => ⟨hg,nofun⟩)
    obtain ⟨hearliest,hnumbered⟩ := hm.dispatches nofun he hp
    have hrun := hearliest.2.1
    refine ⟨hearliest,fun hin x hx hxin => ?_,fun hfirst => ?_⟩
    · have hpid : (m.data.proc x).pid = (m.data.proc p).pid :=
        Nat.le_antisymm (hxin p hrun) (hin x hx)
      have hxp := hnumbered.distinct x p (hm.known x (by simp [hx])) hpid
      exact hxp ▸ hearliest
    · obtain ⟨x,hx,hxin⟩ := Data.exists_inOrder hrun
      exact (hfirst x hx hxin).unique hearliest ▸ hxin
  · intro hr hlast q hq
    have hm : Sorted True m := sorted_runs (hr.mono fun _ _ hg => ⟨hg.1,fun _ => hg.2⟩)
    obtain ⟨hearliest,hnumbered⟩ := hm.dispatches (fun _ => hlast) he hp
    by_contra hlt
    have hbefore := hnumbered.sorted trivial q p (hm.known q (by simp [hq])) (Nat.lt_of_not_le hlt)
    exact hearliest.not_before (List.mem_finRange q) hq hbefore

/-- The first process forks two children and waits for one of them. -/
def twoChildren (h : Fin 1) : List (Event (Fin 1) Entry) :=
  script [(h,202,.syscall 0 (.fork .ok)),(h,34,.syscall 0 (.fork .ok)),
    (h,37,.syscall 0 (.wait true))]

/-- No timer interrupt comes in the kernel, and the writes create in order. -/
def untimed (m : System 1) (e : Event (Fin 1) Entry) : Prop :=
  (∀ h, e ≠ .trap h .kerneltrap) ∧ (m.writes e = true → CreatesLast m e)

instance (m : System 1) (e : Event (Fin 1) Entry) : Decidable (untimed m e) :=
  inferInstanceAs (Decidable (_ ∧ _))

theorem untimed.creates {m : System 1} {e : Event (Fin 1) Entry} (h : untimed m e) :
    CreatesLast m e := by
  cases hw : m.writes e with
  | true => exact h.2 hw
  | false =>
    intro m' hm' x hfree hused
    rw [step_data hw hm', hfree] at hused
    cases hused

theorem fifo_creation_order_children : ∃ m m',
    Runs (step (code 1 .fifo)) (fun m e => Masked m e ∧ CreatesLast m e) (boot 1 .fifo) m ∧
      step (code 1 .fifo) m (.run 0) = some m' ∧ Dispatches m.data m'.data 1 ∧
      (m.data.proc 2).state = .runnable ∧ m.data.InOrder 1 := by
  have hrun : ∃ m ∈ execute (restrict (step (code 1 .fifo)) untimed) (boot 1 .fifo)
      (twoChildren 0 ++ List.replicate 287 (.run 0)), (m.data.proc 2).state = .runnable ∧
        CreatesLast m (.run 0) ∧ ∃ m' ∈ step (code 1 .fifo) m (.run 0),
          Dispatches m.data m'.data 1 := by
    decide +kernel
  obtain ⟨m,hm,hwaits,hlast,m',hstep,hdispatch⟩ := hrun
  have hr : Runs (step (code 1 .fifo)) (fun m e => Masked m e ∧ CreatesLast m e)
      (boot 1 .fifo) m :=
    (Runs.of_execute _ hm).mono fun m e hg => ⟨fun h heq => absurd heq (hg.1 h),hg.creates⟩
  exact ⟨m,m',hr,hstep,hdispatch,hwaits,(fifo_creation_order hstep hdispatch).2 hr hlast⟩

/-- The first child exits, and the first process forks a third one into its slot. -/
def reusedSlot (h : Fin 1) : List (Event (Fin 1) Entry) :=
  twoChildren h ++ script [(h,293,.syscall 1 (.exit 0)),(h,487,.syscall 0 (.fork .ok)),
    (h,34,.syscall 0 (.wait true))] ++ List.replicate 287 (.run h)

/-- The third child is dispatched before the second. -/
theorem fifo_reused_slot : ∃ m m', Runs (step (code 1 .fifo)) Masked (boot 1 .fifo) m ∧
    step (code 1 .fifo) m (.run 0) = some m' ∧ Dispatches m.data m'.data 1 ∧
    (m.data.proc 2).state = .runnable ∧ (m.data.proc 2).pid < (m.data.proc 1).pid := by
  have hrun : ∃ m ∈ execute (step (code 1 .fifo)) (boot 1 .fifo) (reusedSlot 0),
      (m.data.proc 2).state = .runnable ∧ (m.data.proc 2).pid < (m.data.proc 1).pid ∧
        ∃ m' ∈ step (code 1 .fifo) m (.run 0), Dispatches m.data m'.data 1 := by
    decide +kernel
  have huntimed : ∀ e ∈ reusedSlot 0, ∀ h, e ≠ .trap h .kerneltrap := by decide +kernel
  obtain ⟨m,hm,hwaits,hpid,m',hstep,hdispatch⟩ := hrun
  have hr : Runs (step (code 1 .fifo)) Masked (boot 1 .fifo) m :=
    (Runs.of_events huntimed hm).mono fun _ _ he h heq => absurd heq (he h)
  exact ⟨m,m',hr,hstep,hdispatch,hwaits,hpid⟩

end CShellXv6.Kernel
