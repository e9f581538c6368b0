import CShellXv6.Kernel.Priority
import Mathlib.Data.Fintype.Card

/-! # Starvation and the boost

A run is observed together with what each process has waited for: the boosts it
has seen and the processes that the scheduler has taken from its queue while it
stayed there. Were the scheduler to take none of them twice, as a queue would,
no process could wait from one boost to the second one after it. But the scan
starts at the first slot each time, and after a boost the low slots come first
again.
-/
namespace CShellXv6.Mlfq
open Kernel (nproc Slot ProcState sliceTicks)
open Transition

structure Observed where
  sys : System
  /-- Boosts that a process has seen since it became runnable. -/
  boosts : Slot → ℕ
  /-- Processes dispatched from the queue of a process since it stands there. -/
  passed : Slot → Finset Slot
  /-- A tick has come since the last round of the scheduler. -/
  ticked : Bool
  /-- Ticks since the last boost. -/
  age : ℕ

/-- The process that a step dispatches. -/
def System.chosen (s : System) : Event → Option Slot
  | .schedule => s.boost.scan
  | _ => none

def System.boosts (s : System) (e : Event) : Bool := e = .schedule && s.boostDue

/-- The processes that have passed `q` in the queue in which it stands when the
scheduler looks at it; a boost may move it to another one. -/
def Observed.stood (o : Observed) (e : Event) (q : Slot) : Finset Slot :=
  if o.sys.boosts e ∧ (o.sys.proc q).priority ≠ 0 then ∅ else o.passed q

def Observed.passing (o : Observed) (e : Event) (t : System) (q : Slot) : Finset Slot :=
  if (t.proc q).state = .runnable then
    match o.sys.chosen e with
    | some r =>
      if (t.proc r).priority = (t.proc q).priority then insert r (o.stood e q) else o.stood e q
    | none => o.stood e q
  else ∅

def observe (o : Observed) (e : Event) : Option Observed :=
  (step o.sys e).map fun t => {
    sys := t
    boosts := fun q =>
      if (t.proc q).state = .runnable then o.boosts q + (if o.sys.boosts e then 1 else 0) else 0
    passed := o.passing e t
    ticked := if e = .schedule then false else if e = .timer then true else o.ticked
    age := if o.sys.boosts e then 0 else if e = .timer then o.age + 1 else o.age }

def Observed.start : Observed := ⟨boot,fun _ => 0,fun _ => ∅,false,0⟩

/-- The second boost after the first that `p` has seen is due, and `p` has been
runnable all the time. -/
def Observed.Starved (o : Observed) (p : Slot) : Prop :=
  (o.sys.proc p).state = .runnable ∧ 2 ≤ o.boosts p ∧ o.sys.cpu = .scheduler ∧ o.sys.boostDue = true

/-- The scheduler takes no process a second time from a queue in which another one
has stood since the first time, and no two ticks come without a round of the
scheduler between them while it has the hart. -/
def Fair (o : Observed) (e : Event) : Prop :=
  (∀ r, o.sys.chosen e = some r → ∀ q, q ≠ r → (o.sys.proc q).state = .runnable →
    (o.sys.boost.proc q).priority = (o.sys.boost.proc r).priority → r ∉ o.stood e q) ∧
  (e = .timer → o.sys.cpu = .scheduler → o.ticked = false)

instance (o : Observed) (e : Event) : Decidable (Fair o e) := by unfold Fair; infer_instance

theorem observe_eq_some {o o' : Observed} {e : Event} (h : observe o e = some o') :
    ∃ t, step o.sys e = some t ∧ o' = {
      sys := t
      boosts := fun q =>
        if (t.proc q).state = .runnable then o.boosts q + (if o.sys.boosts e then 1 else 0) else 0
      passed := o.passing e t
      ticked := if e = .schedule then false else if e = .timer then true else o.ticked
      age := if o.sys.boosts e then 0 else if e = .timer then o.age + 1 else o.age } := by
  obtain ⟨t,ht,rfl⟩ := Option.map_eq_some_iff.mp h
  exact ⟨t,ht,rfl⟩

/-! ## A round of the scheduler -/

theorem boost_state (s : System) (q : Slot) : (s.boost.proc q).state = (s.proc q).state := by
  unfold System.boost
  split <;> rfl

theorem dispatch_priority (s : System) (r q : Slot) :
    ((s.dispatch r).proc q).priority = (s.proc q).priority := by
  by_cases hq : q = r
  · rw [hq]
    simp [System.dispatch]
  · simp [System.dispatch,hq]

/-- With a process left runnable, the scheduler has taken another one. -/
theorem schedule_passes {s : System} (hs : Ok s) {p : Slot}
    (hp : (s.schedule.proc p).state = .runnable) :
    ∃ r, s.boost.scan = some r ∧ s.schedule = s.boost.dispatch r ∧ p ≠ r ∧
      (s.proc p).state = .runnable ∧ (s.boost.proc r).priority ≤ (s.boost.proc p).priority := by
  unfold System.schedule at hp ⊢
  split at hp
  · next r hscan =>
    have hne : p ≠ r := by
      rintro rfl
      simp [System.dispatch] at hp
    have hrun : (s.boost.proc p).state = .runnable := by simpa [System.dispatch,hne] using hp
    rw [hscan]
    exact ⟨r,rfl,rfl,hne,by rw [← boost_state, hrun],scan_top hscan p hrun⟩
  · next hscan => exact absurd hp (scan_eq_none hs.boost hscan p)

theorem boost_priority_of_due {s : System} (h : s.boostDue = true) (q : Slot) :
    (s.boost.proc q).priority = 0 := by
  simp [System.boost,h]

/-! ## The invariant -/

/-- A process that has seen a boost stands in the first queue, and for each tick
since then another process has been dispatched. -/
structure Waiting (o : Observed) (p : Slot) : Prop where
  priority : (o.sys.proc p).priority = 0
  count : 48 * (o.boosts p - 1) + o.age + 1 ≤ (o.passed p).card + (if o.ticked then 1 else 0)
  current : ∀ r, o.sys.cpu.current = some r → (o.sys.proc r).priority = 0
  leaving : o.ticked = true → o.sys.cpu.Leaving

structure Tracked (o : Observed) : Prop where
  ok : Ok o.sys
  age : o.sys.ticks - o.sys.mlfqTicksSinceBoost = BitVec.ofNat 32 o.age
  runnable : ∀ q, 0 < o.boosts q → (o.sys.proc q).state = .runnable
  waiting : ∀ p, 0 < o.boosts p → Waiting o p

theorem Tracked.due {o : Observed} (ho : Tracked o) (h : o.sys.boostDue = true) : 48 ≤ o.age := by
  simp only [System.boostDue, ho.age, decide_eq_true_eq] at h
  have hmod : 48 ≤ o.age % 2^32 := by simpa [BitVec.le_def] using h
  exact hmod.trans (Nat.mod_le _ _)

theorem schedule_ticks (s : System) : s.schedule.ticks = s.ticks := by
  have hboost : s.boost.ticks = s.ticks := by
    unfold System.boost
    split <;> rfl
  unfold System.schedule
  split <;> exact hboost

theorem schedule_boosted (s : System) : s.schedule.mlfqTicksSinceBoost =
    if s.boostDue then s.ticks else s.mlfqTicksSinceBoost := by
  have hboost : s.boost.mlfqTicksSinceBoost =
      if s.boostDue then s.ticks else s.mlfqTicksSinceBoost := by
    unfold System.boost
    split <;> rfl
  unfold System.schedule
  split <;> exact hboost

/-- The dispatch that follows pays for the tick before it. -/
theorem Tracked.stood_count {o : Observed} (ho : Tracked o) {p : Slot} (hp : 0 < o.boosts p) :
    48 * (o.boosts p - 1) + o.age ≤ (o.stood .schedule p).card := by
  have hwait := ho.waiting p hp
  have hcount := hwait.count
  have hstood : o.stood .schedule p = o.passed p := by simp [Observed.stood,hwait.priority]
  rw [hstood]
  split at hcount <;> omega

theorem Tracked.boost_count {o : Observed} (ho : Tracked o) (p : Slot)
    (hdue : o.sys.boostDue = true) : 48 * o.boosts p ≤ (o.stood .schedule p).card := by
  have hage := ho.due hdue
  rcases Nat.eq_zero_or_pos (o.boosts p) with hzero | hpos
  · simp [hzero]
  · have hcount := ho.stood_count hpos
    omega

theorem Tracked.schedule {o o' : Observed} (ho : Tracked o) (hfair : Fair o .schedule)
    (h : observe o .schedule = some o') : Tracked o' := by
  obtain ⟨t,ht,rfl⟩ := observe_eq_some h
  obtain ⟨_,rfl⟩ := step_schedule ht
  have hrunnable : ∀ q, 0 < (if (o.sys.schedule.proc q).state = .runnable then
      o.boosts q + (if o.sys.boosts .schedule then 1 else 0) else 0) →
      (o.sys.schedule.proc q).state = .runnable := by
    intro q hq
    by_contra hnot
    simp [hnot] at hq
  refine ⟨ho.ok.schedule,?_,hrunnable,fun p hp => ?_⟩
  · rw [schedule_ticks, schedule_boosted]
    by_cases hdue : o.sys.boostDue = true
    · simp [hdue,System.boosts]
    · simpa [hdue,System.boosts] using ho.age
  have hleft := hrunnable p hp
  obtain ⟨r,hscan,heq,hne,hrun,hle⟩ := schedule_passes ho.ok hleft
  simp only [hleft, if_true] at hp
  -- the process has stood in the first queue, or the boost puts it there
  have hzero : (o.sys.boost.proc p).priority = 0 := by
    by_cases hdue : o.sys.boostDue = true
    · exact boost_priority_of_due hdue p
    · simp only [System.boosts, hdue] at hp
      have hold := (ho.waiting p (by simpa using hp)).priority
      simpa [System.boost,hdue] using hold
  have hr : (o.sys.boost.proc r).priority = 0 := by omega
  have hnew : r ∉ o.stood .schedule p := hfair.1 r hscan p hne hrun (by rw [hzero, hr])
  have hpassing : o.passing .schedule o.sys.schedule p = insert r (o.stood .schedule p) := by
    simp only [Observed.passing, hleft, System.chosen, hscan, if_true]
    rw [heq, dispatch_priority, dispatch_priority, hzero, hr, if_pos rfl]
  refine ⟨?_,?_,fun q hq => ?_,fun hticked => by simp at hticked⟩
  · rw [heq, dispatch_priority, hzero]
  · dsimp only
    rw [hpassing, Finset.card_insert_of_notMem hnew]
    by_cases hdue : o.sys.boostDue = true
    · have hcount := ho.boost_count p hdue
      simpa [hleft,hdue,System.boosts] using hcount
    · have hcount := ho.stood_count (p := p) (by simpa [hdue,System.boosts] using hp)
      simpa [hleft,hdue,System.boosts] using hcount
  · rw [heq] at hq ⊢
    have hqr : r = q := Option.some.inj (((o.sys.boost.thread r).resume_current r).symm.trans hq)
    rw [dispatch_priority, ← hqr, hr]

/-- A tick takes the hart from a process of the first queue. -/
theorem mlfqTick_first {s : System} {p : Slot} (h : (s.proc p).priority = 0) :
    s.mlfqTick p = (s.modify p fun q => { q with
      state := .runnable, priority := 1, ticksUsed := 0 }).sched p .timer := by
  unfold System.mlfqTick
  rw [if_pos (by simp [h,sliceTicks])]
  unfold System.yield
  rw [System.modify_modify, System.modify_modify]
  refine congrArg (System.sched · p .timer) (s.modify_congr p ?_)
  simp [Proc.demote,h]

theorem timer_leaves {s t : System} (h : step s .timer = some t)
    (hcur : ∀ r, s.cpu.current = some r → (s.proc r).priority = 0) : t.cpu.Leaving := by
  cases step_stepped h with
  | clock hcpu =>
    have hscheduler : s.clockintr.cpu = .scheduler := hcpu
    rw [hscheduler]
    trivial
  | @tick p hcpu =>
    have hzero := hcur p (by rw [hcpu]; rfl)
    unfold System.usertrapTimer System.checkKilled
    split
    · rfl
    · have hwoken := (clockintr_woken s).trans (countTick_woken s.clockintr p)
      rw [mlfqTick_first ((hwoken.priority p).trans hzero)]
      trivial
  | preempt => trivial

/-- A timer interrupt is taken in the scheduler or where the hart is not on its
way there. -/
theorem timer_from {s t : System} (h : step s .timer = some t) :
    s.cpu = .scheduler ∨ ¬ s.cpu.Leaving := by
  cases step_stepped h with
  | clock hcpu => exact Or.inl hcpu
  | tick hcpu => exact Or.inr (by simp [hcpu,Cpu.Leaving])
  | preempt hcpu => exact Or.inr (by simp [hcpu,Cpu.Leaving])

section Outside
variable {o : Observed} {e : Event} {t : System} (ho : Tracked o) (ht : step o.sys e = some t)
  (he : e ≠ .schedule)
include ho ht he

theorem Tracked.age_outside : t.ticks - t.mlfqTicksSinceBoost =
    BitVec.ofNat 32 (if e = .timer then o.age + 1 else o.age) := by
  rw [step_ticks ho.ok ht he, (step_keeps ho.ok ht he).boosted]
  split
  · have hnext : BitVec.ofNat 32 (o.age + 1) = o.sys.ticks - o.sys.mlfqTicksSinceBoost + 1 := by
      rw [BitVec.ofNat_add, ho.age]
      rfl
    rw [hnext]
    bv_omega
  · exact ho.age

omit he in
/-- A tick finds no other one since the last round of the scheduler. -/
theorem Tracked.not_ticked (hfair : Fair o e) {p : Slot} (hp : 0 < o.boosts p)
    (htimer : e = .timer) : o.ticked = false := by
  rw [htimer] at ht
  rcases timer_from ht with hcpu | hnot
  · exact hfair.2 htimer hcpu
  · by_contra hticked
    exact hnot ((ho.waiting p hp).leaving (by simpa using hticked))

omit ho ht in
theorem passing_outside (o : Observed) {p : Slot} (hp : (t.proc p).state = .runnable) :
    o.passing e t p = o.passed p := by
  have hchosen : o.sys.chosen e = none := by
    cases e with
    | schedule => exact absurd rfl he
    | _ => rfl
  simp [Observed.passing,hp,hchosen,Observed.stood,System.boosts,he]

omit ht in
theorem Tracked.outside {o' : Observed} (hfair : Fair o e) (h : observe o e = some o') :
    Tracked o' := by
  obtain ⟨t,ht,rfl⟩ := observe_eq_some h
  have hkeeps := step_keeps ho.ok ht he
  have hboosts : o.sys.boosts e = false := by simp [System.boosts,he]
  have hrunnable : ∀ q, 0 < (if (t.proc q).state = .runnable then
      o.boosts q + (if o.sys.boosts e then 1 else 0) else 0) → (t.proc q).state = .runnable := by
    intro q hq
    by_contra hnot
    simp [hnot] at hq
  refine ⟨hkeeps.ok,?_,hrunnable,fun p hp => ?_⟩
  · simpa [hboosts] using ho.age_outside ht he
  have hleft := hrunnable p hp
  have hpos : 0 < o.boosts p := by simpa [hleft,hboosts] using hp
  have hwait := ho.waiting p hpos
  have hcurrent : ∀ r, t.cpu.current = some r → (t.proc r).priority = 0 := by
    intro r hr
    obtain ⟨hcur,hprio⟩ := hkeeps.current r hr
    rw [hprio]
    exact hwait.current r hcur
  have hprio : (t.proc p).priority = 0 := by
    rw [hkeeps.priority p (ho.runnable p hpos), hwait.priority]
  have hpassing := passing_outside he o hleft
  have hcount := hwait.count
  by_cases htimer : e = .timer
  · have hfresh := ho.not_ticked ht hfair hpos htimer
    refine ⟨hprio,?_,hcurrent,fun _ => timer_leaves (htimer ▸ ht) hwait.current⟩
    dsimp only
    rw [hpassing, if_pos hleft, hboosts, if_neg he, if_pos htimer, if_pos htimer]
    simp only [hfresh, Bool.false_eq_true, if_false, if_true] at hcount ⊢
    omega
  · refine ⟨hprio,?_,hcurrent,fun hticked => ?_⟩
    · simpa [hleft,hboosts,hpassing,htimer,he] using hcount
    · have hmoves := step_moves ho.ok ht he htimer
      exact hmoves.leaving (hwait.leaving (by simpa [he,htimer] using hticked))

end Outside

theorem Tracked.observe {o o' : Observed} {e : Event} (ho : Tracked o) (hfair : Fair o e)
    (h : observe o e = some o') : Tracked o' := by
  by_cases he : e = .schedule
  · subst he
    exact ho.schedule hfair h
  · exact ho.outside he hfair h

theorem start_tracked : Tracked .start :=
  ⟨boot_ok,rfl,fun _ hq => absurd hq (Nat.lt_irrefl 0),fun _ hp => absurd hp (Nat.lt_irrefl 0)⟩

theorem observe_of_step {o : Observed} {e : Event} {t : System} (h : step o.sys e = some t) :
    ∃ o', observe o e = some o' ∧ o'.sys = t ∧ ∀ q, (t.proc q).state = .runnable →
      o'.boosts q = o.boosts q + (if o.sys.boosts e then 1 else 0) := by
  refine ⟨_,by rw [observe, h]; rfl,rfl,fun q hq => ?_⟩
  exact if_pos hq

theorem Before.asymm {a b : ℕ × Slot} (h : Before a b) (k : Before b a) : False := by
  rcases h with h | ⟨heq,h⟩
  · rcases k with k | ⟨_,k⟩ <;> omega
  · rcases k with k | ⟨_,k⟩
    · omega
    · exact lt_asymm h k

/-- The scan finds the process that comes first. -/
theorem scan_of_first {s : System} (hs : Ok s) {p : Slot} (hp : (s.proc p).state = .runnable)
    (hfirst : ∀ r, r ≠ p → (s.proc r).state = .runnable →
      Before ((s.proc p).priority,p) ((s.proc r).priority,r)) : s.scan = some p := by
  cases hscan : s.scan with
  | none => exact absurd hp (scan_eq_none hs hscan p)
  | some r =>
    obtain ⟨hr,_,hbefore⟩ := scan_eq_some hscan
    by_cases hrp : r = p
    · rw [hrp]
    · rcases hbefore p hp with heq | hrb
      · exact absurd heq.symm hrp
      · exact (Before.asymm hrb (hfirst r hrp hr)).elim

/-- The processes of the first 49 slots only compute, and those below `j` have used
up their slice of the first queue. -/
structure Computing (s : System) (j : ℕ) : Prop where
  state : ∀ q : Slot, (s.proc q).state = if q.val ≤ 48 then .runnable else .unused
  killed : ∀ q, (s.proc q).killed = false
  priority : ∀ q : Slot, q.val ≤ 48 → (s.proc q).priority = if q.val < j then 1 else 0
  thread : ∀ q : Slot, q.val ≤ 48 → s.thread q = .forkret ∨ s.thread q = .timer

theorem Computing.last {s : System} {j : ℕ} (h : Computing s j) :
    (s.proc 48).state = .runnable := by
  have hval : (48 : Slot).val = 48 := rfl
  rw [h.state, hval, if_pos (Nat.le_refl 48)]

theorem Computing.scan {s : System} {j : ℕ} (hok : Ok s) (h : Computing s j) (hj : j ≤ 48)
    (p : Slot) (hp : p.val = j) : s.scan = some p := by
  refine scan_of_first hok (by rw [h.state, if_pos (by omega)]) fun r hne hr => ?_
  have hr48 : r.val ≤ 48 := by
    by_contra hnot
    simp [h.state,hnot] at hr
  rw [h.priority p (by omega), h.priority r hr48, if_neg (by omega)]
  split
  · exact Or.inl Nat.zero_lt_one
  · have hlt : p < r := by
      have hval : r.val ≠ p.val := fun heq => hne (Fin.ext heq)
      refine Fin.lt_def.mpr ?_
      omega
    exact Or.inr ⟨rfl,hlt⟩

theorem clockintr_killed (s : System) (q : Slot) :
    (s.clockintr.proc q).killed = (s.proc q).killed := by
  simp only [System.clockintr, System.wakeup, Proc.wake]
  split <;> rfl

theorem countTick_killed (s : System) (p q : Slot) :
    ((s.countTick p).proc q).killed = (s.proc q).killed := by
  simp only [System.countTick]
  split
  · rfl
  split <;> rfl

/-- A tick in the slice of a process of the first queue. -/
theorem usertrapTimer_first {s : System} {p : Slot} (hkilled : (s.proc p).killed = false)
    (hprio : (s.proc p).priority = 0) :
    s.usertrapTimer p = ((s.clockintr.countTick p).modify p fun q => { q with
      state := .runnable, priority := 1, ticksUsed := 0 }).sched p .timer := by
  have hwoken := (clockintr_woken s).trans (countTick_woken s.clockintr p)
  unfold System.usertrapTimer System.checkKilled
  rw [if_neg (by rw [clockintr_killed, hkilled]; decide)]
  exact mlfqTick_first ((hwoken.priority p).trans hprio)

/-- The process `p` runs for its slice. -/
theorem Computing.slice {s u : System} {j : ℕ} (h : Computing s j) (hj : j ≤ 48) {p : Slot}
    (hp : p.val = j) (hother : ∀ q, q ≠ p → u.proc q = s.proc q)
    (hthread : ∀ q, q ≠ p → u.thread q = s.thread q) (hkilled : (u.proc p).killed = false)
    (hprio : (u.proc p).priority = 0) :
    Computing (u.usertrapTimer p) (j + 1) := by
  rw [usertrapTimer_first hkilled hprio]
  have hwoken := (clockintr_woken u).trans (countTick_woken u.clockintr p)
  have hdead : ∀ q, ((u.clockintr.countTick p).proc q).killed = (u.proc q).killed := by
    intro q
    rw [countTick_killed, clockintr_killed]
  have hslept : ∀ q, q ≠ p → ((u.clockintr.countTick p).proc q).state = (s.proc q).state := by
    intro q hq
    rw [← hother q hq]
    refine hwoken.keeps rfl ?_
    have hstate : (u.proc q).state = _ := (congrArg Proc.state (hother q hq)).trans (h.state q)
    rw [hstate]
    split <;> decide
  refine ⟨fun q => ?_,fun q => ?_,fun q hq => ?_,fun q hq => ?_⟩
  · by_cases hqp : q = p
    · rw [hqp, if_pos (by omega)]
      simp [System.sched]
    · simp only [System.sched, System.modify_ne _ _ hqp]
      rw [hslept q hqp, h.state]
  · by_cases hqp : q = p
    · rw [hqp]
      simpa [System.sched,hdead] using hkilled
    · simp only [System.sched, System.modify_ne _ _ hqp]
      rw [hdead, hother q hqp, h.killed]
  · by_cases hqp : q = p
    · rw [hqp, if_pos (by omega)]
      simp [System.sched]
    · simp only [System.sched, System.modify_ne _ _ hqp]
      have hval : q.val ≠ j := fun heq => hqp (Fin.ext (heq.trans hp.symm))
      have hkept : ((u.clockintr.countTick p).proc q).priority = (u.proc q).priority :=
        hwoken.priority q
      rw [hkept, hother q hqp, h.priority q hq]
      refine if_congr ?_ rfl rfl
      omega
  · by_cases hqp : q = p
    · rw [hqp]
      exact Or.inr (Function.update_self p _ _)
    · have hkept : (((u.clockintr.countTick p).modify p fun q => { q with
          state := .runnable, priority := 1, ticksUsed := 0 }).sched p .timer).thread q =
          u.thread q := Function.update_of_ne hqp _ _
      rw [hkept, hthread q hqp]
      exact h.thread q hq

/-- Between two ticks the scheduler takes the next process that has not run since
the boost, and the last one sees every boost. -/
structure Round (o : Observed) (j b : ℕ) : Prop where
  cpu : o.sys.cpu = .scheduler
  ok : Ok o.sys
  computing : Computing o.sys j
  age : o.sys.ticks - o.sys.mlfqTicksSinceBoost = BitVec.ofNat 32 j
  boosts : o.boosts 48 = b

theorem dispatched {o : Observed} (hcpu : o.sys.cpu = .scheduler) (hok : Ok o.sys) {j : ℕ}
    (hj : j < 48) (h : Computing o.sys.boost j) {p : Slot} (hp : p.val = j) :
    ∃ o', Reachable observe o o' ∧ o'.sys = { o.sys.boost.dispatch p with cpu := .user p } ∧
      o'.boosts 48 = o.boosts 48 + (if o.sys.boostDue then 1 else 0) := by
  have hscan := h.scan hok.boost (by omega) p hp
  have hschedule : o.sys.schedule = o.sys.boost.dispatch p := by
    unfold System.schedule
    rw [hscan]
  have hstep : step o.sys .schedule = some (o.sys.boost.dispatch p) := by
    simp [step,hcpu,hschedule]
  have hlast : ((o.sys.boost.dispatch p).proc 48).state = .runnable := by
    have hval : (48 : Slot).val = 48 := rfl
    have hne : (48 : Slot) ≠ p := by
      rintro rfl
      omega
    simpa [System.dispatch,hne] using h.last
  obtain ⟨o₁,hobserve,hsys,hboosts⟩ := observe_of_step hstep
  have hseen : o₁.boosts 48 = o.boosts 48 + (if o.sys.boostDue then 1 else 0) := by
    rw [hboosts 48 hlast]
    simp [System.boosts]
  have hreach : Reachable observe o o₁ := Runs.single trivial hobserve
  rcases h.thread p (by omega) with hth | hth
  · refine ⟨o₁,hreach,?_,hseen⟩
    rw [hsys]
    simp [System.dispatch,hth,Thread.resume]
  · have hfinish : step o₁.sys .finish = some { o.sys.boost.dispatch p with cpu := .user p } := by
      rw [hsys]
      simp [step,System.dispatch,hth,Thread.resume]
    obtain ⟨o₂,hobserve₂,hsys₂,hboosts₂⟩ := observe_of_step hfinish
    refine ⟨o₂,hreach.trans (Runs.single trivial hobserve₂),hsys₂,?_⟩
    rw [hboosts₂ 48 hlast, hseen]
    simp [System.boosts]

theorem observed_ok {o o' : Observed} (h : Reachable observe o o') (ho : Ok o.sys) : Ok o'.sys := by
  refine h.invariant (I := fun o => Ok o.sys) ho fun o₁ e o₂ hok _ he => ?_
  obtain ⟨t,ht,rfl⟩ := observe_eq_some he
  exact hok.step ht

/-- The tick that ends the slice of `p`. -/
theorem slice_round {o : Observed} {s : System} {p : Slot} (hcpu : o.sys.cpu = .user p)
    (hok : Ok o.sys) (hp : p.val ≤ 48) (h : Computing s p.val)
    (hother : ∀ q, q ≠ p → o.sys.proc q = s.proc q)
    (hthread : ∀ q, q ≠ p → o.sys.thread q = s.thread q) (hkilled : (o.sys.proc p).killed = false)
    (hprio : (o.sys.proc p).priority = 0)
    (hage : o.sys.ticks - o.sys.mlfqTicksSinceBoost = BitVec.ofNat 32 p.val) :
    ∃ o', Reachable observe o o' ∧ Round o' (p.val + 1) (o.boosts 48) := by
  have hstep : step o.sys .timer = some (o.sys.usertrapTimer p) := by simp [step,hcpu]
  have hcomputing := h.slice hp rfl hother hthread hkilled hprio
  obtain ⟨o',hobserve,hsys,hboosts⟩ := observe_of_step hstep
  refine ⟨o',Runs.single trivial hobserve,?_,?_,?_,?_,?_⟩
  · rw [hsys, usertrapTimer_first hkilled hprio]
    rfl
  · rw [hsys]
    exact hok.step hstep
  · rw [hsys]
    exact hcomputing
  · have hticks := step_ticks hok hstep (by simp)
    have hboosted := (step_keeps hok hstep (by simp)).boosted
    rw [hsys, hticks, hboosted, BitVec.ofNat_add, ← hage, if_pos rfl]
    bv_omega
  · rw [hboosts 48 hcomputing.last]
    rfl

/-- One tick of a round, after the boost if there is one. -/
theorem tick {o : Observed} (hcpu : o.sys.cpu = .scheduler) (hok : Ok o.sys) {j : ℕ} (hj : j < 48)
    (h : Computing o.sys.boost j)
    (hage : o.sys.boost.ticks - o.sys.boost.mlfqTicksSinceBoost = BitVec.ofNat 32 j) :
    ∃ o', Reachable observe o o' ∧
      Round o' (j + 1) (o.boosts 48 + (if o.sys.boostDue then 1 else 0)) := by
  have hlt : j < nproc := hj.trans (by decide)
  obtain ⟨o₁,hreach,hsys,hseen⟩ := dispatched hcpu hok hj h (p := ⟨j,hlt⟩) rfl
  have hkilled := h.killed ⟨j,hlt⟩
  have hprio := h.priority ⟨j,hlt⟩ (Nat.le_of_lt hj)
  obtain ⟨o₂,hreach₂,hround⟩ := slice_round (o := o₁) (p := ⟨j,hlt⟩) (by rw [hsys])
    (observed_ok hreach hok) (Nat.le_of_lt hj) h
    (fun q hq => by simp [hsys,System.dispatch,hq])
    (fun q _ => by simp [hsys,System.dispatch,System.modify])
    (by simpa [hsys,System.dispatch] using hkilled) (by simpa [hsys,System.dispatch] using hprio)
    (by simpa [hsys,System.dispatch,System.modify] using hage)
  rw [hseen] at hround
  exact ⟨o₂,hreach.trans hreach₂,hround⟩

theorem Round.next {o : Observed} {j b : ℕ} (h : Round o j b) (hj : j < 48) :
    ∃ o', Reachable observe o o' ∧ Round o' (j + 1) b := by
  have hdue : o.sys.boostDue = false := by
    simp [System.boostDue,h.age,BitVec.le_def]
    omega
  have hboost : o.sys.boost = o.sys := by simp [System.boost,hdue]
  obtain ⟨o',hreach,hround⟩ := tick h.cpu h.ok hj (by rw [hboost]; exact h.computing)
    (by rw [hboost]; exact h.age)
  rw [hdue, h.boosts] at hround
  exact ⟨o',hreach,hround⟩

theorem Round.boost {o : Observed} {b : ℕ} (h : Round o 48 b) :
    ∃ o', Reachable observe o o' ∧ Round o' 1 (b + 1) := by
  have hdue : o.sys.boostDue = true := by
    simp [System.boostDue,h.age]
  have hcomputing : Computing o.sys.boost 0 := by
    refine ⟨fun q => ?_,fun q => ?_,fun q hq => ?_,fun q hq => ?_⟩
    · rw [boost_state, h.computing.state]
    · simpa [System.boost,hdue] using h.computing.killed q
    · simp [System.boost,hdue]
    · simpa [System.boost,hdue] using h.computing.thread q hq
  obtain ⟨o',hreach,hround⟩ := tick h.cpu h.ok (by decide) hcomputing (by simp [System.boost,hdue])
  rw [hdue, h.boosts] at hround
  exact ⟨o',hreach,hround⟩

theorem Round.later {o : Observed} {b : ℕ} (h : Round o 1 b) (j : ℕ) (hj : j < 48) :
    ∃ o', Reachable observe o o' ∧ Round o' (j + 1) b := by
  induction j with
  | zero => exact ⟨o,.refl o,h⟩
  | succ j ih =>
    obtain ⟨o₁,hreach,hround⟩ := ih (by omega)
    obtain ⟨o₂,hreach₂,hround₂⟩ := hround.next (by omega)
    exact ⟨o₂,hreach.trans hreach₂,hround₂⟩

theorem Round.cycle {o : Observed} {b : ℕ} (h : Round o 48 b) :
    ∃ o', Reachable observe o o' ∧ Round o' 48 (b + 1) := by
  obtain ⟨o₁,hreach,hround⟩ := h.boost
  obtain ⟨o₂,hreach₂,hround₂⟩ := hround.later 47 (by decide)
  exact ⟨o₂,hreach.trans hreach₂,hround₂⟩

/-- The events of a `fork` that takes the slot `np`. -/
def forkEvents (np : Slot) : List Event :=
  [.syscall,.section (.forkAlloc np true),.section .forkParent,.section .forkRunnable,.section .ret]

theorem execute_forkEvents {s : System} {p np : Slot} (hcpu : s.cpu = .user p)
    (hkilled : (s.proc p).killed = false) (hfork : s.fork p = .none)
    (hnp : (s.proc np).state = .unused) (hne : p ≠ np) :
    execute step s (forkEvents np) = some { s with
      proc := Function.update s.proc np { s.proc np with
        state := .runnable, pid := s.nextpid, parent := some p, priority := 0, ticksUsed := 0
        ctime := s.ticks, rtime := 0, wtime := 0, etime := 0 }
      thread := Function.update s.thread np .forkret
      nextpid := s.nextpid + 1 } := by
  simp [forkEvents,execute,step,hcpu,System.checkKilled,hkilled,System.runSection,System.forkAlloc,
    hfork,hnp,System.forkParent,System.forkRunnable,System.userReturn,System.modify,
    Function.update_of_ne hne]

theorem observe_execute {o : Observed} {es : List Event} (hes : .schedule ∉ es) {t : System}
    (h : execute step o.sys es = some t) :
    ∃ o', Reachable observe o o' ∧ o'.sys = t ∧ ∀ q, o.boosts q = 0 → o'.boosts q = 0 := by
  induction es generalizing o with
  | nil =>
    cases h
    exact ⟨o,.refl o,rfl,fun _ hq => hq⟩
  | cons e rest ih =>
    obtain ⟨u,hu,hrest⟩ := Option.bind_eq_some_iff.mp h
    have he : e ≠ .schedule := fun heq => hes (heq ▸ List.mem_cons_self)
    obtain ⟨o₁,hobserve,rfl⟩ : ∃ o₁, observe o e = some o₁ ∧ o₁.sys = u :=
      ⟨_,by rw [observe, hu]; rfl,rfl⟩
    obtain ⟨o₂,hreach,hsys,hboosts⟩ := ih (fun hmem => hes (List.mem_cons_of_mem e hmem)) hrest
    refine ⟨o₂,(Runs.single trivial hobserve).trans hreach,hsys,fun q hq => hboosts q ?_⟩
    obtain ⟨t',ht',rfl⟩ := observe_eq_some hobserve
    simp [System.boosts,he,hq]

/-- The first process has forked `n` times within its first slice. -/
structure Forking (o : Observed) (n : ℕ) : Prop where
  cpu : o.sys.cpu = .user 0
  ok : Ok o.sys
  fork : o.sys.fork 0 = .none
  state : ∀ q : Slot, q ≠ 0 → (o.sys.proc q).state = if q.val ≤ n then .runnable else .unused
  killed : ∀ q, (o.sys.proc q).killed = false
  priority : ∀ q, (o.sys.proc q).priority = 0
  thread : ∀ q : Slot, q ≠ 0 → o.sys.thread q = .forkret
  age : o.sys.ticks - o.sys.mlfqTicksSinceBoost = 0
  boosts : o.boosts 48 = 0

theorem Forking.next {o : Observed} {n : ℕ} (h : Forking o n) (hn : n < 48) :
    ∃ o', Reachable observe o o' ∧ Forking o' (n + 1) := by
  have hlt : n + 1 < nproc := by
    have hnproc : nproc = 64 := rfl
    omega
  have hne : (0 : Slot) ≠ ⟨n + 1,hlt⟩ := by
    intro heq
    have hval := congrArg Fin.val heq
    simp at hval
  have hfree : (o.sys.proc ⟨n + 1,hlt⟩).state = .unused := by
    rw [h.state _ hne.symm, if_neg (by simp)]
  have hrun := execute_forkEvents h.cpu (h.killed 0) h.fork hfree hne
  obtain ⟨o',hreach,hsys,hboosts⟩ := observe_execute (by simp [forkEvents]) hrun
  refine ⟨o',hreach,?_,observed_ok hreach h.ok,?_,fun q hq => ?_,fun q => ?_,fun q => ?_,
    fun q hq => ?_,?_,hboosts 48 h.boosts⟩
  · rw [hsys]
    exact h.cpu
  · rw [hsys]
    exact h.fork
  · rw [hsys]
    by_cases hqn : q = ⟨n + 1,hlt⟩
    · simp [hqn]
    · have hval : q.val ≠ n + 1 := fun heq => hqn (Fin.ext heq)
      simp only [Function.update_of_ne hqn]
      rw [h.state q hq]
      refine if_congr ?_ rfl rfl
      omega
  · rw [hsys]
    by_cases hqn : q = ⟨n + 1,hlt⟩
    · simpa [hqn] using h.killed ⟨n + 1,hlt⟩
    · simpa [Function.update_of_ne hqn] using h.killed q
  · rw [hsys]
    by_cases hqn : q = ⟨n + 1,hlt⟩
    · simp [hqn]
    · simpa [Function.update_of_ne hqn] using h.priority q
  · rw [hsys]
    by_cases hqn : q = ⟨n + 1,hlt⟩
    · simp [hqn]
    · simpa [Function.update_of_ne hqn] using h.thread q hq
  · rw [hsys]
    exact h.age

theorem forking_zero : ∃ o, Reachable observe .start o ∧ Forking o 0 := by
  have hscan : boot.boost.scan = some 0 := by decide
  have hboost : boot.boost = boot := by simp [System.boost,System.boostDue,boot]
  have hstep : step Observed.start.sys .schedule = some (boot.dispatch 0) := by
    have hschedule : boot.schedule = boot.dispatch 0 := by
      unfold System.schedule
      rw [hscan, hboost]
    exact congrArg some hschedule
  obtain ⟨o₁,hobserve,hsys,_⟩ := observe_of_step hstep
  have hzero : o₁.boosts 48 = 0 := by
    obtain ⟨t,_,rfl⟩ := observe_eq_some hobserve
    simp [Observed.start,System.boosts,System.boostDue,boot]
  have hret : execute step o₁.sys [.section .ret] =
      some { boot.dispatch 0 with cpu := .user 0 } := by
    rw [hsys]
    simp [execute,step,System.dispatch,System.runSection,System.userReturn,System.modify,boot,
      Thread.resume,freeProc]
  obtain ⟨o₂,hreach,hsys₂,hboosts⟩ := observe_execute (by simp) hret
  have hreach₂ := Runs.trans (Runs.single trivial hobserve) hreach
  refine ⟨o₂,hreach₂,?_,observed_ok hreach₂ boot_ok,?_,fun q hq => ?_,fun q => ?_,fun q => ?_,
    fun q hq => ?_,?_,hboosts 48 hzero⟩
  · rw [hsys₂]
  · rw [hsys₂]
    rfl
  · rw [hsys₂]
    have hval : ¬ q.val ≤ 0 := fun hle => hq (Fin.ext (Nat.le_zero.mp hle))
    rw [if_neg hval]
    simp [System.dispatch,hq,boot,freeProc]
  · rw [hsys₂]
    by_cases hq : q = 0
    · simp [hq,System.dispatch,boot,freeProc]
    · simp [System.dispatch,hq,boot,freeProc]
  · rw [hsys₂]
    by_cases hq : q = 0
    · simp [hq,System.dispatch,boot,freeProc]
    · simp [System.dispatch,hq,boot,freeProc]
  · rw [hsys₂]
    simp [System.dispatch,hq,boot,System.modify]
  · rw [hsys₂]
    rfl

theorem forking_all (n : ℕ) (hn : n ≤ 48) : ∃ o, Reachable observe .start o ∧ Forking o n := by
  induction n with
  | zero => exact forking_zero
  | succ n ih =>
    obtain ⟨o₁,hreach,hforking⟩ := ih (by omega)
    obtain ⟨o₂,hreach₂,hforking₂⟩ := hforking.next (by omega)
    exact ⟨o₂,hreach.trans hreach₂,hforking₂⟩

/-- The tick that ends the first slice. -/
theorem Forking.round {o : Observed} (h : Forking o 48) :
    ∃ o', Reachable observe o o' ∧ Round o' 1 0 := by
  -- the state in which the first process has already given up the hart
  let s : System := { o.sys.modify 0 fun q => { q with state := .runnable } with
    thread := Function.update o.sys.thread 0 .timer }
  have hcomputing : Computing s 0 := by
    refine ⟨fun q => ?_,fun q => ?_,fun q hq => ?_,fun q hq => ?_⟩
    · by_cases hq : q = 0
      · simp [s,hq]
      · simpa [s,hq] using h.state q hq
    · by_cases hq : q = 0
      · simpa [s,hq] using h.killed 0
      · simpa [s,hq] using h.killed q
    · by_cases hq : q = 0
      · simpa [s,hq] using h.priority 0
      · simpa [s,hq] using h.priority q
    · by_cases hq : q = 0
      · exact Or.inr (by simp [s,hq])
      · exact Or.inl (by simpa [s,hq] using h.thread q hq)
  have hround := slice_round h.cpu h.ok (Nat.zero_le 48) hcomputing (fun q hq => by simp [s,hq])
    (fun q hq => by simp [s,hq]) (h.killed 0) (h.priority 0) h.age
  rw [h.boosts] at hround
  exact hround

end CShellXv6.Mlfq
