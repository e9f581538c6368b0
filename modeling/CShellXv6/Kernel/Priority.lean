import CShellXv6.Kernel.Sections
import CShellXv6.Library.Transition
import Mathlib.Data.List.Basic

/-! # Strict priority

The scheduler takes the first process of the highest queue that has one, and a
timer interrupt that does not lead there has found no process above the one it
interrupted. So a process that comes back from a timer interrupt has no runnable
process above it.
-/
namespace CShellXv6.Mlfq
open Kernel (nproc Slot ProcState sliceTicks)
open Transition

/-- No runnable process stands above this one. -/
def System.Top (s : System) (p : Slot) : Prop :=
  ∀ r, (s.proc r).state = .runnable → (s.proc p).priority ≤ (s.proc r).priority

/-! ## The scan -/

/-- The scan meets an entry before another one. -/
def Before (a b : ℕ × Slot) : Prop := a.1 < b.1 ∨ a.1 = b.1 ∧ a.2 < b.2

theorem mem_scanOrder {q : ℕ} {p : Slot} : (q,p) ∈ scanOrder ↔ q < 4 := by
  simp [scanOrder]

theorem scanOrder_pairwise : scanOrder.Pairwise Before := by
  refine List.pairwise_flatMap.mpr ⟨fun q _ => ?_,?_⟩
  · refine List.pairwise_map.mpr ((List.pairwise_lt_finRange nproc).imp ?_)
    intro a b hab
    exact Or.inr ⟨rfl,hab⟩
  · refine List.pairwise_lt_range.imp ?_
    intro q q' hq a ha b hb
    obtain ⟨_,_,rfl⟩ := List.mem_map.mp ha
    obtain ⟨_,_,rfl⟩ := List.mem_map.mp hb
    exact Or.inl hq

/-- A search along an ordered list meets its result before every other match. -/
theorem find_before {α : Type*} {R : α → α → Prop} {l : List α} (hl : l.Pairwise R) {f : α → Bool}
    {a b : α} (ha : l.find? f = some a) (hb : b ∈ l) (hfb : f b = true) : b = a ∨ R a b := by
  obtain ⟨_,xs,ys,rfl,hxs⟩ := List.find?_eq_some_iff_append.mp ha
  rcases List.mem_append.mp hb with hb | hb
  · have hnot := hxs b hb
    simp [hfb] at hnot
  · rcases List.mem_cons.mp hb with rfl | hb
    · exact Or.inl rfl
    · have hcons := (List.pairwise_append.mp hl).2.1
      exact Or.inr (List.rel_of_pairwise_cons hcons hb)

theorem scan_eq_some {s : System} {p : Slot} (h : s.scan = some p) :
    (s.proc p).state = .runnable ∧ (s.proc p).priority < 4 ∧
      ∀ r, (s.proc r).state = .runnable → r = p ∨
        Before ((s.proc p).priority,p) ((s.proc r).priority,r) := by
  obtain ⟨⟨q,p'⟩,hfind,rfl⟩ := Option.map_eq_some_iff.mp h
  have hmem := List.mem_of_find?_eq_some hfind
  have hmatch := List.find?_some hfind
  simp only [Bool.and_eq_true, decide_eq_true_eq] at hmatch
  obtain ⟨hrun,rfl⟩ := hmatch
  have hlt := mem_scanOrder.mp hmem
  refine ⟨hrun,hlt,fun r hr => ?_⟩
  by_cases hr4 : (s.proc r).priority < 4
  · have hr' := find_before scanOrder_pairwise hfind (b := (_,r)) (mem_scanOrder.mpr hr4)
      (by simp [hr])
    rcases hr' with heq | hbefore
    · exact Or.inl (congrArg Prod.snd heq)
    · exact Or.inr hbefore
  · exact Or.inr (Or.inl (by dsimp only; omega))

theorem scan_eq_none {s : System} (hs : Ok s) (h : s.scan = none) (p : Slot) :
    (s.proc p).state ≠ .runnable := by
  intro hp
  have hle := hs.priority p
  have hmem : ((s.proc p).priority,p) ∈ scanOrder := mem_scanOrder.mpr (by omega)
  simp only [System.scan, Option.map_eq_none_iff] at h
  have hnot := List.find?_eq_none.mp h _ hmem
  simp [hp] at hnot

theorem scan_top {s : System} {p : Slot} (h : s.scan = some p) : s.Top p := by
  intro r hr
  obtain ⟨_,_,hbefore⟩ := scan_eq_some h
  rcases hbefore r hr with rfl | hlt | ⟨heq,_⟩
  · exact Nat.le_refl _
  · exact Nat.le_of_lt hlt
  · exact Nat.le_of_eq heq

theorem dispatch_top {s : System} {p : Slot} (h : s.scan = some p) : (s.dispatch p).Top p := by
  intro r hr
  have hprio : ∀ q, ((s.dispatch p).proc q).priority = (s.proc q).priority := by
    intro q
    by_cases hq : q = p
    · rw [hq]
      simp [System.dispatch]
    · simp [System.dispatch,s.modify_ne _ hq]
  have hne : r ≠ p := by
    rintro rfl
    simp [System.dispatch] at hr
  have hrun : (s.proc r).state = .runnable := by simpa [System.dispatch,s.modify_ne _ hne] using hr
  rw [hprio, hprio]
  exact scan_top h r hrun

/-! ## The timer -/

theorem shouldYield_eq_false {s : System} {p : Slot} (h : s.shouldYield p = false) : s.Top p := by
  intro r hr
  by_contra hlt
  have hfound : s.shouldYield p = true := by
    refine List.any_eq_true.mpr ⟨(s.proc r).priority,List.mem_range.mpr (by omega),?_⟩
    exact List.any_eq_true.mpr ⟨r,List.mem_finRange r,by simp [hr]⟩
  rw [h] at hfound
  cases hfound

/-- The tick leaves user mode for the scheduler, or finds nothing above. -/
theorem mlfqTick_cpu (s : System) (p : Slot) :
    (s.mlfqTick p).cpu = .scheduler ∨ (s.mlfqTick p).cpu = .timerTail p ∧ (s.mlfqTick p).Top p := by
  unfold System.mlfqTick
  generalize s.modify p _ = u
  dsimp only
  split
  · exact Or.inl rfl
  split
  · exact Or.inl rfl
  · next hyield =>
    have htop : u.Top p := shouldYield_eq_false (by simpa using hyield)
    exact Or.inr ⟨rfl,htop⟩

theorem usertrapTimer_cpu (s : System) (p : Slot) :
    (s.usertrapTimer p).cpu = .scheduler ∨ (s.usertrapTimer p).cpu = .kernel p false ∨
      (s.usertrapTimer p).cpu = .timerTail p ∧ (s.usertrapTimer p).Top p := by
  unfold System.usertrapTimer System.checkKilled
  split
  · exact Or.inr (Or.inl rfl)
  · exact (mlfqTick_cpu _ p).imp id Or.inr

/-! ## Runs -/

theorem Ok.boost {s : System} (hs : Ok s) : Ok s.boost := by
  unfold System.boost
  split
  · exact ⟨hs.running,hs.used,hs.distinct,fun _ => Nat.zero_le 3⟩
  · exact hs

theorem Thread.resume_current (p : Slot) (th : Thread) : (th.resume p).current = some p := by
  cases th with
  | forkret => rfl
  | timer => rfl
  | kernel intr => rfl

theorem Ok.dispatch {s : System} (hs : Ok s) {p : Slot} (hp : (s.proc p).state = .runnable) :
    Ok (s.dispatch p) := by
  refine hs.change (p := p) (x := p) (fun q hq => by simp [System.dispatch,hq]) (fun q hq => ?_)
    (fun q c hc => Or.inl ⟨hs.child_ne (by simp [hp]) hc,hc⟩) ?_
  · have hcur := (s.thread p).resume_current p
    exact Or.inl ⟨Option.some.inj (hq.symm.trans hcur),by simp [System.dispatch]⟩
  · simpa [System.dispatch] using hs.priority p

theorem Ok.schedule {s : System} (hs : Ok s) : Ok s.schedule := by
  unfold System.schedule
  split
  · next p hscan => exact hs.boost.dispatch (scan_eq_some hscan).1
  · exact hs.boost

theorem step_schedule {s t : System} (h : step s .schedule = some t) :
    s.cpu = .scheduler ∧ t = s.schedule := by
  cases step_stepped h with
  | round hcpu => exact ⟨hcpu,rfl⟩

theorem Ok.step {s t : System} {e : Event} (hs : Ok s) (h : step s e = some t) : Ok t := by
  by_cases he : e = .schedule
  · rw [he] at h
    rw [(step_schedule h).2]
    exact hs.schedule
  · exact (step_keeps hs h he).ok

theorem schedule_top {s : System} {p : Slot} (h : s.schedule.cpu.current = some p)
    (hs : s.cpu = .scheduler) : s.schedule.Top p := by
  unfold System.schedule at h ⊢
  split at h
  · next q hscan =>
    have hq : q = p := Option.some.inj (((s.boost.thread q).resume_current q).symm.trans h)
    rw [← hq]
    exact dispatch_top hscan
  · have hcpu : s.boost.cpu = .scheduler := by
      unfold System.boost
      split <;> exact hs
    rw [hcpu] at h
    cases h

/-- Only a tick and a round of the scheduler lead to the end of a timer interrupt. -/
theorem step_timerTail {s t : System} {e : Event} {p : Slot} (hs : Ok s) (h : step s e = some t)
    (ht : t.cpu = .timerTail p) : t.Top p := by
  have hother : e ≠ .schedule → e ≠ .timer → t.Top p := by
    intro hschedule htimer
    have hmoves := step_moves hs h hschedule htimer
    rw [ht] at hmoves
    generalize s.cpu = c at hmoves
    cases hmoves with
    | stay hne => exact absurd rfl (hne p)
  cases step_stepped h with
  | round hcpu => exact schedule_top (by rw [ht]; rfl) hcpu
  | clock hcpu => exact absurd (hcpu.symm.trans ht) (by simp)
  | @tick q =>
    rcases usertrapTimer_cpu s q with hleft | hkilled | ⟨hstays,htop⟩
    · simp [ht] at hleft
    · simp [ht] at hkilled
    · cases ht.symm.trans hstays
      exact htop
  | preempt => cases ht
  | _ => exact hother (by simp) (by simp)

theorem reachable_ok {s : System} (hs : Reachable step boot s) : Ok s :=
  hs.invariant boot_ok fun _ _ _ ht _ h => ht.step h

theorem reachable_timerTail {s : System} (hs : Reachable step boot s) {p : Slot}
    (hp : s.cpu = .timerTail p) : s.Top p := by
  cases hs with
  | refl => cases hp
  | tail hrun _ h => exact step_timerTail (reachable_ok hrun) h hp

/-- When the handling of a timer interrupt from user mode ends, no runnable
process stands above the one that goes on. -/
theorem timer_returns_to_top {s t : System} (hs : Reachable step boot s)
    (h : step s .finish = some t) :
    ∃ p, t.cpu = .user p ∧ ∀ r, (t.proc r).state = .runnable →
      (t.proc p).priority ≤ (t.proc r).priority := by
  cases step_stepped h with
  | @finish p hcpu => exact ⟨p,rfl,reachable_timerTail hs hcpu⟩

/-- The first process forks once, and both use up their slices in the first queue. -/
def twoSlices : List Event :=
  [.schedule,.section (.forkAlloc 1 true),.section .forkParent,.section .forkRunnable,.section .ret,
    .timer,.schedule,.timer,.schedule]

theorem timer_returns_to_top_after_twoSlices :
    ∃ s t, execute (restrict step fun _ _ => True) boot twoSlices = some s ∧
      step s .finish = some t ∧ (t.proc 1).state = .runnable ∧
      ∃ p, t.cpu = .user p ∧ (t.proc p).priority ≤ (t.proc 1).priority := by
  have hrun : (((execute (restrict step fun _ _ => True) boot twoSlices).bind
      (step · .finish)).map fun t => (t.proc 1).state) = some .runnable := by decide
  obtain ⟨t,ht,hrunnable⟩ := Option.map_eq_some_iff.mp hrun
  obtain ⟨s,hs,hfinish⟩ := Option.bind_eq_some_iff.mp ht
  obtain ⟨p,hcpu,htop⟩ := timer_returns_to_top (Runs.of_execute twoSlices hs) hfinish
  exact ⟨s,t,hs,hfinish,hrunnable,p,hcpu,htop 1 hrunnable⟩

end CShellXv6.Mlfq
