import CShellXv6.Kernel.Starvation
import CShellXv6.Kernel.Harts

/-! # The period of the boost

The boost is only looked at when the scheduler has the hart. From there the age of the last
boost is below 48, and a process that is dispatched keeps the hart for no more ticks than its
slice has left, so that the scheduler comes to look again before the age is 64. The ticks are
counted beside the kernel without a bound; the kernel has them modulo 2^32.
-/
namespace CShellXv6.Mlfq
open Kernel (nproc Slot ProcState sliceTicks)
open Transition

/-- What is noted of a run: the ticks so far, the ticks at which the boosts came, the last one
first, and whether a tick has come in the scheduler since its last pass. -/
structure Log where
  now : ℕ
  boosts : List ℕ
  window : Bool

def Log.start : Log := ⟨0,[],false⟩

/-- The tick of the last boost; `mlfq_ticks_since_boost` starts at zero. -/
def Log.last (o : Log) : ℕ := o.boosts.headD 0

def Log.note (s : System) (e : Event) (o : Log) : Log where
  now := if e = .timer then o.now + 1 else o.now
  boosts := if s.boosts e then o.now :: o.boosts else o.boosts
  window := if e = .schedule then false else o.window || (e = .timer && s.cpu = .scheduler)

/-- The kernel beside the log. -/
def logged : System × Log → Event → Option (System × Log) :=
  watched step fun s e _ o => o.note s e

/-- In the scheduler at most one tick is taken in each pass. -/
def OncePerPass (x : System × Log) (e : Event) : Prop :=
  e = .timer → x.1.cpu = .scheduler → x.2.window = false

instance (x : System × Log) (e : Event) : Decidable (OncePerPass x e) := by
  unfold OncePerPass
  infer_instance

/-! ## Slices -/

/-- Every process stands at a place that the slices allow. -/
def Sliced (s : System) : Prop := ∃ o, Kept s o

theorem Sliced.ticksUsed {s : System} (h : Sliced s) (p : Slot) : (s.proc p).ticksUsed ≤ 15 := by
  obtain ⟨o,ho⟩ := h
  obtain ⟨hqueue,hused⟩ := (ho p).valid
  have hslice : ∀ q ≤ 3, sliceTicks.getD q 0 ≤ 16 := by decide
  have hle : (s.proc p).ticksUsed < 16 := Nat.lt_of_lt_of_le hused (hslice _ hqueue)
  omega

theorem Sliced.hartStep {s t : System} (h : Sliced s) {e : HartEvent}
    (ht : hartStep true s e = some t) : Sliced t := by
  obtain ⟨o,ho⟩ := h
  exact ⟨_,hartStep_kept ho ht⟩

theorem Sliced.schedule {s : System} (h : Sliced s) : Sliced s.schedule := by
  obtain ⟨o,ho⟩ := h
  have hboost := boost_kept ho
  unfold System.schedule
  split
  · next p _ => exact ⟨_,hboost.touch p (f := fun q => { q with state := .running }) fun _ => rfl⟩
  · exact ⟨_,hboost⟩

theorem Sliced.step {s t : System} (h : Sliced s) {e : Event} (ht : step s e = some t) :
    Sliced t := by
  cases e with
  | schedule =>
    obtain ⟨_,rfl⟩ := step_schedule ht
    exact h.schedule
  | timer => exact h.hartStep (e := .timer) ht
  | device chan => exact h.hartStep (e := .device chan) ht
  | syscall => exact h.hartStep (e := .syscall) ht
  | fault => exact h.hartStep (e := .fault) ht
  | finish => exact h.hartStep (e := .finish) ht
  | «section» op => exact h.hartStep (e := .section op) ht

theorem boot_sliced : Sliced boot := ⟨_,boot_kept 1⟩

/-! ## The age of the last boost -/

/-- How old the last boost can be. A process on the hart has used a tick of its slice for each
tick since it was dispatched. -/
def System.ageLimit (s : System) (window : Bool) : ℕ :=
  match s.cpu with
  | .scheduler => 63 + window.toNat
  | .kernel _ false => 63
  | .kernel p true | .user p | .timerTail p => 47 + (s.proc p).ticksUsed

theorem le_ageLimit (s : System) (window : Bool) : 47 ≤ s.ageLimit window := by
  unfold System.ageLimit
  split <;> omega

theorem Sliced.ageLimit_le {s : System} (h : Sliced s) (window : Bool) :
    s.ageLimit window ≤ 63 + window.toNat := by
  unfold System.ageLimit
  split
  · exact Nat.le_refl _
  · exact Nat.le_add_right _ _
  all_goals
    next p _ =>
    have hused := h.ticksUsed p
    omega

/-- Outside the scheduler the slices leave no room for a tick more. -/
theorem Sliced.ageLimit_current {s : System} (h : Sliced s) {p : Slot}
    (hp : s.cpu.current = some p) (window : Bool) : s.ageLimit window ≤ 63 := by
  unfold System.ageLimit
  split
  · next hcpu =>
    rw [hcpu] at hp
    cases hp
  · exact Nat.le_refl _
  all_goals
    next q _ =>
    have hused := h.ticksUsed q
    omega

/-- A process that can be interrupted has the ticks of its slice. -/
theorem ageLimit_of_not_leaving {s : System} {p : Slot} (hp : s.cpu.current = some p)
    (hnot : ¬ s.cpu.Leaving) (window : Bool) :
    s.ageLimit window = 47 + (s.proc p).ticksUsed := by
  unfold System.ageLimit
  cases hcpu : s.cpu with
  | scheduler => simp [hcpu,Cpu.Leaving] at hnot
  | user q =>
    rw [hcpu] at hp
    cases hp
    rfl
  | timerTail q =>
    rw [hcpu] at hp
    cases hp
    rfl
  | kernel q intr =>
    rw [hcpu] at hp
    cases hp
    cases intr with
    | true => rfl
    | false => simp [hcpu,Cpu.Leaving] at hnot

theorem ageLimit_of_leaving {s : System} (h : s.cpu.Leaving) (window : Bool) :
    63 ≤ s.ageLimit window := by
  unfold System.ageLimit
  cases hcpu : s.cpu with
  | scheduler => exact Nat.le_add_right _ _
  | user q => simp [hcpu,Cpu.Leaving] at h
  | timerTail q => simp [hcpu,Cpu.Leaving] at h
  | kernel q intr =>
    cases intr with
    | true => simp [hcpu,Cpu.Leaving] at h
    | false => exact Nat.le_refl _

/-! ## Ticks and sections -/

/-- A tick in user mode costs the process the hart or one tick of its slice. -/
theorem usertrapTimer_cases (s : System) (p : Slot) :
    (s.usertrapTimer p).cpu.Leaving ∨ (s.usertrapTimer p).cpu = .timerTail p ∧
      ((s.usertrapTimer p).proc p).ticksUsed = (s.proc p).ticksUsed + 1 := by
  have hcount : ((s.clockintr.countTick p).proc p).place = (s.proc p).place :=
    (Stays.tick (s := s) true).countTick p p
  unfold System.usertrapTimer System.checkKilled
  split
  · exact Or.inl rfl
  · generalize s.clockintr.countTick p = u at hcount
    unfold System.mlfqTick
    dsimp only
    split
    · exact Or.inl trivial
    split
    · exact Or.inl trivial
    · refine Or.inr ⟨rfl,?_⟩
      dsimp only
      rw [u.modify_self]
      exact congrArg (· + 1) (congrArg Prod.snd hcount)

/-- A section that leaves the process on the hart leaves it its slice. -/
theorem runSection_current {s t : System} (hs : Ok s) {p : Slot} {intr : Bool} {op : Section}
    (hcpu : s.cpu = .kernel p intr) (ht : s.runSection p intr op = some t)
    (hp : t.cpu.current = some p) : (t.proc p).place = (s.proc p).place := by
  cases op with
  | sleep =>
    cases ht
    unfold System.sleep at hp ⊢
    split at hp
    · cases hp
    · next hchan => rw [if_neg hchan]
  | forkAlloc np ok =>
    obtain ⟨⟨_,hunused⟩,hsome⟩ := Option.ite_none_right_eq_some.mp ht
    have hne : p ≠ np := by
      rintro rfl
      rw [hs.running p (by rw [hcpu]; rfl)] at hunused
      cases hunused
    have hsame : t.proc p = s.proc p := by
      rw [← Option.some.inj hsome]
      split
      · exact Function.update_of_ne hne _ _
      · exact Function.update_of_ne hne _ _
    rw [hsame]
  | _ => exact runSection_stays Section.noConfusion (fun _ _ => Section.noConfusion) ht p

/-- Without a tick the process that stays on the hart keeps its slice. -/
theorem step_current {s t : System} (hs : Ok s) {e : Event} (ht : step s e = some t)
    (he : e ≠ .schedule) (htimer : e ≠ .timer) {p : Slot} (hp : t.cpu.current = some p) :
    (t.proc p).place = (s.proc p).place := by
  have hcurrent := ((step_keeps hs ht he).current p hp).1
  cases step_stepped ht with
  | round => exact absurd rfl he
  | clock => exact absurd rfl htimer
  | tick => exact absurd rfl htimer
  | preempt => exact absurd rfl htimer
  | device | deviceUser => exact step_stays (Or.inl ⟨_,rfl⟩) ht p
  | syscall => exact step_stays (Or.inr (Or.inl rfl)) ht p
  | fault => exact step_stays (Or.inr (Or.inr (Or.inl rfl))) ht p
  | finish => exact step_stays (Or.inr (Or.inr (Or.inr rfl))) ht p
  | call hcpu hop =>
    rw [hcpu] at hcurrent
    cases hcurrent
    exact runSection_current hs hcpu hop hp

/-- Without a tick the limit does not become less. -/
theorem step_ageLimit {s t : System} (hs : Ok s) (hsliced : Sliced s) {e : Event}
    (ht : step s e = some t) (he : e ≠ .schedule) (htimer : e ≠ .timer) (window : Bool) :
    s.ageLimit window ≤ t.ageLimit window := by
  have hmoves := step_moves hs ht he htimer
  cases hcurrent : t.cpu.current with
  | none =>
    have hcpu : t.cpu = .scheduler := by
      cases hcpu : t.cpu with
      | scheduler => rfl
      | _ =>
        rw [hcpu] at hcurrent
        cases hcurrent
    have hlimit : t.ageLimit window = 63 + window.toNat := by simp [System.ageLimit,hcpu]
    rw [hlimit]
    exact hsliced.ageLimit_le window
  | some p =>
    have hbefore := ((step_keeps hs ht he).current p hcurrent).1
    by_cases hleaving : t.cpu.Leaving
    · exact (hsliced.ageLimit_current hbefore window).trans (ageLimit_of_leaving hleaving window)
    · have hnot : ¬ s.cpu.Leaving := fun h => hleaving (hmoves.leaving h)
      have hplace := step_current hs ht he htimer hcurrent
      have hused : (t.proc p).ticksUsed = (s.proc p).ticksUsed := congrArg Prod.snd hplace
      rw [ageLimit_of_not_leaving hbefore hnot, ageLimit_of_not_leaving hcurrent hleaving, hused]

/-- A tick is within the limit. -/
theorem timer_ageLimit {s t : System} (hsliced : Sliced s) (ht : step s .timer = some t)
    {window : Bool} (hwindow : s.cpu = .scheduler → window = false) :
    s.ageLimit window + 1 ≤ t.ageLimit (window || s.cpu = .scheduler) := by
  cases step_stepped ht with
  | clock hcpu =>
    have hafter : s.clockintr.cpu = .scheduler := hcpu
    simp [System.ageLimit,hcpu,hafter,hwindow hcpu]
  | @tick p hcpu =>
    have hused := hsliced.ticksUsed p
    have hlimit : s.ageLimit window = 47 + (s.proc p).ticksUsed := by
      simp [System.ageLimit,hcpu]
    rcases usertrapTimer_cases s p with hleaving | ⟨hafter,hticks⟩
    · have hroom := ageLimit_of_leaving hleaving (window || s.cpu = .scheduler)
      omega
    · have hroom : (s.usertrapTimer p).ageLimit (window || s.cpu = .scheduler) =
          47 + ((s.proc p).ticksUsed + 1) := by simp [System.ageLimit,hafter,hticks]
      omega
  | @preempt p hcpu =>
    have hused := hsliced.ticksUsed p
    have hlimit : s.ageLimit window = 47 + (s.proc p).ticksUsed := by
      simp [System.ageLimit,hcpu]
    have hroom := ageLimit_of_leaving (s := s.clockintr.yield p (.kernel true)) trivial
      (window || s.cpu = .scheduler)
    omega

/-! ## Runs -/

/-- Any two boosts that follow one another, the last one first, are a period apart. -/
def Spaced (boosts : List ℕ) : Prop := boosts.IsChain fun later earlier => earlier + 48 ≤ later

structure Timed (s : System) (o : Log) : Prop where
  ok : Ok s
  sliced : Sliced s
  ticks : s.ticks = BitVec.ofNat 32 o.now
  boosted : s.mlfqTicksSinceBoost = BitVec.ofNat 32 o.last
  last : o.last ≤ o.now
  age : o.now ≤ o.last + s.ageLimit o.window
  spaced : Spaced (o.boosts ++ [0])

theorem Timed.age_le {s : System} {o : Log} (h : Timed s o) : o.now ≤ o.last + 64 := by
  have hlimit := h.sliced.ageLimit_le o.window
  have hwindow := o.window.toNat_le
  have hage := h.age
  omega

/-- The kernel has the age of the last boost as it is. -/
theorem Timed.toNat_sub {s : System} {o : Log} (h : Timed s o) :
    (s.ticks - s.mlfqTicksSinceBoost).toNat = o.now - o.last := by
  have hage := h.age_le
  have hlast := h.last
  rw [h.ticks, h.boosted, BitVec.toNat_sub, BitVec.toNat_ofNat, BitVec.toNat_ofNat]
  omega

theorem Timed.boostDue_iff {s : System} {o : Log} (h : Timed s o) :
    s.boostDue = true ↔ o.last + 48 ≤ o.now := by
  have hlast := h.last
  have hsub := h.toNat_sub
  simp only [System.boostDue, decide_eq_true_eq, BitVec.le_def, hsub]
  change 48 ≤ o.now - o.last ↔ _
  omega

theorem start_timed : Timed boot Log.start :=
  ⟨boot_ok,boot_sliced,rfl,rfl,Nat.le_refl 0,Nat.zero_le _,List.IsChain.singleton 0⟩

theorem Spaced.boost {o : Log} (h : Spaced (o.boosts ++ [0])) (hdue : o.last + 48 ≤ o.now) :
    Spaced (o.now :: o.boosts ++ [0]) := by
  unfold Log.last at hdue
  cases hboosts : o.boosts with
  | nil =>
    rw [hboosts] at hdue
    exact List.isChain_cons_cons.mpr ⟨hdue,List.IsChain.singleton 0⟩
  | cons b rest =>
    rw [hboosts] at h hdue
    exact List.isChain_cons_cons.mpr ⟨hdue,h⟩

theorem Timed.schedule {s : System} {o : Log} (h : Timed s o) :
    Timed s.schedule (o.note s .schedule) := by
  have hlimit := le_ageLimit s.schedule false
  have hlast := h.last
  have hdue := h.boostDue_iff
  have hticks := schedule_ticks s
  have hboosted := schedule_boosted s
  by_cases hboost : s.boostDue = true
  · have hnote : o.note s .schedule = ⟨o.now,o.now :: o.boosts,false⟩ := by
      simp [Log.note,System.boosts,hboost]
    rw [if_pos hboost] at hboosted
    rw [hnote]
    exact ⟨h.ok.schedule,h.sliced.schedule,hticks.trans h.ticks,hboosted.trans h.ticks,
      Nat.le_refl _,Nat.le_add_right _ _,h.spaced.boost (hdue.mp hboost)⟩
  · have hnote : o.note s .schedule = ⟨o.now,o.boosts,false⟩ := by
      simp [Log.note,System.boosts,hboost]
    have hage : o.now ≤ o.last + s.schedule.ageLimit false := by
      have hnot := mt hdue.mpr hboost
      omega
    rw [if_neg hboost] at hboosted
    rw [hnote]
    exact ⟨h.ok.schedule,h.sliced.schedule,hticks.trans h.ticks,hboosted.trans h.boosted,hlast,
      hage,h.spaced⟩

theorem Timed.outside {s t : System} {o : Log} (h : Timed s o) {e : Event}
    (hpass : OncePerPass (s,o) e) (ht : step s e = some t) (he : e ≠ .schedule) :
    Timed t (o.note s e) := by
  have hkeeps := step_keeps h.ok ht he
  have hticks := step_ticks h.ok ht he
  have hboosts : s.boosts e = false := by simp [System.boosts,he]
  have hlast := h.last
  have hage := h.age
  by_cases htimer : e = .timer
  · subst htimer
    have hnote : o.note s .timer = ⟨o.now + 1,o.boosts,o.window || s.cpu = .scheduler⟩ := by
      simp [Log.note,System.boosts]
    have hlimit : s.ageLimit o.window + 1 ≤ t.ageLimit (o.window || s.cpu = .scheduler) :=
      timer_ageLimit h.sliced ht (hpass rfl)
    have hnow : t.ticks = BitVec.ofNat 32 (o.now + 1) := by
      rw [hticks, if_pos rfl, h.ticks, BitVec.ofNat_add]
      rfl
    have hnext : o.now + 1 ≤ o.last + t.ageLimit (o.window || s.cpu = .scheduler) := by omega
    rw [hnote]
    exact ⟨hkeeps.ok,h.sliced.step ht,hnow,hkeeps.boosted.trans h.boosted,
      hlast.trans (Nat.le_succ _),hnext,h.spaced⟩
  · have hnote : o.note s e = o := by simp [Log.note,hboosts,he,htimer]
    have hlimit := step_ageLimit h.ok h.sliced ht he htimer o.window
    rw [if_neg htimer] at hticks
    rw [hnote]
    exact ⟨hkeeps.ok,h.sliced.step ht,hticks.trans h.ticks,hkeeps.boosted.trans h.boosted,hlast,
      hage.trans (Nat.add_le_add_left hlimit _),h.spaced⟩

theorem Timed.step {s t : System} {o : Log} (h : Timed s o) {e : Event}
    (hpass : OncePerPass (s,o) e) (ht : step s e = some t) : Timed t (o.note s e) := by
  by_cases he : e = .schedule
  · subst he
    obtain ⟨_,rfl⟩ := step_schedule ht
    exact h.schedule
  · exact h.outside hpass ht he

/-- In every run in which the scheduler takes at most one tick in a pass, the boosts are at
least 48 ticks apart and the last one is never more than 64 ticks ago. -/
theorem boost_period {x : System × Log} (hr : Runs logged OncePerPass (boot,Log.start) x) :
    x.1.ticks = BitVec.ofNat 32 x.2.now ∧
      Spaced (x.2.boosts ++ [0]) ∧
      (x.1.ticks - BitVec.ofNat 32 x.2.last).toNat ≤ 64 ∧ x.2.now ≤ x.2.last + 64 := by
  have htimed : Timed x.1 x.2 := by
    apply hr.invariant (I := fun x => Timed x.1 x.2) start_timed
    intro y e z hy hpass hstep
    obtain ⟨t,ht,rfl⟩ := Option.map_eq_some_iff.mp hstep
    exact hy.step hpass ht
  refine ⟨htimed.ticks,htimed.spaced,?_,htimed.age_le⟩
  have hage := htimed.age_le
  rw [← htimed.boosted, htimed.toNat_sub]
  omega

/-- The first process runs in the kernel from tick to tick, through two boosts. -/
def twoBoosts : List Event := (List.replicate 97 [.schedule,.timer]).flatten

def twiceBoosted : System × Log :=
  (execute (restrict logged OncePerPass) (boot,Log.start) twoBoosts).get (by decide +kernel)

theorem boost_period_twice :
    Runs logged OncePerPass (boot,Log.start) twiceBoosted ∧ twiceBoosted.2.boosts = [96,48] ∧
      (twiceBoosted.1.ticks - BitVec.ofNat 32 twiceBoosted.2.last).toNat ≤ 64 := by
  have hr : Runs logged OncePerPass (boot,Log.start) twiceBoosted :=
    Runs.of_execute twoBoosts (Option.some_get _).symm
  exact ⟨hr,by decide +kernel,(boost_period hr).2.2.1⟩

end CShellXv6.Mlfq
