import CShellXv6.Kernel.Priority

/-! # The multi-level feedback queue on any number of harts

Every hart takes the steps of the kernel on the one process table. The handling of a tick,
the boost, `sleep` and `allocproc` are single steps; between the steps of a hart the others
may take any number of theirs. Only the first hart advances `ticks`. A scan of the table
looks at one slot at a time, so while the other harts go on it may come to any process that
is runnable. The place of a process in the queues depends on nothing but the ticks charged
to it.
-/
namespace CShellXv6.Mlfq
open Kernel (nproc Slot ProcState sliceTicks)

/-! ## Harts -/

inductive HartEvent
  | boost
  | dispatch (p : Slot)
  | timer
  | device (chan : Chan)
  | syscall
  | fault
  | finish
  | section (op : Section)
  deriving DecidableEq, Repr

/-- The timer interrupt in `devintr`; the other harts leave `ticks` alone. -/
def System.tick (s : System) (first : Bool) : System := if first then s.clockintr else s

/-- A step of the hart that `s.cpu` describes. -/
def hartStep (first : Bool) (s : System) : HartEvent → Option System
  | .boost =>
    match s.cpu with
    | .scheduler => some s.boost
    | _ => none
  | .dispatch p =>
    match s.cpu with
    | .scheduler => if (s.proc p).state = .runnable then some (s.dispatch p) else none
    | _ => none
  | .timer =>
    match s.cpu with
    | .scheduler => some (s.tick first)
    | .user p =>
      some ((s.tick first).checkKilled p (((s.tick first).countTick p).mlfqTick p))
    | .kernel p true => some ((s.tick first).yield p (.kernel true))
    | _ => none
  | .device chan => step s (.device chan)
  | .syscall => step s .syscall
  | .fault => step s .fault
  | .finish => step s .finish
  | .section op => step s (.section op)

/-- The table that the harts share, and where each of them is; `shared.cpu` has no meaning. -/
structure Machine (n : ℕ) where
  shared : System
  cpu : Fin n → Cpu

namespace Machine
variable {n : ℕ}

/-- The machine as the hart `h` sees it. -/
def view (m : Machine n) (h : Fin n) : System := { m.shared with cpu := m.cpu h }

def step (m : Machine n) (e : Fin n × HartEvent) : Option (Machine n) :=
  (hartStep (e.1.val = 0) (m.view e.1) e.2).map fun t =>
    ⟨t,Function.update m.cpu e.1 t.cpu⟩

def boot (n : ℕ) : Machine n := ⟨Mlfq.boot,fun _ => .scheduler⟩

end Machine

/-! ## Ticks charged to a process -/

/-- For each slot, the ticks charged in user mode since the process was made or the last
boost, and whether the process has gone to sleep since. -/
structure Ledger where
  charged : Slot → ℕ
  slept : Slot → Bool

def Ledger.start : Ledger := ⟨fun _ => 0,fun _ => false⟩

def Ledger.restart (o : Ledger) (p : Slot) : Ledger :=
  ⟨Function.update o.charged p 0,Function.update o.slept p false⟩

def Ledger.charge (o : Ledger) (p : Slot) : Ledger :=
  { o with charged := Function.update o.charged p (o.charged p + 1) }

def Ledger.sleep (o : Ledger) (p : Slot) : Ledger :=
  { o with slept := Function.update o.slept p true }

/-- What a step of the hart adds to the ledger. -/
def Ledger.note (s : System) (e : HartEvent) (o : Ledger) : Ledger :=
  match e, s.cpu with
  | .boost, _ => if s.boostDue then .start else o
  | .timer, .user p => if (s.proc p).killed then o else o.charge p
  | .section (.forkAlloc np true), _ => o.restart np
  | .section .sleep, .kernel p _ => if (s.proc p).chan = none then o else o.sleep p
  | _, _ => o

/-- The machine beside the ledger. -/
def Machine.watched {n : ℕ} :
    Machine n × Ledger → Fin n × HartEvent → Option (Machine n × Ledger) :=
  Transition.watched Machine.step fun m e _ o => o.note (m.view e.1) e.2

/-! ## Places in the queues -/

/-- Queue and ticks used in it after `n` ticks. -/
def position (n : ℕ) : ℕ × ℕ :=
  if n = 0 then (0,0)
  else if n ≤ 4 then (1,n - 1)
  else if n ≤ 12 then (2,n - 5)
  else (3,(n - 13) % 16)

def Proc.place (q : Proc) : ℕ × ℕ := (q.priority,q.ticksUsed)

/-- A place that the slices allow. -/
def Valid (x : ℕ × ℕ) : Prop := x.1 ≤ 3 ∧ x.2 < sliceTicks.getD x.1 0

/-- The place after one more tick. -/
def advance (x : ℕ × ℕ) : ℕ × ℕ :=
  if sliceTicks.getD x.1 0 ≤ x.2 + 1 then (if x.1 < 3 then x.1 + 1 else x.1,0) else (x.1,x.2 + 1)

theorem sliceTicks_pos {q : ℕ} (h : q ≤ 3) : 0 < sliceTicks.getD q 0 := by
  have hq : q = 0 ∨ q = 1 ∨ q = 2 ∨ q = 3 := by omega
  rcases hq with rfl | rfl | rfl | rfl <;> decide

theorem valid_zero : Valid (0,0) := ⟨by decide,by decide⟩

theorem valid_advance {x : ℕ × ℕ} (h : Valid x) : Valid (advance x) := by
  obtain ⟨hle,_⟩ := h
  unfold advance
  split
  · have hnext : (if x.1 < 3 then x.1 + 1 else x.1) ≤ 3 := by split <;> omega
    exact ⟨hnext,sliceTicks_pos hnext⟩
  · next hslice => exact ⟨hle,Nat.lt_of_not_le hslice⟩

theorem position_one {n : ℕ} (h : 1 ≤ n) (h' : n ≤ 4) : position n = (1,n - 1) := by
  rw [position, if_neg (by omega), if_pos h']

theorem position_two {n : ℕ} (h : 5 ≤ n) (h' : n ≤ 12) : position n = (2,n - 5) := by
  rw [position, if_neg (by omega), if_neg (by omega), if_pos h']

theorem position_three {n : ℕ} (h : 13 ≤ n) : position n = (3,(n - 13) % 16) := by
  rw [position, if_neg (by omega), if_neg (by omega), if_neg (by omega)]

/-- A tick within the slice. -/
theorem advance_within {q k : ℕ} (h : k + 1 < sliceTicks.getD q 0) : advance (q,k) = (q,k + 1) :=
  if_neg (Nat.not_le.mpr h)

/-- The last tick of the slice in the lowest queue. -/
theorem advance_lowest {k : ℕ} (h : k = 15) : advance (3,k) = (3,0) := by
  subst h
  rfl

theorem position_succ (n : ℕ) : position (n + 1) = advance (position n) := by
  have hn : n = 0 ∨ (1 ≤ n ∧ n ≤ 3) ∨ n = 4 ∨ (5 ≤ n ∧ n ≤ 11) ∨ n = 12 ∨ 13 ≤ n := by omega
  rcases hn with rfl | ⟨hlow,hhigh⟩ | rfl | ⟨hlow,hhigh⟩ | rfl | hlow
  · rfl
  · have hslice : n - 1 + 1 < sliceTicks.getD 1 0 := show _ < 4 by omega
    rw [position_one hlow (by omega), position_one (by omega) (by omega), advance_within hslice]
    congr 1
    omega
  · rfl
  · have hslice : n - 5 + 1 < sliceTicks.getD 2 0 := show _ < 8 by omega
    rw [position_two hlow (by omega), position_two (by omega) (by omega), advance_within hslice]
    congr 1
    omega
  · rfl
  · rw [position_three hlow, position_three (by omega)]
    by_cases hlast : (n - 13) % 16 = 15
    · rw [advance_lowest hlast]
      congr 1
      omega
    · have hslice : (n - 13) % 16 + 1 < sliceTicks.getD 3 0 := show _ < 16 by omega
      rw [advance_within hslice]
      congr 1
      omega

/-! ## What a step does to the places -/

/-- No process changes its place. -/
def Stays (s t : System) : Prop := ∀ q, (t.proc q).place = (s.proc q).place

theorem Stays.refl (s : System) : Stays s s := fun _ => rfl

theorem Stays.trans {s t u : System} (h : Stays s t) (k : Stays t u) : Stays s u :=
  fun q => (k q).trans (h q)

theorem Stays.modify {s t : System} (h : Stays s t) (p : Slot) {f : Proc → Proc}
    (hf : ∀ q, (f q).place = q.place) : Stays s (t.modify p f) := by
  intro q
  by_cases hq : q = p
  · rw [hq, t.modify_self, hf, h]
  · rw [t.modify_ne f hq, h]

theorem Stays.wakeup {s t : System} (h : Stays s t) (chan : Option Chan) :
    Stays s (t.wakeup chan) := by
  intro q
  have hwake : ((t.proc q).wake chan).place = (t.proc q).place := by
    unfold Proc.wake
    split
    · rfl
    · rfl
  exact hwake.trans (h q)

theorem Stays.tick {s : System} (first : Bool) : Stays s (s.tick first) := by
  unfold System.tick
  split
  · exact Stays.wakeup (s := s) (t := { s with ticks := s.ticks + 1 }) (Stays.refl s) _
  · exact Stays.refl s

theorem Stays.countTick {s t : System} (h : Stays s t) (p : Slot) : Stays s (t.countTick p) := by
  intro q
  rw [← h q]
  simp only [System.countTick]
  split
  · rfl
  · split
    · rfl
    · rfl

theorem Stays.reparent {s t : System} (h : Stays s t) (p : Slot) : Stays s (t.reparent p) := by
  unfold System.reparent
  generalize List.finRange nproc = slots
  induction slots generalizing t with
  | nil => exact h
  | cons pp rest ih =>
    rw [List.foldl_cons]
    apply ih
    split
    · apply Stays.wakeup
      apply h.modify
      intro q
      rfl
    · exact h

theorem Stays.sched {s t : System} (h : Stays s t) (p : Slot) (thread : Thread) :
    Stays s (t.sched p thread) := h

theorem kexit_stays {s t : System} {p : Slot} (h : s.kexit p = some t) : Stays s t := by
  unfold System.kexit at h
  split at h
  · cases h
  · have hparent := ((Stays.refl s).reparent p).wakeup
      (((s.reparent p).proc p).parent.map Chan.proc)
    rw [← Option.some.inj h]
    apply Stays.sched
    apply hparent.modify
    intro q
    rfl

theorem Stays.yield {s t : System} (h : Stays s t) (p : Slot) (thread : Thread) :
    Stays s (t.yield p thread) := by
  apply Stays.sched
  apply h.modify
  intro q
  rfl

/-- The tick of the running process takes it one place further. -/
theorem mlfqTick_stays (s : System) (p : Slot) :
    ∃ f : Proc → Proc, (f (s.proc p)).place = advance (s.proc p).place ∧
      Stays (s.modify p f) (s.mlfqTick p) := by
  unfold System.mlfqTick
  dsimp only
  rw [s.modify_self]
  split
  · next hslice =>
    rw [s.modify_modify]
    refine ⟨_,?_,(Stays.refl _).yield p .timer⟩
    exact (if_pos hslice).symm
  · next hslice =>
    refine ⟨fun q => { q with ticksUsed := q.ticksUsed + 1 },(if_neg hslice).symm,?_⟩
    split
    · exact (Stays.refl _).yield p .timer
    · exact Stays.refl _

/-! ## The ledger -/

/-- The place of a process is one that the slices allow, and the one that the ticks charged
to it lead to unless it has slept. -/
structure Placed (q : Proc) (charged : ℕ) (slept : Bool) : Prop where
  valid : Valid q.place
  position : slept = false → q.place = position charged

def Kept (s : System) (o : Ledger) : Prop := ∀ p, Placed (s.proc p) (o.charged p) (o.slept p)

theorem Placed.congr {q r : Proc} {charged : ℕ} {slept : Bool} (h : Placed q charged slept)
    (hr : r.place = q.place) : Placed r charged slept :=
  ⟨hr ▸ h.valid,fun hslept => hr.trans (h.position hslept)⟩

theorem placed_restart {q : Proc} (h : q.place = (0,0)) : Placed q 0 false :=
  ⟨h ▸ valid_zero,fun _ => h⟩

theorem Placed.charge {q r : Proc} {charged : ℕ} {slept : Bool} (h : Placed q charged slept)
    (hr : r.place = advance q.place) : Placed r (charged + 1) slept := by
  refine ⟨hr ▸ valid_advance h.valid,fun hslept => ?_⟩
  rw [hr, h.position hslept, position_succ]

theorem Placed.sleep {q r : Proc} {charged : ℕ} {slept : Bool} (h : Placed q charged slept)
    (hr : r.place = (q.priority,0)) : Placed r charged true := by
  refine ⟨?_,fun hslept => by cases hslept⟩
  rw [hr]
  exact ⟨h.valid.1,sliceTicks_pos h.valid.1⟩

theorem Kept.stays {s t : System} {o : Ledger} (h : Kept s o) (hst : Stays s t) : Kept t o :=
  fun q => (h q).congr (hst q)

/-- A change to one process that leaves its place in the queues. -/
theorem Kept.touch {s : System} {o : Ledger} (h : Kept s o) (p : Slot) {f : Proc → Proc}
    (hf : ∀ q, (f q).place = q.place) : Kept (s.modify p f) o :=
  h.stays ((Stays.refl s).modify p hf)

/-- A change to one process and its entries. -/
theorem Kept.modify {s : System} {o o' : Ledger} (h : Kept s o) {p : Slot} {f : Proc → Proc}
    (hother : ∀ q, q ≠ p → o'.charged q = o.charged q ∧ o'.slept q = o.slept q)
    (hp : Placed (f (s.proc p)) (o'.charged p) (o'.slept p)) : Kept (s.modify p f) o' := by
  intro q
  by_cases hq : q = p
  · rw [hq, s.modify_self]
    exact hp
  · obtain ⟨hcharged,hslept⟩ := hother q hq
    rw [s.modify_ne f hq, hcharged, hslept]
    exact h q

theorem Kept.charge {s : System} {o : Ledger} (h : Kept s o) {p : Slot} {f : Proc → Proc}
    (hf : (f (s.proc p)).place = advance (s.proc p).place) :
    Kept (s.modify p f) (o.charge p) := by
  apply h.modify
  · intro q hq
    exact ⟨Function.update_of_ne hq _ _,rfl⟩
  · have hcharged : (o.charge p).charged p = o.charged p + 1 := Function.update_self _ _ _
    rw [hcharged]
    exact (h p).charge hf

theorem Kept.sleep {s : System} {o : Ledger} (h : Kept s o) {p : Slot} {f : Proc → Proc}
    (hf : (f (s.proc p)).place = ((s.proc p).priority,0)) : Kept (s.modify p f) (o.sleep p) := by
  apply h.modify
  · intro q hq
    exact ⟨rfl,Function.update_of_ne hq _ _⟩
  · have hslept : (o.sleep p).slept p = true := Function.update_self _ _ _
    rw [hslept]
    exact (h p).sleep hf

theorem Kept.restart {s : System} {o : Ledger} (h : Kept s o) {p : Slot} {f : Proc → Proc}
    (hf : (f (s.proc p)).place = (0,0)) : Kept (s.modify p f) (o.restart p) := by
  apply h.modify
  · intro q hq
    exact ⟨Function.update_of_ne hq _ _,Function.update_of_ne hq _ _⟩
  · have hcharged : (o.restart p).charged p = 0 := Function.update_self _ _ _
    have hslept : (o.restart p).slept p = false := Function.update_self _ _ _
    rw [hcharged, hslept]
    exact placed_restart hf

/-! ## Steps -/

theorem boost_kept {s : System} {o : Ledger} (h : Kept s o) : Kept s.boost (o.note s .boost) := by
  simp only [System.boost, Ledger.note]
  split
  · intro q
    exact placed_restart rfl
  · exact h

theorem timer_kept {s : System} {o : Ledger} (h : Kept s o) (first : Bool) {p : Slot}
    (hcpu : s.cpu = .user p) :
    Kept ((s.tick first).checkKilled p (((s.tick first).countTick p).mlfqTick p))
      (o.note s .timer) := by
  have htick : Stays s (s.tick first) := Stays.tick first
  have hkilled : ((s.tick first).proc p).killed = (s.proc p).killed := by
    unfold System.tick
    split
    · simp only [System.clockintr, System.wakeup, Proc.wake]
      split
      · rfl
      · rfl
    · rfl
  simp only [System.checkKilled, Ledger.note, hcpu, hkilled]
  split
  · exact h.stays htick
  · have hcounted := h.stays (htick.countTick p)
    obtain ⟨f,hf,hstays⟩ := mlfqTick_stays ((s.tick first).countTick p) p
    exact (hcounted.charge hf).stays hstays

theorem sleep_kept {s : System} {o : Ledger} (h : Kept s o) {p : Slot} {intr : Bool}
    (hcpu : s.cpu = .kernel p intr) : Kept (s.sleep p intr) (o.note s (.section .sleep)) := by
  simp only [System.sleep, Ledger.note, hcpu]
  by_cases hchan : (s.proc p).chan = none
  · rw [if_neg (not_not.mpr hchan), if_pos hchan]
    exact h
  · rw [if_pos hchan, if_neg hchan]
    apply Kept.stays _ ((Stays.refl _).sched p (.kernel intr))
    exact h.sleep rfl

theorem forkAlloc_kept {s t : System} {o : Ledger} (h : Kept s o) {p np : Slot} {ok : Bool}
    (ht : s.forkAlloc p np ok = some t) : Kept t (o.note s (.section (.forkAlloc np ok))) := by
  obtain ⟨_,hsome⟩ := Option.ite_none_right_eq_some.mp ht
  rw [← Option.some.inj hsome]
  cases ok with
  | true =>
    intro q
    exact (h.restart (p := np) (f := fun q => { q with
      pid := s.nextpid, state := .used, priority := 0, ticksUsed := 0, ctime := s.ticks
      rtime := 0, wtime := 0, etime := 0 }) rfl) q
  | false => exact h.touch np (f := Proc.freeproc) fun _ => rfl

/-- The sections of the system calls; but for two of them the queues are no concern. -/
theorem runSection_stays {s t : System} {p : Slot} {intr : Bool} {op : Section}
    (hsleep : op ≠ .sleep) (hfork : ∀ np ok, op ≠ .forkAlloc np ok)
    (ht : s.runSection p intr op = some t) : Stays s t := by
  cases op with
  | sleepPrepare chan =>
    cases ht
    apply (Stays.refl s).modify
    intro q
    rfl
  | sleep => exact absurd rfl hsleep
  | wakeup chan =>
    cases ht
    exact (Stays.refl s).wakeup _
  | kill q =>
    cases ht
    apply (Stays.refl s).modify
    intro q
    rfl
  | forkAlloc np ok => exact absurd rfl (hfork np ok)
  | forkParent =>
    simp only [System.runSection, System.forkParent] at ht
    split at ht
    · next np _ =>
      cases ht
      exact (Stays.refl s).modify np (f := fun q => { q with parent := some p }) fun _ => rfl
    · cases ht
  | forkRunnable =>
    simp only [System.runSection, System.forkRunnable] at ht
    split at ht
    · next np _ =>
      cases ht
      exact (Stays.refl s).modify np (f := fun q => { q with state := .runnable }) fun _ => rfl
    · cases ht
  | reap pp =>
    obtain ⟨_,hsome⟩ := Option.ite_none_right_eq_some.mp ht
    rw [← Option.some.inj hsome]
    apply (Stays.refl s).modify
    intro q
    rfl
  | exit => exact kexit_stays ht
  | ret =>
    obtain ⟨_,hsome⟩ := Option.ite_none_right_eq_some.mp ht
    rw [← Option.some.inj hsome]
    exact Stays.refl s

theorem runSection_kept {s t : System} {o : Ledger} (h : Kept s o) {p : Slot} {intr : Bool}
    (hcpu : s.cpu = .kernel p intr) {op : Section} (ht : s.runSection p intr op = some t) :
    Kept t (o.note s (.section op)) := by
  cases op with
  | sleep =>
    cases ht
    exact sleep_kept h hcpu
  | forkAlloc np ok => exact forkAlloc_kept h ht
  | _ => exact h.stays (runSection_stays Section.noConfusion (fun _ _ => Section.noConfusion) ht)

theorem checkKilled_stays {s k : System} (h : Stays s k) (p : Slot) :
    Stays s (s.checkKilled p k) := by
  unfold System.checkKilled
  split
  · exact Stays.refl s
  · exact h

/-- The steps that take the hart into the kernel and back. -/
theorem step_stays {s t : System} {e : Event}
    (he : (∃ chan, e = .device chan) ∨ e = .syscall ∨ e = .fault ∨ e = .finish)
    (ht : step s e = some t) : Stays s t := by
  rcases he with ⟨chan,rfl⟩ | rfl | rfl | rfl
  · have hwoken := (Stays.refl s).wakeup (some chan)
    simp only [step] at ht
    split at ht
    · cases ht
      exact hwoken
    · cases ht
      exact hwoken.trans (checkKilled_stays (Stays.refl _) _)
    · cases ht
      exact hwoken
    · cases ht
  · simp only [step] at ht
    split at ht
    · next p hcpu =>
      cases ht
      exact checkKilled_stays (k := { s with cpu := .kernel p true }) (Stays.refl s) p
    · cases ht
  · simp only [step] at ht
    split at ht
    · next p _ =>
      cases ht
      exact (Stays.refl s).modify p (f := fun q => { q with killed := true }) fun _ => rfl
    · cases ht
  · simp only [step] at ht
    split at ht
    · cases ht
      exact Stays.refl s
    · cases ht

theorem hartStep_kept {s t : System} {o : Ledger} (h : Kept s o) {first : Bool} {e : HartEvent}
    (ht : hartStep first s e = some t) : Kept t (o.note s e) := by
  cases e with
  | boost =>
    simp only [hartStep] at ht
    split at ht
    · cases ht
      exact boost_kept h
    · cases ht
  | dispatch p =>
    simp only [hartStep] at ht
    split at ht
    · obtain ⟨_,hsome⟩ := Option.ite_none_right_eq_some.mp ht
      rw [← Option.some.inj hsome]
      exact h.touch p (f := fun q => { q with state := .running }) fun _ => rfl
    · cases ht
  | timer =>
    simp only [hartStep] at ht
    split at ht
    · next hcpu =>
      cases ht
      simp only [Ledger.note, hcpu]
      exact h.stays (.tick first)
    · next p hcpu =>
      cases ht
      exact timer_kept h first hcpu
    · next p hcpu =>
      cases ht
      simp only [Ledger.note, hcpu]
      exact h.stays ((Stays.tick first).yield p _)
    · cases ht
  | device chan => exact h.stays (step_stays (Or.inl ⟨chan,rfl⟩) ht)
  | syscall => exact h.stays (step_stays (Or.inr (Or.inl rfl)) ht)
  | fault => exact h.stays (step_stays (Or.inr (Or.inr (Or.inl rfl))) ht)
  | finish => exact h.stays (step_stays (Or.inr (Or.inr (Or.inr rfl))) ht)
  | «section» op =>
    simp only [hartStep, step] at ht
    split at ht
    · next p intr hcpu => exact runSection_kept h hcpu ht
    · cases ht

/-! ## Runs -/

theorem boot_kept (n : ℕ) : Kept (Machine.boot n).shared Ledger.start := by
  intro p
  apply placed_restart
  simp only [Machine.boot, boot]
  split
  · rfl
  · rfl

/-- In every state that any number of harts can reach, the place of a process in the queues
is one that the slices allow, and it is given by the ticks charged to the process unless it
has slept. -/
theorem queue_position {n : ℕ} {x : Machine n × Ledger}
    (hr : Transition.Reachable Machine.watched (Machine.boot n,Ledger.start) x) (p : Slot) :
    ((x.1.shared.proc p).priority ≤ 3 ∧
      (x.1.shared.proc p).ticksUsed < sliceTicks.getD (x.1.shared.proc p).priority 0) ∧
    (x.2.slept p = false →
      ((x.1.shared.proc p).priority,(x.1.shared.proc p).ticksUsed) =
        position (x.2.charged p)) := by
  have hkept : Kept x.1.shared x.2 := by
    apply hr.invariant (I := fun x => Kept x.1.shared x.2) (boot_kept n)
    intro y e z hy _ hstep
    obtain ⟨m,hm,rfl⟩ := Option.map_eq_some_iff.mp hstep
    obtain ⟨t,ht,rfl⟩ := Option.map_eq_some_iff.mp hm
    exact hartStep_kept (s := y.1.view e.1) hy ht
  exact ⟨(hkept p).valid,(hkept p).position⟩

def firstHart : Fin 2 := ⟨0,Nat.zero_lt_two⟩

def secondHart : Fin 2 := ⟨1,Nat.one_lt_two⟩

/-- The first process is charged one tick on each of two harts. -/
def twoTicks : List (Fin 2 × HartEvent) :=
  [(secondHart,.dispatch 0),(secondHart,.section .ret),(secondHart,.timer),(firstHart,.dispatch 0),
    (firstHart,.finish),(firstHart,.timer)]

def twiceTicked : Machine 2 × Ledger :=
  (Transition.execute Machine.watched (Machine.boot 2,Ledger.start) twoTicks).get (by decide +kernel)

theorem queue_position_two :
    Transition.Reachable Machine.watched (Machine.boot 2,Ledger.start) twiceTicked ∧
      twiceTicked.2.charged 0 = 2 ∧
      ((twiceTicked.1.shared.proc 0).priority,(twiceTicked.1.shared.proc 0).ticksUsed) = (1,1) := by
  have hr : Transition.Reachable Machine.watched (Machine.boot 2,Ledger.start) twiceTicked :=
    Transition.Runs.of_events (fun _ _ => trivial) (Option.some_get _).symm
  have hcharged : twiceTicked.2.charged 0 = 2 := by decide +kernel
  refine ⟨hr,hcharged,?_⟩
  rw [(queue_position hr 0).2 (by decide +kernel), hcharged]
  rfl

/-! ## One hart -/

/-- A machine of one hart. -/
def Machine.single (s : System) : Machine 1 := ⟨s,fun _ => s.cpu⟩

theorem single_step {s t : System} {e : HartEvent} (h : hartStep true s e = some t) :
    Machine.step (Machine.single s) (⟨0,Nat.one_pos⟩,e) = some (Machine.single t) := by
  have hcpu : Function.update (Machine.single s).cpu ⟨0,Nat.one_pos⟩ t.cpu = fun _ => t.cpu := by
    funext k
    rw [Subsingleton.elim k ⟨0,Nat.one_pos⟩, Function.update_self]
  have hview : hartStep true ((Machine.single s).view ⟨0,Nat.one_pos⟩) e = some t := h
  simp only [Machine.step, decide_true, hview, Option.map_some, hcpu]
  rfl

theorem boost_cpu (s : System) : s.boost.cpu = s.cpu := by
  unfold System.boost
  split
  · rfl
  · rfl

/-- A machine of one hart takes every step of the kernel on one hart. -/
theorem step_machine {s t : System} {e : Event} (h : step s e = some t) :
    Transition.Reachable Machine.step (Machine.single s) (Machine.single t) := by
  cases e with
  | schedule =>
    simp only [step] at h
    split at h
    · next hcpu =>
      have hboost : hartStep true s .boost = some s.boost := by simp [hartStep, hcpu]
      have hrun : Transition.Reachable Machine.step (Machine.single s) (Machine.single s.boost) :=
        .single trivial (single_step hboost)
      cases h
      unfold System.schedule
      split
      · next p hscan =>
        have hdispatch : hartStep true s.boost (.dispatch p) = some (s.boost.dispatch p) := by
          simp [hartStep, boost_cpu, hcpu, (scan_eq_some hscan).1]
        exact .tail hrun trivial (single_step hdispatch)
      · exact hrun
    · cases h
  | timer => exact .single trivial (single_step (e := .timer) h)
  | device chan => exact .single trivial (single_step (e := .device chan) h)
  | syscall => exact .single trivial (single_step (e := .syscall) h)
  | fault => exact .single trivial (single_step (e := .fault) h)
  | finish => exact .single trivial (single_step (e := .finish) h)
  | «section» op => exact .single trivial (single_step (e := .section op) h)

end CShellXv6.Mlfq
