import CShellXv6.Kernel.LockOrder
import CShellXv6.Library.Protocol

/-! # The life of a process

The protocol of the process table: which step of its life a process may take, by
whom and under which locks, from `allocproc` to `freeproc`. The ghost state tells
apart what `p->state` does not (a child still being made, a process whose
`etime` is already written), which process each hart runs, and how far the timer
interrupt of a process has come with the accounts.
-/
namespace CShellXv6.Kernel
open SpinLock
variable {n : ℕ}

/-- How far `allocproc` has come. -/
inductive Stage
  | claimed
  | stamped
  | fresh
  deriving DecidableEq

inductive Phase
  | unused
  | making (maker : Slot) (stage : Stage)
  | runnable
  | chosen
  | running
  | leaving
  | sleeping
  | zombie
  deriving DecidableEq

def Phase.state : Phase → ProcState
  | .unused => .unused
  | .making _ _ => .used
  | .runnable => .runnable
  | .chosen => .runnable
  | .running => .running
  | .leaving => .running
  | .sleeping => .sleeping
  | .zombie => .zombie

theorem Phase.eq_sleeping {ph : Phase} (h : ph.state = .sleeping) : ph = .sleeping := by
  cases ph with
  | sleeping => rfl
  | _ => cases h

theorem Phase.eq_unused {ph : Phase} (h : ph.state = .unused) : ph = .unused := by
  cases ph with
  | unused => rfl
  | _ => cases h

theorem Phase.eq_zombie {ph : Phase} (h : ph.state = .zombie) : ph = .zombie := by
  cases ph with
  | zombie => rfl
  | _ => cases h

theorem Phase.eq_runnable {ph : Phase} (h : ph.state = .runnable) : ph = .runnable ∨ ph = .chosen := by
  cases ph with
  | runnable => exact Or.inl rfl
  | chosen => exact Or.inr rfl
  | _ => cases h

/-- The process has a hart. -/
def Phase.seated : Phase → Bool
  | .running => true
  | .leaving => true
  | _ => false

/-- The process has been made and has not yet ended. -/
def Phase.alive : Phase → Bool
  | .runnable => true
  | .chosen => true
  | .running => true
  | .leaving => true
  | .sleeping => true
  | _ => false

theorem Phase.made {ph : Phase} (h : ph.alive = true) : ph.state ≠ .unused ∧ ph.state ≠ .used := by
  cases ph with
  | unused => cases h
  | making => cases h
  | _ => simp [Phase.state]

/-- The timer interrupt of a process: entered, with `ticks` advanced, and with
some processes left to count. -/
inductive Duty
  | off
  | entered
  | ticked
  | counting (rest : List Slot)
  deriving DecidableEq

def Duty.free : Duty → Bool
  | .off => true
  | .counting [] => true
  | _ => false

structure Ghost (n : ℕ) where
  phase : Slot → Phase
  seat : Fin n → Option Slot
  duty : Slot → Duty
  trapped : Slot → Bool

abbrev World (n : ℕ) := Data n × Ghost n

namespace Ghost
variable (g : Ghost n)

def setPhase (x : Slot) (ph : Phase) : Ghost n := { g with phase := Function.update g.phase x ph }

def setSeat (h : Fin n) (s : Option Slot) : Ghost n := { g with seat := Function.update g.seat h s }

def setDuty (p : Slot) (dt : Duty) : Ghost n := { g with duty := Function.update g.duty p dt }

def setTrapped (c : Option Slot) : Ghost n :=
  { g with trapped := fun p => g.trapped p || decide (c = some p) }

end Ghost

/-! ## Moves -/

/-- The accounts of a process. -/
def Proc.times (q : Proc) : BitVec 32 × ℕ × ℕ × BitVec 32 × BitVec 32 :=
  (q.ctime,q.rtime,q.wtime,q.etime,q.firstRun)

/-- Neither the accounts nor a kill are undone. -/
structure Proc.Mild (q q' : Proc) : Prop where
  times : q'.times = q.times
  killed : q.killed = true → q'.killed = true

/-- The steps in the life of the process `x` but for the last one of its own, by
the agent and at the time given. -/
inductive Deed (policy : Policy) (a : Agent (Fin n) Slot) (ticks : BitVec 32) (x : Slot) :
    Phase → Proc → Phase → Proc → Prop
  | touch {ph q q'} : q.Mild q' → Deed policy a ticks x ph q ph q'
  | rouse {q q'} : q.Mild q' → Deed policy a ticks x .sleeping q .runnable q'
  | yield {q q'} : q.Mild q' → a.thread = some x → (a.nested = false → policy ≠ .fifo) →
      Deed policy a ticks x .running q .runnable q'
  | sleep {q q'} : q.Mild q' → a.thread = some x → a.nested = false →
      Deed policy a ticks x .running q .sleeping q'
  | leave {q q'} : { q with etime := ticks }.Mild q' → a.thread = some x → a.nested = false →
      Deed policy a ticks x .running q .leaving q'
  | claim {p q q'} : a.thread = some p → a.nested = false →
      Deed policy a ticks x .unused q (.making p .claimed) q'
  | stamp {p q q'} : { q with ctime := ticks }.Mild q' → a.thread = some p → a.nested = false →
      Deed policy a ticks x (.making p .claimed) q (.making p .stamped) q'
  | reset {p q q'} : { q with rtime := 0, wtime := 0, etime := 0, firstRun := -1 }.Mild q' →
      a.thread = some p → a.nested = false →
      Deed policy a ticks x (.making p .stamped) q (.making p .fresh) q'
  | publish {p q q'} : q.Mild q' → a.thread = some p → a.nested = false →
      Deed policy a ticks x (.making p .fresh) q .runnable q'
  | discard {p stage q q'} : a.thread = some p → a.nested = false →
      Deed policy a ticks x (.making p stage) q .unused q'
  | reap {q q'} : Deed policy a ticks x .zombie q .unused q'
  | choose {ph q q'} : { q with firstRun := ticks }.Mild q' → policy = .fifo → q.firstRun = -1 →
      ph.state = .runnable → a.thread = none → Deed policy a ticks x ph q .chosen q'
  | start {ph q q'} : q.Mild q' → a.thread = none →
      ph = .chosen ∨ ph = .runnable ∧ (policy = .fifo → q.firstRun ≠ -1) →
      Deed policy a ticks x ph q .running q'

/-- The hart is taken by a process that starts and given up by one that stops. -/
def reseat (ph ph' : Phase) (x : Slot) (s : Option Slot) : Option Slot :=
  if ph.seated = ph'.seated then s else if ph'.seated then some x else none

theorem reseat_same {ph ph' : Phase} {x : Slot} {s : Option Slot} (h : ph.seated = ph'.seated) :
    reseat ph ph' x s = s := if_pos h

theorem reseat_stop {ph ph' : Phase} {x : Slot} {s : Option Slot} (h : ph.seated = true)
    (h' : ph'.seated = false) : reseat ph ph' x s = none := by simp [reseat,h,h']

theorem reseat_start {ph ph' : Phase} {x : Slot} {s : Option Slot} (h : ph.seated = false)
    (h' : ph'.seated = true) : reseat ph ph' x s = some x := by simp [reseat,h,h']

/-- The agent runs on its hart, and a process only takes traps in the kernel when
it has been trapped there. -/
def Active (a : Agent (Fin n) Slot) (w : World n) : Prop :=
  w.2.seat a.processor = a.thread ∧
    ∀ p, a.thread = some p → a.nested = true → w.2.trapped p = true

/-- The process is not in the middle of its timer interrupt, or has been killed. -/
def Able (a : Agent (Fin n) Slot) (w : World n) : Prop :=
  ∀ p, a.thread = some p → a.nested = false →
    (w.2.duty p).free = true ∨ (w.1.proc p).killed = true

/-- The processes that a timer interrupt of `p` counts as waiting. -/
def others (p : Slot) (l : List Slot) : List Slot := l.filter (· ≠ p)

inductive Move (policy : Policy) :
    Agent (Fin n) Slot → Option Entry → List Lock → World n → World n → Prop
  | deed {a held w} (x : Slot) (f : Proc → Proc) (ph : Phase) : Active a w → Able a w →
      Deed policy a w.1.ticks x (w.2.phase x) (w.1.proc x) ph (f (w.1.proc x)) →
      (f (w.1.proc x)).state = ph.state →
      .proc x ∈ held ∨ ph = w.2.phase x ∧ (f (w.1.proc x)).times = (w.1.proc x).times →
      Move policy a none held w (w.1.modify x f,(w.2.setPhase x ph).setSeat a.processor
        (reseat (w.2.phase x) ph x (w.2.seat a.processor)))
  | die {a held w} (p : Slot) (f : Proc → Proc) : Active a w → a.thread = some p →
      a.nested = false → w.2.phase p = .leaving → (w.1.proc p).Mild (f (w.1.proc p)) →
      (f (w.1.proc p)).state = .zombie → .proc p ∈ held →
      Move policy a none held w (w.1.modify p f,
        ((w.2.setPhase p .zombie).setSeat a.processor none).setDuty p .off)
  | wakeTicks {a held w} (x : Slot) (ph : Phase) : Active a w → .proc x ∈ held →
      (∀ p, a.thread = some p → a.nested = false → w.2.duty p = .ticked) →
      (ph = w.2.phase x ∨ (w.1.proc x).chan = some .ticks ∧ w.2.phase x = .sleeping ∧
        ph = .runnable) →
      ((w.1.proc x).wake (some .ticks)).state = ph.state →
      Move policy a none held w (w.1.modify x (Proc.wake (some .ticks)),w.2.setPhase x ph)
  | countRun {a held w} (p : Slot) : Active a w → a.thread = some p → a.nested = false →
      w.2.phase p = .running → w.2.duty p = .ticked ∨ w.2.duty p = .entered ∧ 1 < n →
      Move policy a none held w (w.1.modify p fun q => { q with rtime := q.rtime + 1 },
        w.2.setDuty p (.counting (others p (List.finRange nproc))))
  | countWait {a held w} (p x : Slot) (rest : List Slot) : Active a w → a.thread = some p →
      a.nested = false → w.2.duty p = .counting (x :: rest) → .proc x ∈ held →
      Move policy a none held w (w.1.modify x fun q =>
          { q with wtime := if q.state = .runnable then q.wtime + 1 else q.wtime },
        w.2.setDuty p (.counting rest))
  | tick {a held w} : Active a w → a.nested = true → w.1.cpu a.processor = a.thread →
      .ticks ∈ held →
      Move policy a none held w ({ w.1 with ticks := w.1.ticks + 1 },w.2)
  | tickTimer {a held w} (p : Slot) : Active a w → a.thread = some p → a.nested = false →
      w.1.cpu a.processor = a.thread → w.2.phase p = .running → w.2.duty p = .entered →
      .ticks ∈ held →
      Move policy a none held w ({ w.1 with ticks := w.1.ticks + 1 },w.2.setDuty p .ticked)
  | share {a held w} (pid : ℕ) (boost : BitVec 32) : Active a w → Able a w →
      Move policy a none held w
        ({ w.1 with nextpid := pid, mlfqTicksSinceBoost := boost },w.2)
  | setCpu {a held w} (c : Option Slot) : a.thread = none →
      Move policy a none held w ({ w.1 with cpu := Function.update w.1.cpu a.processor c },w.2)
  | enterUser {a held w} (p : Slot) (e : Entry) : Active a w → a.thread = some p →
      a.nested = false → (w.2.duty p).free = true → e = .fault p ∨ (∃ call, e = .syscall p call) →
      Move policy a (some e) held w (w.1,w.2.setDuty p .off)
  | enterTimer {a held w} (p : Slot) : Active a w → a.thread = some p → a.nested = false →
      (w.2.duty p).free = true →
      Move policy a (some (.timer p)) held w (w.1,w.2.setDuty p .entered)
  | enterKernel {a held w} : w.2.seat a.processor = a.thread → a.nested = true →
      Move policy a (some .kerneltrap) held w (w.1,w.2.setTrapped a.thread)

/-! ## What a move changes -/

section Effects
variable {policy : Policy} {a : Agent (Fin n) Slot} {tr : Option Entry} {held : List Lock}
  {w w' : World n}

@[simp] theorem Data.modify_self (s : Data n) (x : Slot) (f : Proc → Proc) :
    (s.modify x f).proc x = f (s.proc x) := Function.update_self x _ s.proc

@[simp] theorem Data.modify_ne (s : Data n) {x y : Slot} (f : Proc → Proc) (h : y ≠ x) :
    (s.modify x f).proc y = s.proc y := Function.update_of_ne h _ s.proc

@[simp] theorem Ghost.setPhase_self (g : Ghost n) (x : Slot) (ph : Phase) :
    (g.setPhase x ph).phase x = ph := by simp [setPhase]

@[simp] theorem Ghost.setPhase_ne (g : Ghost n) {x y : Slot} (ph : Phase) (h : y ≠ x) :
    (g.setPhase x ph).phase y = g.phase y := by simp [setPhase,h]

@[simp] theorem Ghost.setSeat_self (g : Ghost n) (h : Fin n) (s : Option Slot) :
    (g.setSeat h s).seat h = s := by simp [setSeat]

@[simp] theorem Ghost.setSeat_ne (g : Ghost n) {h k : Fin n} (s : Option Slot) (hk : k ≠ h) :
    (g.setSeat h s).seat k = g.seat k := by simp [setSeat,hk]

theorem Ghost.setSeat_eq_self (g : Ghost n) (h : Fin n) : g.setSeat h (g.seat h) = g := by
  simp [setSeat]

@[simp] theorem Ghost.setDuty_self (g : Ghost n) (p : Slot) (dt : Duty) :
    (g.setDuty p dt).duty p = dt := by simp [setDuty]

@[simp] theorem Ghost.setDuty_ne (g : Ghost n) {p q : Slot} (dt : Duty) (h : q ≠ p) :
    (g.setDuty p dt).duty q = g.duty q := by simp [setDuty,h]

@[simp] theorem Ghost.setSeat_phase (g : Ghost n) (h : Fin n) (s : Option Slot) :
    (g.setSeat h s).phase = g.phase := rfl

@[simp] theorem Ghost.setSeat_duty (g : Ghost n) (h : Fin n) (s : Option Slot) :
    (g.setSeat h s).duty = g.duty := rfl

@[simp] theorem Ghost.setPhase_seat (g : Ghost n) (x : Slot) (ph : Phase) :
    (g.setPhase x ph).seat = g.seat := rfl

@[simp] theorem Ghost.setPhase_duty (g : Ghost n) (x : Slot) (ph : Phase) :
    (g.setPhase x ph).duty = g.duty := rfl

@[simp] theorem Ghost.setDuty_phase (g : Ghost n) (p : Slot) (dt : Duty) :
    (g.setDuty p dt).phase = g.phase := rfl

@[simp] theorem Ghost.setDuty_seat (g : Ghost n) (p : Slot) (dt : Duty) :
    (g.setDuty p dt).seat = g.seat := rfl

/-- The ghost state agrees with the process table, the processes that run are
those with a hart, each with its own, and only they have timer interrupts to finish. -/
structure Inv (w : World n) : Prop where
  state : ∀ x, (w.1.proc x).state = (w.2.phase x).state
  seated : ∀ {h p}, w.2.seat h = some p → (w.2.phase p).seated = true
  alone : ∀ {h h' p}, w.2.seat h = some p → w.2.seat h' = some p → h = h'
  placed : ∀ p, (w.2.phase p).seated = true → ∃ h, w.2.seat h = some p
  resting : ∀ x, (w.2.phase x).alive = false → (w.2.duty x).free = true

theorem Phase.seated_iff (ph : Phase) : ph.seated = true ↔ ph.state = .running := by
  cases ph <;> simp [seated,state]

theorem Phase.alive_of_seated {ph : Phase} (h : ph.seated = true) : ph.alive = true := by
  cases ph with
  | running => rfl
  | leaving => rfl
  | _ => cases h

theorem Inv.alive (hi : Inv w) {h : Fin n} {p : Slot} (hp : w.2.seat h = some p) :
    (w.2.phase p).alive = true := Phase.alive_of_seated (hi.seated hp)

theorem Proc.Mild.refl (q : Proc) : q.Mild q := ⟨rfl,fun h => h⟩

theorem Proc.Mild.counters {q q' : Proc} (h : q.Mild q') : q'.ctime = q.ctime ∧
    q'.rtime = q.rtime ∧ q'.wtime = q.wtime ∧ q'.etime = q.etime ∧ q'.firstRun = q.firstRun := by
  have htimes := h.times
  simp only [Proc.times, Prod.mk.injEq] at htimes
  exact htimes

theorem Proc.wake_mild (q : Proc) (chan : Option Chan) : q.Mild (q.wake chan) := by
  unfold Proc.wake
  split
  · exact ⟨rfl,fun h => h⟩
  · exact Mild.refl q

/-- What a move can do to one process: nothing but the clock, a step of its life,
or an entry in its accounts. -/
inductive Lives (policy : Policy) (a : Agent (Fin n) Slot) (ticks : BitVec 32) (x : Slot) :
    Phase → Proc → Phase → Proc → Prop
  | deed {ph q ph' q'} : Deed policy a ticks x ph q ph' q' → Lives policy a ticks x ph q ph' q'
  | die {q q'} : q.Mild q' → a.thread = some x → a.nested = false →
      Lives policy a ticks x .leaving q .zombie q'
  | run {q} : a.thread = some x → a.nested = false →
      Lives policy a ticks x .running q .running { q with rtime := q.rtime + 1 }
  | wait {ph q} : ph.state = q.state → Lives policy a ticks x ph q ph
      { q with wtime := if q.state = .runnable then q.wtime + 1 else q.wtime }

theorem Lives.refl (policy : Policy) (a : Agent (Fin n) Slot) (ticks : BitVec 32) (x : Slot)
    (ph : Phase) (q : Proc) : Lives policy a ticks x ph q ph q :=
  .deed (.touch (Proc.Mild.refl q))

theorem Move.lives (hm : Move policy a tr held w w') (hi : Inv w) (y : Slot) :
    (w'.1.ticks = w.1.ticks ∧ Lives policy a w.1.ticks y (w.2.phase y) (w.1.proc y)
      (w'.2.phase y) (w'.1.proc y)) ∨
    (w'.1.ticks = w.1.ticks + 1 ∧ .ticks ∈ held ∧ w'.2.phase y = w.2.phase y ∧
      w'.1.proc y = w.1.proc y) := by
  have hsame : Lives policy a w.1.ticks y (w.2.phase y) (w.1.proc y) (w.2.phase y) (w.1.proc y) :=
    Lives.refl _ _ _ _ _ _
  cases hm with
  | deed x f ph _ _ hx _ _ =>
    refine Or.inl ⟨rfl,?_⟩
    by_cases hy : y = x
    · subst hy
      simpa using Lives.deed hx
    · simpa [hy] using hsame
  | die p f _ hthread hnested hph hmild _ _ =>
    refine Or.inl ⟨rfl,?_⟩
    by_cases hy : y = p
    · subst hy
      simpa [hph] using Lives.die hmild hthread hnested
    · simpa [hy] using hsame
  | wakeTicks x ph _ _ _ hph _ =>
    refine Or.inl ⟨rfl,?_⟩
    by_cases hy : y = x
    · subst hy
      have hmild := (w.1.proc y).wake_mild (some .ticks)
      rcases hph with rfl | ⟨_,hsleep,rfl⟩
      · simpa using Lives.deed (Deed.touch hmild)
      · simpa [hsleep] using Lives.deed (Deed.rouse hmild)
    · simpa [hy] using hsame
  | countRun p _ hthread hnested hrun _ =>
    refine Or.inl ⟨rfl,?_⟩
    by_cases hy : y = p
    · subst hy
      simpa [hrun] using Lives.run hthread hnested
    · simpa [hy] using hsame
  | countWait p x rest _ _ _ _ _ =>
    refine Or.inl ⟨rfl,?_⟩
    by_cases hy : y = x
    · subst hy
      simpa using Lives.wait (hi.state y).symm
    · simpa [hy] using hsame
  | tick _ _ _ hlock => exact Or.inr ⟨rfl,hlock,rfl,rfl⟩
  | tickTimer p _ _ _ _ _ _ hlock => exact Or.inr ⟨rfl,hlock,rfl,rfl⟩
  | share pid boost => exact Or.inl ⟨rfl,hsame⟩
  | setCpu c => exact Or.inl ⟨rfl,hsame⟩
  | enterUser => exact Or.inl ⟨rfl,hsame⟩
  | enterTimer => exact Or.inl ⟨rfl,hsame⟩
  | enterKernel => exact Or.inl ⟨rfl,hsame⟩

/-- Only the holder of its lock moves a process on. -/
theorem Move.unlocked (hm : Move policy a tr held w w') {y : Slot} (hy : .proc y ∉ held) :
    w'.2.phase y = w.2.phase y ∧ (w'.1.proc y).firstRun = (w.1.proc y).firstRun := by
  cases hm with
  | deed x f ph _ _ _ _ hlock =>
    by_cases hyx : y = x
    · subst hyx
      rcases hlock with hlock | ⟨rfl,htimes⟩
      · exact absurd hlock hy
      · refine ⟨by simp,?_⟩
        simpa [Proc.times] using congrArg (fun t => t.2.2.2.2) htimes
    · simp [hyx]
  | die p f _ _ _ _ _ _ hlock =>
    have hyp : y ≠ p := fun h => hy (h ▸ hlock)
    simp [hyp]
  | wakeTicks x ph _ hlock _ _ _ =>
    have hyx : y ≠ x := fun h => hy (h ▸ hlock)
    simp [hyx]
  | countRun p =>
    refine ⟨rfl,?_⟩
    by_cases hyp : y = p
    · simp [hyp]
    · simp [hyp]
  | countWait p x rest =>
    refine ⟨rfl,?_⟩
    by_cases hyx : y = x
    · simp [hyx]
    · simp [hyx]
  | _ => exact ⟨rfl,rfl⟩

theorem Move.elsewhere (hm : Move policy a tr held w w') {h : Fin n} (hh : a.processor ≠ h) :
    w'.2.seat h = w.2.seat h ∧ w'.1.cpu h = w.1.cpu h := by
  cases hm with
  | deed => exact ⟨Ghost.setSeat_ne _ _ hh.symm,rfl⟩
  | die => exact ⟨Ghost.setSeat_ne _ _ hh.symm,rfl⟩
  | setCpu => exact ⟨rfl,Function.update_of_ne hh.symm _ _⟩
  | _ => exact ⟨rfl,rfl⟩

/-- Only a process itself takes up and finishes its timer interrupts. -/
theorem Move.duty (hm : Move policy a tr held w w') {p : Slot}
    (ha : a.thread = some p → a.nested = true) : w'.2.duty p = w.2.duty p := by
  have hne : ∀ {q}, a.thread = some q → a.nested = false → p ≠ q := by
    rintro q hq hn rfl
    rw [ha hq] at hn
    cases hn
  cases hm with
  | die q f _ hq hn => exact Ghost.setDuty_ne _ _ (hne hq hn)
  | countRun q _ hq hn => exact Ghost.setDuty_ne _ _ (hne hq hn)
  | countWait q x rest _ hq hn => exact Ghost.setDuty_ne _ _ (hne hq hn)
  | tickTimer q _ hq hn => exact Ghost.setDuty_ne _ _ (hne hq hn)
  | enterUser q e _ hq hn => exact Ghost.setDuty_ne _ _ (hne hq hn)
  | enterTimer q _ hq hn => exact Ghost.setDuty_ne _ _ (hne hq hn)
  | _ => rfl

theorem Move.trapped (hm : Move policy a tr held w w') {p : Slot} (hp : w.2.trapped p = true) :
    w'.2.trapped p = true := by
  cases hm with
  | enterKernel => simp [Ghost.setTrapped,hp]
  | _ => exact hp

/-! ## The invariant -/

/-- Only a process itself gives up its hart. -/
theorem Deed.stops {ticks : BitVec 32} {x : Slot} {ph ph' : Phase} {q q' : Proc}
    (hd : Deed policy a ticks x ph q ph' q') (h : ph.seated = true) (h' : ph'.seated = false) :
    a.thread = some x := by
  cases hd with
  | touch =>
    rw [h] at h'
    cases h'
  | yield _ hthread => exact hthread
  | sleep _ hthread => exact hthread
  | leave => cases h'
  | start => cases h'
  | choose _ _ _ hstate =>
    cases ph with
    | running => cases hstate
    | leaving => cases hstate
    | _ => cases h
  | _ => cases h

theorem Deed.starts {ticks : BitVec 32} {x : Slot} {ph ph' : Phase} {q q' : Proc}
    (hd : Deed policy a ticks x ph q ph' q') (h : ph.seated = false) (h' : ph'.seated = true) :
    a.thread = none := by
  cases hd with
  | touch =>
    rw [h] at h'
    cases h'
  | leave => cases h
  | start _ hthread => exact hthread
  | _ => cases h'

theorem Deed.dead {ticks : BitVec 32} {x : Slot} {ph ph' : Phase} {q q' : Proc}
    (hd : Deed policy a ticks x ph q ph' q') (h' : ph'.alive = false) : ph.alive = false := by
  cases hd with
  | touch => exact h'
  | claim => rfl
  | stamp => rfl
  | reset => rfl
  | discard => rfl
  | reap => rfl
  | _ => cases h'

/-- Whoever has a hart after the deed had it before, unless it is `x` that starts. -/
theorem Deed.seat {x : Slot} {q : Proc} {ph : Phase} (hi : Inv w) (ha : Active a w)
    (hd : Deed policy a w.1.ticks x (w.2.phase x) (w.1.proc x) ph q) {h : Fin n} {p : Slot}
    (hp : Function.update w.2.seat a.processor
      (reseat (w.2.phase x) ph x (w.2.seat a.processor)) h = some p) :
    (w.2.seat h = some p ∧ (p = x → ph.seated = true)) ∨
      (h = a.processor ∧ p = x ∧ ph.seated = true ∧ (w.2.phase x).seated = false) := by
  by_cases hsame : (w.2.phase x).seated = ph.seated
  · rw [reseat_same hsame, Function.update_eq_self] at hp
    refine Or.inl ⟨hp,?_⟩
    rintro rfl
    rw [← hsame]
    exact hi.seated hp
  · by_cases hh : h = a.processor
    · subst hh
      rw [Function.update_self, reseat, if_neg hsame] at hp
      cases hnew : ph.seated with
      | false =>
        rw [if_neg (by simp [hnew])] at hp
        cases hp
      | true =>
        rw [if_pos hnew] at hp
        refine Or.inr ⟨rfl,(Option.some.inj hp).symm,rfl,?_⟩
        cases hold : (w.2.phase x).seated with
        | false => rfl
        | true => exact absurd (hold.trans hnew.symm) hsame
    · rw [Function.update_of_ne hh] at hp
      refine Or.inl ⟨hp,?_⟩
      rintro rfl
      cases hnew : ph.seated with
      | true => rfl
      | false =>
        have hthread := hd.stops (hi.seated hp) hnew
        exact absurd (hi.alone hp (ha.1.trans hthread)) hh

/-- A deed on another process than the one of the hart starts and stops nobody. -/
theorem Deed.seated_eq {x p : Slot} {q : Proc} {ph : Phase} (ha : Active a w)
    (hd : Deed policy a w.1.ticks x (w.2.phase x) (w.1.proc x) ph q)
    (hp : w.2.seat a.processor = some p) (hpx : p ≠ x) : (w.2.phase x).seated = ph.seated := by
  cases hold : (w.2.phase x).seated with
  | true =>
    cases hnew : ph.seated with
    | true => rfl
    | false =>
      rw [ha.1, hd.stops hold hnew] at hp
      exact absurd (Option.some.inj hp).symm hpx
  | false =>
    cases hnew : ph.seated with
    | false => rfl
    | true =>
      rw [ha.1, hd.starts hold hnew] at hp
      cases hp

theorem Deed.placed {x : Slot} {q : Proc} {ph : Phase} (hi : Inv w) (ha : Active a w)
    (hd : Deed policy a w.1.ticks x (w.2.phase x) (w.1.proc x) ph q) {p : Slot}
    (hp : ((w.2.setPhase x ph).phase p).seated = true) :
    ∃ h, ((w.2.setPhase x ph).setSeat a.processor
      (reseat (w.2.phase x) ph x (w.2.seat a.processor))).seat h = some p := by
  by_cases hpx : p = x
  · subst hpx
    replace hp : ph.seated = true := by simpa using hp
    cases hold : (w.2.phase p).seated with
    | true =>
      obtain ⟨h,hh⟩ := hi.placed p hold
      refine ⟨h,?_⟩
      rw [reseat_same (hold.trans hp.symm)]
      exact (congrFun (Function.update_eq_self _ _) h).trans hh
    | false =>
      refine ⟨a.processor,?_⟩
      rw [reseat_start hold hp]
      exact Ghost.setSeat_self _ _ _
  · obtain ⟨h,hh⟩ := hi.placed p (by simpa [hpx] using hp)
    refine ⟨h,?_⟩
    by_cases hproc : h = a.processor
    · subst hproc
      rw [Ghost.setSeat_self, reseat_same (hd.seated_eq ha hh hpx), hh]
    · rw [Ghost.setSeat_ne _ _ hproc]
      exact hh

theorem Deed.inv {x : Slot} {f : Proc → Proc} {ph : Phase} (hi : Inv w) (ha : Active a w)
    (hd : Deed policy a w.1.ticks x (w.2.phase x) (w.1.proc x) ph (f (w.1.proc x)))
    (hstate : (f (w.1.proc x)).state = ph.state) :
    Inv (w.1.modify x f,(w.2.setPhase x ph).setSeat a.processor
      (reseat (w.2.phase x) ph x (w.2.seat a.processor))) := by
  refine ⟨fun y => ?_,fun {h p} hp => ?_,fun {h h' p} hp hp' => ?_,fun p hp => hd.placed hi ha hp,
    fun y hy => ?_⟩
  · by_cases hy : y = x
    · subst hy
      simpa using hstate
    · simpa [hy] using hi.state y
  · rcases hd.seat hi ha hp with ⟨hold,hx⟩ | ⟨_,rfl,hnew,_⟩
    · by_cases hpx : p = x
      · subst hpx
        simpa using hx rfl
      · simpa [hpx] using hi.seated hold
    · simpa using hnew
  · rcases hd.seat hi ha hp with ⟨hold,_⟩ | ⟨hh,rfl,_,hfree⟩
    · rcases hd.seat hi ha hp' with ⟨hold',_⟩ | ⟨_,rfl,_,hfree⟩
      · exact hi.alone hold hold'
      · rw [hi.seated hold] at hfree
        cases hfree
    · rcases hd.seat hi ha hp' with ⟨hold',_⟩ | ⟨hh',_⟩
      · rw [hi.seated hold'] at hfree
        cases hfree
      · rw [hh, hh']
  · by_cases hyx : y = x
    · subst hyx
      exact hi.resting y (hd.dead (by simpa using hy))
    · exact hi.resting y (by simpa [hyx] using hy)

/-- A process that dies gives up its hart. -/
theorem Inv.die (hi : Inv w) {h : Fin n} {p : Slot} {f : Proc → Proc} (hp : w.2.seat h = some p)
    (hstate : (f (w.1.proc p)).state = .zombie) :
    Inv (w.1.modify p f,((w.2.setPhase p .zombie).setSeat h none).setDuty p .off) := by
  have hold : ∀ {k q}, ((w.2.setPhase p .zombie).setSeat h none).seat k = some q →
      w.2.seat k = some q ∧ q ≠ p := by
    intro k q hq
    by_cases hk : k = h
    · rw [hk, Ghost.setSeat_self] at hq
      cases hq
    · rw [Ghost.setSeat_ne _ _ hk] at hq
      refine ⟨hq,?_⟩
      rintro rfl
      exact hk (hi.alone hq hp)
  refine ⟨fun y => ?_,fun {k q} hq => ?_,fun {k k' q} hq hq' => ?_,fun q hq => ?_,fun y hy => ?_⟩
  · by_cases hy : y = p
    · subst hy
      simpa [Phase.state] using hstate
    · simpa [hy] using hi.state y
  · obtain ⟨hk,hne⟩ := hold hq
    simpa [hne] using hi.seated hk
  · exact hi.alone (hold hq).1 (hold hq').1
  · have hne : q ≠ p := by
      rintro rfl
      simp [Phase.seated] at hq
    obtain ⟨k,hk⟩ := hi.placed q (by simpa [hne] using hq)
    refine ⟨k,?_⟩
    have hkh : k ≠ h := by
      rintro rfl
      rw [hp] at hk
      exact hne (Option.some.inj hk).symm
    simpa [hkh] using hk
  · by_cases hyp : y = p
    · subst hyp
      simp [Duty.free]
    · simpa [hyp] using hi.resting y (by simpa [hyp] using hy)

/-- The timer interrupts of a process with a hart are its own affair. -/
theorem Inv.setDuty (hi : Inv w) {s : Data n} (hs : ∀ x, (s.proc x).state = (w.1.proc x).state)
    {h : Fin n} {p : Slot} (hp : w.2.seat h = some p) (dt : Duty) : Inv (s,w.2.setDuty p dt) := by
  refine ⟨fun y => (hs y).trans (hi.state y),hi.seated,hi.alone,hi.placed,fun y hy => ?_⟩
  by_cases hyp : y = p
  · subst hyp
    rw [Ghost.setDuty_phase, hi.alive hp] at hy
    cases hy
  · simpa [hyp] using hi.resting y hy

theorem Data.modify_field {α : Type*} (g : Proc → α) (s : Data n) (x y : Slot) {f : Proc → Proc}
    (hf : g (f (s.proc x)) = g (s.proc x)) : g ((s.modify x f).proc y) = g (s.proc y) := by
  by_cases hy : y = x
  · subst hy
    simpa using hf
  · simp [hy]

theorem Move.inv (hm : Move policy a tr held w w') (hi : Inv w) : Inv w' := by
  cases hm with
  | deed x f ph ha _ hd hstate _ => exact hd.inv hi ha hstate
  | die p f ha hthread _ _ _ hstate _ => exact hi.die (ha.1.trans hthread) hstate
  | wakeTicks x ph _ _ _ hph hstate =>
    have hsame : ∀ y, w.2.phase y ≠ .sleeping → (w.2.setPhase x ph).phase y = w.2.phase y := by
      intro y hy
      by_cases hyx : y = x
      · subst hyx
        rcases hph with rfl | ⟨_,hsleep,_⟩
        · simp
        · exact absurd hsleep hy
      · simp [hyx]
    have hback : ∀ y, ((w.2.setPhase x ph).phase y).seated = true ∨
        ((w.2.setPhase x ph).phase y).alive = false →
        (w.2.setPhase x ph).phase y = w.2.phase y := by
      intro y hy
      apply hsame y
      intro hsleep
      by_cases hyx : y = x
      · subst hyx
        rw [Ghost.setPhase_self] at hy
        rcases hph with rfl | ⟨_,_,rfl⟩
        · simp [hsleep,Phase.seated,Phase.alive] at hy
        · simp [Phase.seated,Phase.alive] at hy
      · simp [hyx,hsleep,Phase.seated,Phase.alive] at hy
    refine ⟨fun y => ?_,fun {h p} hp => ?_,hi.alone,fun p hp => ?_,fun y hy => ?_⟩
    · by_cases hy : y = x
      · subst hy
        simpa using hstate
      · simpa [hy] using hi.state y
    · have hseated := hi.seated hp
      rw [hsame p (fun hsleep => by rw [hsleep] at hseated; cases hseated)]
      exact hseated
    · rw [hback p (Or.inl hp)] at hp
      exact hi.placed p hp
    · rw [hback y (Or.inr hy)] at hy
      exact hi.resting y hy
  | countRun p ha hthread =>
    exact hi.setDuty (fun y => w.1.modify_field Proc.state p y rfl) (ha.1.trans hthread) _
  | countWait p x rest ha hthread =>
    exact hi.setDuty (fun y => w.1.modify_field Proc.state x y rfl) (ha.1.trans hthread) _
  | tickTimer p ha hthread =>
    exact hi.setDuty (s := { w.1 with ticks := w.1.ticks + 1 }) (fun _ => rfl)
      (ha.1.trans hthread) _
  | enterUser p e ha hthread => exact hi.setDuty (fun _ => rfl) (ha.1.trans hthread) _
  | enterTimer p ha hthread => exact hi.setDuty (fun _ => rfl) (ha.1.trans hthread) _
  | _ => exact ⟨hi.state,hi.seated,hi.alone,hi.placed,hi.resting⟩

/-- The process of the hart runs in the kernel or in user mode, or the hart schedules. -/
structure Home (c : Option Slot) (h : Fin n) (w : World n) : Prop where
  seat : w.2.seat h = c
  cpu : w.1.cpu h = c
  running : ∀ p, c = some p → w.2.phase p = .running

theorem Deed.leaves_running {ticks : BitVec 32} {x : Slot} {ph : Phase} {q q' : Proc}
    (hd : Deed policy a ticks x .running q ph q') : ph = .running ∨ a.thread = some x := by
  cases hd with
  | touch => exact Or.inl rfl
  | yield _ hthread => exact Or.inr hthread
  | sleep _ hthread => exact Or.inr hthread
  | leave _ hthread => exact Or.inr hthread
  | choose _ _ _ hstate => cases hstate
  | start => exact Or.inl rfl

/-- A running process goes on running unless it moves itself, on its own hart. -/
theorem Move.running (hm : Move policy a tr held w w') {p : Slot} (hp : w.2.phase p = .running) :
    w'.2.phase p = .running ∨ a.thread = some p ∧ w.2.seat a.processor = some p := by
  cases hm with
  | deed x f ph ha _ hd _ _ =>
    by_cases hpx : p = x
    · subst hpx
      rw [hp] at hd
      rcases hd.leaves_running with rfl | hthread
      · exact Or.inl (by simp)
      · exact Or.inr ⟨hthread,ha.1.trans hthread⟩
    · exact Or.inl (by simpa [hpx] using hp)
  | die q f _ _ _ hleave _ _ _ =>
    have hpq : p ≠ q := by
      rintro rfl
      rw [hp] at hleave
      cases hleave
    exact Or.inl (by simpa [hpq] using hp)
  | wakeTicks x ph _ _ _ hph _ =>
    by_cases hpx : p = x
    · subst hpx
      rcases hph with rfl | ⟨_,hsleep,_⟩
      · exact Or.inl (by simpa using hp)
      · rw [hp] at hsleep
        cases hsleep
    · exact Or.inl (by simpa [hpx] using hp)
  | _ => exact Or.inl hp

/-- A process only starts on a hart that runs none. -/
theorem Move.starts (hm : Move policy a tr held w w') {x : Slot}
    (hx : (w.2.phase x).seated = false) (hx' : (w'.2.phase x).seated = true) :
    w.2.seat a.processor = none := by
  have hsame : w'.2.phase x ≠ w.2.phase x := fun h => by
    rw [h, hx] at hx'
    cases hx'
  cases hm with
  | deed y f ph ha _ hd _ _ =>
    by_cases hxy : x = y
    · subst hxy
      exact ha.1.trans (hd.starts hx (by simpa using hx'))
    · exact absurd (by simp [hxy]) hsame
  | die y =>
    by_cases hxy : x = y
    · simp [hxy,Phase.seated] at hx'
    · exact absurd (by simp [hxy]) hsame
  | wakeTicks y ph _ _ _ hph _ =>
    by_cases hxy : x = y
    · subst hxy
      rcases hph with rfl | ⟨_,_,rfl⟩
      · exact absurd (by simp) hsame
      · simp [Phase.seated] at hx'
    · exact absurd (by simp [hxy]) hsame
  | _ => exact absurd rfl hsame

/-- In the kernel a trap only acts for a process that has been trapped there. -/
theorem Move.caught (hm : Move policy a none held w w') {p : Slot} (hp : a.thread = some p)
    (hn : a.nested = true) : w.2.trapped p = true := by
  have hmain : a.nested ≠ false := by simp [hn]
  cases hm with
  | deed _ _ _ ha => exact ha.2 p hp hn
  | die _ _ _ _ hn' => exact absurd hn' hmain
  | wakeTicks _ _ ha => exact ha.2 p hp hn
  | countRun _ _ _ hn' => exact absurd hn' hmain
  | countWait _ _ _ _ _ hn' => exact absurd hn' hmain
  | tick ha => exact ha.2 p hp hn
  | tickTimer _ _ _ hn' => exact absurd hn' hmain
  | share _ _ ha => exact ha.2 p hp hn
  | setCpu _ hnone =>
    rw [hp] at hnone
    cases hnone

theorem Move.home (hm : Move policy a tr held w w') (hi : Inv w) {c : Option Slot} {h : Fin n}
    (hh : a.processor ≠ h) (hhome : Home c h w) : Home c h w' := by
  obtain ⟨hseat,hcpu⟩ := hm.elsewhere hh
  refine ⟨hseat.trans hhome.seat,hcpu.trans hhome.cpu,fun p hp => ?_⟩
  rcases hm.running (hhome.running p hp) with hrun | ⟨_,hown⟩
  · exact hrun
  · exact absurd (hi.alone hown (hhome.seat.trans hp)) hh

end Effects

/-! ## The protocol -/

/-- The process is in the kernel with its timer interrupt as given. -/
def Poised (p : Slot) (D : Duty → Bool → Prop) (w : World n) : Prop :=
  (w.2.phase p).alive = true ∧ D (w.2.duty p) (w.1.proc p).killed

/-- The process has no timer interrupt to finish. -/
def rested (dt : Duty) (_ : Bool) : Prop := dt.free = true

/-- The process may leave. -/
def ready (dt : Duty) (killed : Bool) : Prop := dt.free = true ∨ killed = true

def Caught (c : Option Slot) (w : World n) : Prop := ∀ p, c = some p → w.2.trapped p = true

def entryFor : Entry → Option Slot → Bool → Prop
  | .scheduler, c, nested => c = none ∧ nested = false
  | .schedReturn _, c, nested => c = none ∧ nested = false
  | .forkret p, c, nested => c = some p ∧ nested = false
  | .syscall p _, c, nested => c = some p ∧ nested = false
  | .waitLoop p _, c, nested => c = some p ∧ nested = false
  | .pauseLoop p _ _, c, nested => c = some p ∧ nested = false
  | .timer p, c, nested => c = some p ∧ nested = false
  | .fault p, c, nested => c = some p ∧ nested = false
  | .kerneltrap, _, nested => nested = true

def entryPre : Entry → Option Slot → Fin n → World n → Prop
  | .scheduler, c, h, w => Home c h w
  | .schedReturn _, _, h, w => w.2.seat h = none
  | .forkret p, c, h, w => Home c h w ∧ (w.2.duty p).free = true
  | .syscall p _, c, h, w => Home c h w ∧ Poised p rested w
  | .waitLoop p _, c, h, w => Home c h w ∧ Poised p rested w
  | .pauseLoop p _ _, c, h, w => Home c h w ∧ Poised p rested w
  | .timer p, c, h, w => Home c h w ∧ Poised p (fun dt _ => dt = .entered) w
  | .fault p, c, h, w => Home c h w ∧ Poised p rested w
  | .kerneltrap, c, h, w => Home c h w ∧ Caught c w

/-- The protocol of the process table. -/
def life (n : ℕ) (policy : Policy) : Protocol (Fin n) Lock Slot Entry (Data n) (Ghost n) where
  Inv := Inv
  Move := Move policy
  Home := Home
  User c w := ∀ p, c = some p → (w.2.duty p).free = true
  Entry := entryFor
  pre := entryPre
  inv_move hm hi := hm.inv hi
  home_move _ _ hm hi hh hhome := hm.home hi hh hhome
  user_move c hm _ ha hw p hp := by
    rw [hm.duty (ha p hp)]
    exact hw p hp
  home_unique hi hh hh' := hi.alone hh.seat hh'.seat

/-! ### Lasting facts -/

section Facts
variable {policy : Policy} {c : Option Slot} {h : Fin n} {held : List Lock} {p x : Slot}

/-- What others do to a process leaves it alive and killed. -/
theorem Deed.alive {a : Agent (Fin n) Slot} {ticks : BitVec 32} {ph ph' : Phase} {q q' : Proc}
    (hd : Deed policy a ticks x ph q ph' q') (hph : ph.alive = true)
    (ha : a.thread = some x → a.nested = true) :
    ph'.alive = true ∧ (q.killed = true → q'.killed = true) := by
  have hmain : a.thread = some x → a.nested ≠ false := fun ht hn => by
    rw [ha ht] at hn
    cases hn
  cases hd with
  | touch hmild => exact ⟨hph,hmild.killed⟩
  | rouse hmild => exact ⟨rfl,hmild.killed⟩
  | yield hmild => exact ⟨rfl,hmild.killed⟩
  | sleep _ ht hn => exact absurd hn (hmain ht)
  | leave _ ht hn => exact absurd hn (hmain ht)
  | choose hmild => exact ⟨rfl,hmild.killed⟩
  | start hmild => exact ⟨rfl,hmild.killed⟩
  | _ => cases hph

theorem poised_firm {D : Duty → Bool → Prop} (hD : ∀ dt, D dt false → D dt true) :
    (life n policy).Firm (some p) (Poised p D) := by
  rintro a tr held w w' hi ha hm ⟨halive,hduty⟩
  have ha' : a.thread = some p → a.nested = true := ha p rfl
  have hsame := hm.duty ha'
  have hkeep : (w'.2.phase p).alive = true ∧
      ((w.1.proc p).killed = true → (w'.1.proc p).killed = true) := by
    rcases hm.lives hi p with ⟨_,hlives⟩ | ⟨_,_,hph,hq⟩
    · generalize w.2.phase p = ph, w.1.proc p = q, w'.2.phase p = ph', w'.1.proc p = q' at *
      cases hlives with
      | deed hd => exact hd.alive halive ha'
      | die _ ht hn =>
        rw [ha' ht] at hn
        cases hn
      | run ht hn =>
        rw [ha' ht] at hn
        cases hn
      | wait => exact ⟨halive,fun h => h⟩
    · rw [hph, hq]
      exact ⟨halive,fun h => h⟩
  refine ⟨hkeep.1,?_⟩
  rw [hsame]
  cases hold : (w.1.proc p).killed with
  | false =>
    rw [hold] at hduty
    cases (w'.1.proc p).killed with
    | false => exact hduty
    | true => exact hD _ hduty
  | true =>
    rw [hkeep.2 hold]
    rwa [hold] at hduty

theorem duty_firm (S : Duty → Prop) : (life n policy).Firm (some p) (fun w => S (w.2.duty p)) := by
  intro a tr held w w' _ ha hm hw
  show S _
  rwa [hm.duty (ha p rfl)]

theorem making_firm {stage : Stage} :
    (life n policy).Firm (some p) (fun w => w.2.phase x = .making p stage) := by
  intro a tr held w w' hi ha hm hph
  have hmain : a.thread = some p → a.nested ≠ false := fun ht hn => by
    rw [ha p rfl ht] at hn
    cases hn
  rcases hm.lives hi x with ⟨_,hlives⟩ | ⟨_,_,hsame,_⟩
  · rw [hph] at hlives
    generalize w.1.proc x = q, w'.2.phase x = ph', w'.1.proc x = q' at *
    cases hlives with
    | deed hd =>
      cases hd with
      | touch => rfl
      | stamp _ ht hn => exact absurd hn (hmain ht)
      | reset _ ht hn => exact absurd hn (hmain ht)
      | publish _ ht hn => exact absurd hn (hmain ht)
      | discard ht hn => exact absurd hn (hmain ht)
      | choose _ _ _ hstate => cases hstate
      | start _ _ hph => simp at hph
    | wait => rfl
  · exact hsame.trans hph

theorem caught_firm : (life n policy).Firm c (Caught c) :=
  fun _ _ _ _ _ _ _ hm hw p hp => hm.trapped (hw p hp)

theorem phase_steady (hx : .proc x ∈ held) (S : Phase → Prop) :
    (life n policy).Steady c h held (fun w => S (w.2.phase x)) := by
  intro a tr held' w w' hi _ _ hl hm hw
  show S _
  rwa [(hm.unlocked (hl _ hx)).1]

theorem firstRun_steady (hx : .proc x ∈ held) (S : BitVec 32 → Prop) :
    (life n policy).Steady c h held (fun w => S (w.1.proc x).firstRun) := by
  intro a tr held' w w' hi _ _ hl hm hw
  show S _
  rwa [(hm.unlocked (hl _ hx)).2]

theorem ticks_steady (hx : .ticks ∈ held) (t : BitVec 32) :
    (life n policy).Steady c h held (fun w => w.1.ticks = t) := by
  intro a tr held' w w' hi _ _ hl hm hw
  rcases hm.lives hi 0 with ⟨hsame,_⟩ | ⟨_,hlock,_⟩
  · exact hsame.trans hw
  · exact absurd hlock (hl _ hx)

theorem seat_steady (s : Option Slot) :
    (life n policy).Steady c h held (fun w => w.2.seat h = s) :=
  fun _ _ _ _ _ _ hh _ _ hm hw => (hm.elsewhere hh).1.trans hw

end Facts

end CShellXv6.Kernel
