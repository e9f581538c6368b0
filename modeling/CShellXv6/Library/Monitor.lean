import Mathlib.Logic.Function.Basic
import CShellXv6.Library.Transition

/-! # Monitors whose processes sleep on channels

Processes run sections under one lock. A section may wake channels, and it may
end by registering its process on a channel; the process then gives up the lock
and goes to sleep in a later step, unless a section has woken the channel in
between. A process that is killed stops sleeping, and stays registered.
-/
namespace CShellXv6.Monitor
open Transition
variable {D L C I P : Type*}

/-- Whether a process runs, is about to sleep, or sleeps. -/
inductive Stage
  | ready
  | prepared
  | asleep
  deriving DecidableEq

/-- A process: the section it runs next, and the channel it is registered on. -/
structure Thread (L C : Type*) where
  loc : L
  chan : Option C
  stage : Stage

/-- What a section leaves: the data, the next section of its process, the channels it wakes, and the
channel its process waits on. -/
structure Outcome (D L C : Type*) where
  data : D
  next : L
  wakes : List C
  waits : Option C

structure State (D L C P : Type*) where
  data : D
  thread : P → Thread L C

inductive Event (I P : Type*)
  | run (p : P) (i : I)
  | sleep (p : P)
  | kill (p : P)

variable [DecidableEq C]

def Thread.wake (t : Thread L C) (c : C) : Thread L C :=
  if t.chan = some c then
    { t with chan := none, stage := if t.stage = .asleep then .ready else t.stage }
  else t

def Thread.wakeup (t : Thread L C) (cs : List C) : Thread L C := cs.foldl Thread.wake t

/-- The process at the end of its section. -/
def Thread.proceed (t : Thread L C) (next : L) : Option C → Thread L C
  | some c => ⟨next,some c,.prepared⟩
  | none => { t with loc := next }

theorem Thread.wake_loc (t : Thread L C) (c : C) : (t.wake c).loc = t.loc := by
  unfold Thread.wake
  split
  · rfl
  · rfl

@[simp] theorem Thread.wakeup_loc (t : Thread L C) (cs : List C) : (t.wakeup cs).loc = t.loc := by
  induction cs generalizing t with
  | nil => rfl
  | cons c cs ih => exact (ih (t.wake c)).trans (t.wake_loc c)

theorem Thread.wake_cases (t : Thread L C) (c : C) :
    t.wake c = t ∧ t.chan ≠ some c ∨ (t.wake c).chan = none ∧ (t.wake c).stage ≠ .asleep := by
  unfold Thread.wake
  split
  case isTrue h =>
    apply Or.inr
    dsimp only
    split
    case isTrue => exact ⟨rfl,Stage.noConfusion⟩
    case isFalse hs => exact ⟨rfl,hs⟩
  case isFalse h => exact .inl ⟨rfl,h⟩

/-- A process that no channel woke is as it was, and registered on another; a process that one woke
is registered on none and does not sleep. -/
theorem Thread.wakeup_cases (t : Thread L C) (cs : List C) :
    (t.wakeup cs = t ∧ ∀ c ∈ cs, t.chan ≠ some c) ∨
    ((t.wakeup cs).chan = none ∧ (t.wakeup cs).stage ≠ .asleep) := by
  induction cs generalizing t with
  | nil => exact .inl ⟨rfl,fun c hc => absurd hc List.not_mem_nil⟩
  | cons c cs ih =>
    rcases t.wake_cases c with ⟨hsame,hc⟩ | ⟨hchan,hstage⟩
    · rw [Thread.wakeup, List.foldl_cons, hsame]
      exact (ih t).imp_left fun h => ⟨h.1,List.forall_mem_cons.mpr ⟨hc,h.2⟩⟩
    · apply Or.inr
      rcases ih (t.wake c) with ⟨hrest,_⟩ | hrest
      · rw [Thread.wakeup, List.foldl_cons]
        rw [Thread.wakeup] at hrest
        rw [hrest]
        exact ⟨hchan,hstage⟩
      · exact hrest

theorem Thread.wakeup_ready {t : Thread L C} (h : t.stage = .ready) (cs : List C) :
    (t.wakeup cs).stage = .ready := by
  induction cs generalizing t with
  | nil => exact h
  | cons c cs ih =>
    apply ih
    unfold Thread.wake
    split
    · simp [h]
    · exact h

variable [DecidableEq P]

def State.after (s : State D L C P) (p : P) (o : Outcome D L C) : State D L C P :=
  ⟨o.data,Function.update (fun q => (s.thread q).wakeup o.wakes) p
    (((s.thread p).wakeup o.wakes).proceed o.next o.waits)⟩

def step (sec : P → L → I → D → Option (Outcome D L C)) (s : State D L C P) :
    Event I P → Option (State D L C P)
  | .run p i =>
    if (s.thread p).stage = .ready then
      (sec p (s.thread p).loc i s.data).map (s.after p)
    else none
  | .sleep p =>
    if (s.thread p).stage = .prepared then
      some { s with thread := Function.update s.thread p { s.thread p with
        stage := if (s.thread p).chan.isSome then .asleep else .ready } }
    else none
  | .kill p =>
    some { s with thread := Function.update s.thread p { s.thread p with
      stage := if (s.thread p).stage = .asleep then .ready else (s.thread p).stage } }

section Steps
variable {sec : P → L → I → D → Option (Outcome D L C)} {s t : State D L C P} {e : Event I P}

theorem State.after_self (s : State D L C P) (p : P) (o : Outcome D L C) :
    (s.after p o).thread p = ((s.thread p).wakeup o.wakes).proceed o.next o.waits := by
  simp only [State.after, Function.update_self]

theorem State.after_other (s : State D L C P) {p q : P} (o : Outcome D L C) (h : q ≠ p) :
    (s.after p o).thread q = (s.thread q).wakeup o.wakes := by
  simp only [State.after, Function.update_of_ne h]

theorem State.after_loc (s : State D L C P) (p q : P) (o : Outcome D L C) :
    ((s.after p o).thread q).loc = if q = p then o.next else (s.thread q).loc := by
  split
  case isTrue h =>
    rw [h, s.after_self]
    cases o.waits with
    | none => rfl
    | some c => rfl
  case isFalse h => rw [s.after_other o h, Thread.wakeup_loc]

/-- A process that at most goes to sleep where it is registered, or stops sleeping. -/
structure Thread.Stays (t u : Thread L C) : Prop where
  loc : u.loc = t.loc
  chan : u.chan = t.chan
  ready : u.stage ≠ .ready → t.stage ≠ .ready
  asleep : u.stage = .asleep → t.stage = .asleep ∨ t.chan ≠ none

omit [DecidableEq C] [DecidableEq P] in
theorem Thread.Stays.refl (t : Thread L C) : t.Stays t := ⟨rfl,rfl,id,.inl⟩

/-- A step is a section, or all data and places stay. -/
theorem step_cases (h : step sec s e = some t) :
    (∃ p i o, e = .run p i ∧ (s.thread p).stage = .ready ∧
      sec p (s.thread p).loc i s.data = some o ∧ t = s.after p o) ∨
    ((∃ p, e = .sleep p ∨ e = .kill p) ∧ t.data = s.data ∧
      ∀ q, (s.thread q).Stays (t.thread q)) := by
  cases e with
  | run p i =>
    obtain ⟨hready,hmap⟩ := Option.ite_none_right_eq_some.mp h
    obtain ⟨o,ho,rfl⟩ := Option.map_eq_some_iff.mp hmap
    exact .inl ⟨p,i,o,rfl,hready,ho,rfl⟩
  | sleep p =>
    obtain ⟨hprep,hsome⟩ := Option.ite_none_right_eq_some.mp h
    obtain rfl := Option.some.inj hsome
    refine .inr ⟨⟨p,.inl rfl⟩,rfl,fun q => ?_⟩
    by_cases hq : q = p
    · subst hq
      simp only [Function.update_self]
      refine ⟨rfl,rfl,fun _ hr => ?_,fun hs => .inr ?_⟩
      · rw [hprep] at hr
        cases hr
      · dsimp only at hs
        split at hs
        case isTrue hc => exact Option.isSome_iff_ne_none.mp hc
        case isFalse => cases hs
    · simp only [Function.update_of_ne hq]
      exact .refl _
  | kill p =>
    obtain rfl := Option.some.inj h
    refine .inr ⟨⟨p,.inr rfl⟩,rfl,fun q => ?_⟩
    by_cases hq : q = p
    · subst hq
      simp only [Function.update_self]
      split
      case isTrue => exact ⟨rfl,rfl,fun hs => absurd rfl hs,fun hs => by cases hs⟩
      case isFalse => exact .refl _
    · simp only [Function.update_of_ne hq]
      exact .refl _

/-- Every process that waits on a channel is blocked there. -/
structure Waiting (Blocked : L → C → D → Prop) (s : State D L C P) : Prop where
  registered : ∀ p, (s.thread p).stage = .asleep → (s.thread p).chan ≠ none
  blocked : ∀ p c, (s.thread p).stage ≠ .ready → (s.thread p).chan = some c →
    Blocked (s.thread p).loc c s.data

variable {Blocked : L → C → D → Prop} {p : P} {o : Outcome D L C}

/-- A section keeps the rule when its process waits only if blocked, and it wakes the channels whose
processes need not be blocked any more. -/
theorem Waiting.after (h : Waiting Blocked s) (hready : (s.thread p).stage = .ready)
    (hwaits : ∀ c, o.waits = some c → Blocked o.next c o.data)
    (hkeeps : ∀ l c, Blocked l c s.data → c ∉ o.wakes → Blocked l c o.data) :
    Waiting Blocked (s.after p o) := by
  have hself := s.after_self p o
  have hother := fun q hq => s.after_other (q := q) (p := p) o hq
  -- the process itself is ready, or has just registered
  have hown : ((s.after p o).thread p).stage = .ready ∧ o.waits = none ∨
      ∃ c, o.waits = some c ∧ (s.after p o).thread p = ⟨o.next,some c,.prepared⟩ := by
    rw [hself]
    cases hw : o.waits with
    | some c => exact .inr ⟨c,rfl,rfl⟩
    | none =>
      refine .inl ⟨?_,rfl⟩
      exact Thread.wakeup_ready hready o.wakes
  constructor
  case registered =>
    intro q hq
    by_cases hqp : q = p
    · subst hqp
      rcases hown with ⟨hr,_⟩ | ⟨c,_,hc⟩
      · rw [hr] at hq
        cases hq
      · rw [hc]
        exact Option.some_ne_none c
    · rw [hother q hqp] at hq ⊢
      rcases (s.thread q).wakeup_cases o.wakes with ⟨hsame,_⟩ | ⟨_,hstage⟩
      · rw [hsame] at hq ⊢
        exact h.registered q hq
      · exact absurd hq hstage
  case blocked =>
    intro q c hstage hchan
    by_cases hqp : q = p
    · subst hqp
      rcases hown with ⟨hr,_⟩ | ⟨c',hw,hc⟩
      · exact absurd hr hstage
      · rw [hc] at hchan ⊢
        obtain rfl := Option.some.inj hchan
        exact hwaits _ hw
    · rw [hother q hqp] at hstage hchan ⊢
      rcases (s.thread q).wakeup_cases o.wakes with ⟨hsame,hnot⟩ | ⟨hnone,_⟩
      · rw [hsame] at hstage hchan ⊢
        exact hkeeps _ c (h.blocked q c hstage hchan) fun hc => hnot c hc hchan
      · rw [hnone] at hchan
        cases hchan

omit [DecidableEq C] [DecidableEq P] in
theorem Waiting.quiet (h : Waiting Blocked s) (hdata : t.data = s.data)
    (hthread : ∀ q, (s.thread q).Stays (t.thread q)) : Waiting Blocked t := by
  constructor
  case registered =>
    intro q hq
    rw [(hthread q).chan]
    exact ((hthread q).asleep hq).elim (h.registered q) id
  case blocked =>
    intro q c hstage hc
    rw [(hthread q).loc, hdata]
    exact h.blocked q c ((hthread q).ready hstage) ((hthread q).chan ▸ hc)

/-- Over a whole run, a process sleeps only while it is blocked. -/
theorem Waiting.run {guard : State D L C P → Event I P → Prop} (hr : Runs (step sec) guard s t)
    (hs : Waiting Blocked s)
    (hwaits : ∀ u p i o c, Runs (step sec) guard s u → guard u (.run p i) →
      sec p (u.thread p).loc i u.data = some o → o.waits = some c → Blocked o.next c o.data)
    (hkeeps : ∀ u p i o l c, Runs (step sec) guard s u → guard u (.run p i) →
      sec p (u.thread p).loc i u.data = some o → Blocked l c u.data → c ∉ o.wakes →
      Blocked l c o.data) : Waiting Blocked t := by
  induction hr with
  | refl => exact hs
  | tail hr hg he ih =>
    rcases step_cases he with ⟨p,i,o,rfl,hready,ho,rfl⟩ | ⟨_,hdata,hthread⟩
    · exact ih.after hready (fun c => hwaits _ p i o c hr hg ho)
        fun l c => hkeeps _ p i o l c hr hg ho
    · exact ih.quiet hdata hthread

omit [DecidableEq C] [DecidableEq P] in
theorem Waiting.asleep (h : Waiting Blocked s) (hp : (s.thread p).stage = .asleep) :
    ∃ c, Blocked (s.thread p).loc c s.data := by
  obtain ⟨c,hc⟩ := Option.ne_none_iff_exists'.mp (h.registered p hp)
  exact ⟨c,h.blocked p c (by rw [hp]; exact Stage.noConfusion) hc⟩

end Steps

end CShellXv6.Monitor
