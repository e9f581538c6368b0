import CShellXv6.Library.Monitor

/-! # Sleep locks

A process that finds the lock taken sleeps on the lock's address, and the one
that gives it up wakes all that sleep there.
-/
namespace CShellXv6.Sleeplocks
open Monitor Transition
variable {P : Type} [DecidableEq P]

structure Sleeplock (P : Type) where
  locked : Bool
  pid : Option P

/-- Where a process is: in acquiresleep, between acquiresleep and releasesleep, or elsewhere. -/
inductive Loc
  | out
  | acquiring
  | holding
  deriving DecidableEq

inductive Input
  | acquiresleep
  | go
  | releasesleep

def initsleeplock : Sleeplock P := ⟨false,none⟩

/-- The loop of acquiresleep, up to its end or to the next sleep. -/
def acquiresleep (p : P) (lk : Sleeplock P) : Outcome (Sleeplock P) Loc Unit :=
  if lk.locked = true then ⟨lk,.acquiring,[],some ()⟩ else ⟨⟨true,some p⟩,.holding,[],none⟩

def releasesleep : Outcome (Sleeplock P) Loc Unit := ⟨⟨false,none⟩,.out,[()],none⟩

def holdingsleep (p : P) (lk : Sleeplock P) : Bool := lk.locked && decide (lk.pid = some p)

def sections (p : P) (l : Loc) (i : Input) (lk : Sleeplock P) :
    Option (Outcome (Sleeplock P) Loc Unit) :=
  match l, i with
  | .out, .acquiresleep => some ⟨lk,.acquiring,[],none⟩
  | .acquiring, .go => some (acquiresleep p lk)
  | .holding, .releasesleep => some releasesleep
  | _, _ => none

def start : State (Sleeplock P) Loc Unit P := ⟨initsleeplock,fun _ => ⟨.out,none,.ready⟩⟩

variable {s t : State (Sleeplock P) Loc Unit P} {p : P} {o : Outcome (Sleeplock P) Loc Unit}

omit [DecidableEq P] in
theorem sections_cases {l : Loc} {i : Input} {lk : Sleeplock P} (h : sections p l i lk = some o) :
    (l = .out ∧ o = ⟨lk,.acquiring,[],none⟩) ∨
    (l = .acquiring ∧ lk.locked = true ∧ o = ⟨lk,.acquiring,[],some ()⟩) ∨
    (l = .acquiring ∧ lk.locked = false ∧ o = ⟨⟨true,some p⟩,.holding,[],none⟩) ∨
    (l = .holding ∧ o = ⟨⟨false,none⟩,.out,[()],none⟩) := by
  cases l with
  | out =>
    cases i with
    | acquiresleep => exact .inl ⟨rfl,(Option.some.inj h).symm⟩
    | _ => cases h
  | acquiring =>
    cases i with
    | go =>
      obtain rfl := Option.some.inj h
      unfold acquiresleep
      split
      case isTrue hl => exact .inr (.inl ⟨rfl,hl,rfl⟩)
      case isFalse hl => exact .inr (.inr (.inl ⟨rfl,Bool.eq_false_iff.mpr hl,rfl⟩))
    | _ => cases h
  | holding =>
    cases i with
    | releasesleep => exact .inr (.inr (.inr ⟨rfl,(Option.some.inj h).symm⟩))
    | _ => cases h

/-- The lock names the process that holds it. -/
structure Held (s : State (Sleeplock P) Loc Unit P) : Prop where
  locked : s.data.locked = s.data.pid.isSome
  holder : ∀ p, (s.thread p).loc = .holding ↔ s.data.pid = some p

theorem Held.step {e : Event Input P} (h : Held s) (he : Monitor.step sections s e = some t) :
    Held t := by
  rcases step_cases he with ⟨p,i,o,rfl,_,ho,rfl⟩ | ⟨_,hdata,hthread⟩
  · have hloc : ∀ q, q ≠ p → ((s.after p o).thread q).loc = (s.thread q).loc := fun q hq => by
      rw [s.after_loc, if_neg hq]
    have hself : ((s.after p o).thread p).loc = o.next := by rw [s.after_loc, if_pos rfl]
    have hp := h.holder p
    rcases sections_cases ho with ⟨hl,rfl⟩ | ⟨hl,_,rfl⟩ | ⟨hl,hfree,rfl⟩ | ⟨hl,rfl⟩
    -- the process moves to acquiresleep, or stays there
    iterate 2
      refine ⟨h.locked,fun q => ?_⟩
      by_cases hq : q = p
      · subst hq
        rw [hself]
        rw [hl] at hp
        exact iff_of_false Loc.noConfusion fun e => Loc.noConfusion (hp.mpr e)
      · rw [hloc q hq]
        exact h.holder q
    · have hnone : s.data.pid = none := by
        rw [h.locked] at hfree
        exact Option.not_isSome_iff_eq_none.mp (Bool.eq_false_iff.mp hfree)
      refine ⟨rfl,fun q => ?_⟩
      by_cases hq : q = p
      · subst hq
        exact iff_of_true hself rfl
      · rw [hloc q hq, h.holder q, hnone]
        exact iff_of_false (Option.some_ne_none q).symm fun e => hq (Option.some.inj e).symm
    · refine ⟨rfl,fun q => ?_⟩
      by_cases hq : q = p
      · subst hq
        rw [hself]
        exact iff_of_false Loc.noConfusion (Option.some_ne_none q).symm
      · rw [hloc q hq, h.holder q, hp.mp hl]
        exact iff_of_false (fun e => hq (Option.some.inj e).symm) (Option.some_ne_none q).symm
  · refine ⟨hdata ▸ h.locked,fun q => ?_⟩
    rw [hdata, (hthread q).loc]
    exact h.holder q

theorem held_of_reachable (h : Reachable (Monitor.step sections) start s) : Held s :=
  h.invariant ⟨rfl,fun q => iff_of_false Loc.noConfusion (Option.some_ne_none q).symm⟩
    fun _ _ _ hs _ he => hs.step he

def Blocked : Loc → Unit → Sleeplock P → Prop
  | .acquiring, _, lk => lk.locked = true
  | _, _, _ => False

/-- At most one process is between acquiresleep and releasesleep, holdingsleep tells which, and a
process sleeps in acquiresleep only while another is there. -/
theorem sleeplock_exclusive (h : Reachable (Monitor.step sections) start s) (p : P) :
    (holdingsleep p s.data = true ↔ (s.thread p).loc = .holding) ∧
    (∀ q, (s.thread p).loc = .holding → (s.thread q).loc = .holding → p = q) ∧
    ((s.thread p).stage = .asleep → ∃ q, q ≠ p ∧ (s.thread q).loc = .holding) := by
  have hheld := held_of_reachable h
  refine ⟨?_,fun q hp hq => ?_,fun hp => ?_⟩
  · rw [hheld.holder, holdingsleep, Bool.and_eq_true, decide_eq_true_iff, hheld.locked]
    exact ⟨And.right,fun e => ⟨by rw [e]; rfl,e⟩⟩
  · have he := ((hheld.holder p).mp hp).symm.trans ((hheld.holder q).mp hq)
    exact Option.some.inj he
  · have hwait : Waiting Blocked s := by
      refine Waiting.run h ⟨fun q hq => (by cases hq),fun q c hq => absurd rfl hq⟩ ?_ ?_
      · intro u q i o c _ _ ho hw
        rcases sections_cases ho with ⟨_,rfl⟩ | ⟨_,hl,rfl⟩ | ⟨_,_,rfl⟩ | ⟨_,rfl⟩
        · cases hw
        · exact hl
        · cases hw
        · cases hw
      · intro u q i o l c _ _ ho hb hc
        rcases sections_cases ho with ⟨_,rfl⟩ | ⟨_,_,rfl⟩ | ⟨_,hfree,rfl⟩ | ⟨_,rfl⟩
        · exact hb
        · exact hb
        · cases l with
          | acquiring => rfl
          | _ => exact hb
        · exact absurd (List.mem_singleton.mpr rfl) hc
    obtain ⟨c,hb⟩ := hwait.asleep hp
    cases hl : (s.thread p).loc with
    | acquiring =>
      rw [hl] at hb
      have hsome : s.data.pid.isSome = true := hheld.locked ▸ hb
      obtain ⟨q,hq⟩ := Option.isSome_iff_exists.mp hsome
      have hhold := (hheld.holder q).mpr hq
      refine ⟨q,fun e => ?_,hhold⟩
      rw [e, hl] at hhold
      cases hhold
    | out =>
      rw [hl] at hb
      exact hb.elim
    | holding =>
      rw [hl] at hb
      exact hb.elim

/-- Two processes take the lock one after the other, and the second sleeps. -/
theorem sleeplock_exclusive_two : ∃ s : State (Sleeplock Bool) Loc Unit Bool,
    (s.thread true).stage = .asleep ∧ ∃ q, q ≠ true ∧ (s.thread q).loc = .holding := by
  have hrun : (execute (Monitor.step sections) (start : State (Sleeplock Bool) Loc Unit Bool)
      [.run false .acquiresleep, .run false .go, .run true .acquiresleep, .run true .go,
        .sleep true]).map (fun s => (s.thread true).stage) = some .asleep := by decide
  obtain ⟨s,hs,hstage⟩ := Option.map_eq_some_iff.mp hrun
  have hr := Runs.of_events (fun _ _ => trivial) hs
  exact ⟨s,hstage,(sleeplock_exclusive hr true).2.2 hstage⟩

end CShellXv6.Sleeplocks
