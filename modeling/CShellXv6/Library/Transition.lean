import Mathlib.Logic.Relation
import Mathlib.Data.Nat.Notation

/-! # Runs of executable transition systems

A system is a partial step function on states and events. A run is guarded by
a predicate on the state before each step and the event taken there, so that
one induction serves both the unrestricted runs and the runs that avoid a
given branch.
-/
namespace CShellXv6.Transition
variable {S E : Type*}

/-- Runs all of whose steps meet the guard. -/
inductive Runs (step : S → E → Option S) (guard : S → E → Prop) : S → S → Prop
  | refl (s : S) : Runs step guard s s
  | tail {s t u : S} {e : E} : Runs step guard s t → guard t e → step t e = some u →
      Runs step guard s u

/-- States met on some unrestricted run. -/
abbrev Reachable (step : S → E → Option S) : S → S → Prop := Runs step (fun _ _ => True)

/-- Executing a list of events, stopping at the first that is not enabled. -/
def execute (step : S → E → Option S) : S → List E → Option S
  | s, [] => some s
  | s, e :: rest => (step s e).bind (fun t => execute step t rest)

variable {step : S → E → Option S} {guard : S → E → Prop}

theorem Runs.invariant {I : S → Prop} {s t : S} (hr : Runs step guard s t) (hs : I s)
    (hstep : ∀ s e t, I s → guard s e → step s e = some t → I t) : I t := by
  induction hr with
  | refl => exact hs
  | tail _ hg he ih => exact hstep _ _ _ ih hg he

theorem Runs.mono {guard' : S → E → Prop} {s t : S} (hr : Runs step guard s t)
    (hg : ∀ s e, guard s e → guard' s e) : Runs step guard' s t := by
  induction hr with
  | refl => exact .refl _
  | tail _ hguard he ih => exact .tail ih (hg _ _ hguard) he

theorem Runs.single {s t : S} {e : E} (hg : guard s e) (he : step s e = some t) :
    Runs step guard s t := .tail (.refl s) hg he

theorem Runs.trans {s t u : S} (h : Runs step guard s t) (k : Runs step guard t u) :
    Runs step guard s u := by
  induction k with
  | refl => exact h
  | tail _ hg he ih => exact .tail ih hg he

theorem execute_append (s : S) (es more : List E) :
    execute step s (es ++ more) = (execute step s es).bind (fun t => execute step t more) := by
  induction es generalizing s with
  | nil => rfl
  | cons e rest ih =>
    rw [List.cons_append, execute, execute, Option.bind_assoc]
    exact congrArg (Option.bind (step s e)) (funext ih)

/-- Events that all meet a condition make a run whose steps meet it. -/
theorem Runs.of_events {P : E → Prop} {s t : S} {es : List E} (hes : ∀ e ∈ es, P e)
    (h : execute step s es = some t) : Runs step (fun _ e => P e) s t := by
  induction es generalizing s with
  | nil =>
    cases h
    exact .refl _
  | cons e rest ih =>
    obtain ⟨u,hu,hrest⟩ := Option.bind_eq_some_iff.mp h
    obtain ⟨he,hlater⟩ := List.forall_mem_cons.mp hes
    exact (Runs.single he hu).trans (ih hlater hrest)

/-- The system without the steps that fail the guard. -/
def restrict (step : S → E → Option S) (guard : S → E → Prop) [∀ s e, Decidable (guard s e)]
    (s : S) (e : E) : Option S := if guard s e then step s e else none

theorem Runs.of_execute [∀ s e, Decidable (guard s e)] {s t : S} (es : List E)
    (h : execute (restrict step guard) s es = some t) : Runs step guard s t := by
  induction es generalizing s with
  | nil =>
    cases h
    exact .refl _
  | cons e rest ih =>
    obtain ⟨u,hu,hrest⟩ := Option.bind_eq_some_iff.mp h
    obtain ⟨hg,he⟩ := Option.ite_none_right_eq_some.mp hu
    exact (Runs.single hg he).trans (ih hrest)

/-- The system beside an observer that is told of each step. -/
def watched {O : Type*} (step : S → E → Option S) (note : S → E → S → O → O) (x : S × O) (e : E) :
    Option (S × O) := (step x.1 e).map fun t => (t,note x.1 e t x.2)

/-- The run of the system without its observer. -/
theorem Runs.of_watched {O : Type*} {note : S → E → S → O → O} {guard' : S × O → E → Prop}
    {x y : S × O} (hr : Runs (watched step note) guard' x y)
    (hg : ∀ z e, guard' z e → guard z.1 e) : Runs step guard x.1 y.1 := by
  induction hr with
  | refl => exact .refl _
  | tail _ hguard hstep ih =>
    obtain ⟨t,ht,rfl⟩ := Option.map_eq_some_iff.mp hstep
    exact .tail ih (hg _ _ hguard) ht

/-- Every run can be watched. -/
theorem Runs.watch {O : Type*} (note : S → E → S → O → O) {s t : S} (hr : Runs step guard s t)
    (o : O) : ∃ o', Runs (watched step note) (fun x e => guard x.1 e) (s,o) (t,o') := by
  induction hr with
  | refl => exact ⟨o,.refl _⟩
  | tail _ hg he ih =>
    obtain ⟨o',ho'⟩ := ih
    exact ⟨_,.tail ho' hg (by rw [watched, he]; rfl)⟩

/-- A goal is reached when each state short of it can step closer to it. -/
theorem Reachable.of_measure {P Q : S → Prop} (μ : S → ℕ)
    (h : ∀ s, P s → Q s ∨ ∃ e t, step s e = some t ∧ P t ∧ μ t < μ s) {s : S} (hs : P s) :
    ∃ t, Reachable step s t ∧ P t ∧ Q t := by
  induction hn : μ s using Nat.strongRecOn generalizing s with
  | ind n ih =>
    rcases h s hs with hq | ⟨e,t,he,ht,hlt⟩
    · exact ⟨s,.refl s,hs,hq⟩
    · obtain ⟨u,hu,hpu,hqu⟩ := ih (μ t) (by omega) ht rfl
      exact ⟨u,(Runs.single trivial he).trans hu,hpu,hqu⟩

end CShellXv6.Transition
