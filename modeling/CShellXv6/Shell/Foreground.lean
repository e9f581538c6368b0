import CShellXv6.Library.Transition
import CShellXv6.Shell.Process
import Mathlib.Data.List.Basic

/-! # Waiting for a foreground command

`execute_cmd_internal` waits for its one child and `execute_pipeline_fg` for
each stage in turn, both with a blocking `waitpid` that is not repeated. The
SIGCHLD handler is installed without `SA_RESTART`, so a signal for another
child ends the wait with `EINTR` and the status variable keeps what it held.
-/
namespace CShellXv6.Foreground
open Transition Process

/-- What the test `WIFSTOPPED(status)` after one `waitpid` looked at: the status
returned for the awaited process, one returned for another process by
`waitpid(-1)`, or whatever the variable held before. -/
inductive Decision
  | returned (report : Report)
  | foreign (report : Report)
  | untouched (garbage : Bool)
  deriving DecidableEq, Repr

/-- The shell in the wait loop. A stage whose fork failed has no child and is
awaited as `pid` -1. The number of decisions is the loop index. -/
structure State where
  stages : List (Option Child)
  background : List Child
  sigchld : Bool
  blocked : Bool
  decisions : List Decision
  deriving DecidableEq, Repr

inductive Event
  | stage (index : ℕ) (change : Change)
  | background (index : ℕ) (change : Change)
  | deliver (garbage : Bool)
  | wait (garbage : Bool)
  | waitAnyStage (index : ℕ)
  | waitAnyBackground (index : ℕ)
  deriving DecidableEq, Repr

/-- The flags of the foreground `waitpid`. -/
def flags : WaitFlags := ⟨true,false⟩

def State.conclude (s : State) (d : Decision) : State :=
  { s with blocked := false, decisions := s.decisions ++ [d] }

def reportable (child : Child) : Bool := (child.report flags).isSome

/-- Whether `waitpid(-1)` has something to return. -/
def State.anyReady (s : State) : Bool :=
  (s.stages.filterMap id ++ s.background).any reportable ||
    (s.stages.filterMap id ++ s.background).all (· == .reaped)

/-- Whether the current `waitpid` returns without blocking. -/
def State.ready (s : State) : Bool :=
  match s.stages[s.decisions.length]? with
  | some (some child) => reportable child || child == .reaped
  | some none => s.anyReady
  | none => true

/-- A child changes its state and the kernel raises SIGCHLD. Only exits and
stops of the stages are considered. -/
def stageChange (s : State) (index : ℕ) (change : Change) : Option State :=
  match s.stages[index]? with
  | some (some child) =>
    if change = .continue ∨ child.change change = child then none
    else some { s with
      stages := s.stages.set index (some (child.change change))
      sigchld := true }
  | _ => none

def backgroundChange (s : State) (index : ℕ) (change : Change) : Option State :=
  match s.background[index]? with
  | some child =>
    if child.change change = child then none
    else some { s with background := s.background.set index (child.change change), sigchld := true }
  | none => none

/-- The handler runs. A `waitpid` that is blocked with nothing to return ends
with `EINTR`. -/
def deliver (s : State) (garbage : Bool) : Option State :=
  if s.sigchld then
    if s.blocked ∧ s.ready = false then
      some (State.conclude { s with sigchld := false } (.untouched garbage))
    else some { s with sigchld := false }
  else none

/-- One `waitpid(pids[i], &status, WUNTRACED)` that returns, or blocks. A signal
that is already pending is handled before the call can block. -/
def wait (s : State) (garbage : Bool) : Option State :=
  match s.stages[s.decisions.length]? with
  | some (some .reaped) => some (s.conclude (.untouched garbage))
  | some (some child) =>
    match child.report flags with
    | some (r,child') =>
      some (State.conclude { s with stages := s.stages.set s.decisions.length (some child') }
        (.returned r))
    | none => if s.blocked ∨ s.sigchld then none else some { s with blocked := true }
  | some none =>
    if (s.stages.filterMap id ++ s.background).all (· == .reaped) then
      some (s.conclude (.untouched garbage))
    else if s.anyReady ∨ s.blocked ∨ s.sigchld then none
    else some { s with blocked := true }
  | none => none

/-- `waitpid(-1)` after a failed fork collects from any child. -/
def waitAnyStage (s : State) (index : ℕ) : Option State :=
  match s.stages[s.decisions.length]?, s.stages[index]? with
  | some none, some (some child) =>
    (child.report flags).map fun p =>
      State.conclude { s with stages := s.stages.set index (some p.2) } (.foreign p.1)
  | _, _ => none

def waitAnyBackground (s : State) (index : ℕ) : Option State :=
  match s.stages[s.decisions.length]?, s.background[index]? with
  | some none, some child =>
    (child.report flags).map fun p =>
      State.conclude { s with background := s.background.set index p.2 } (.foreign p.1)
  | _, _ => none

def step (s : State) : Event → Option State
  | .stage index change => stageChange s index change
  | .background index change => backgroundChange s index change
  | .deliver garbage => deliver s garbage
  | .wait garbage => wait s garbage
  | .waitAnyStage index => waitAnyStage s index
  | .waitAnyBackground index => waitAnyBackground s index

/-- The loop begins after all forks. A single command is a loop of one stage. -/
def start (forks : List Bool) (background : List Child) (sigchld : Bool) : State where
  stages := forks.map (fun ok => if ok then some (.running false) else none)
  background := background
  sigchld := sigchld
  blocked := false
  decisions := []

def State.returned (s : State) : Prop := s.decisions.length = s.stages.length

/-- The handler does not run while the shell is blocked with nothing to
collect. -/
def undisturbed (s : State) : Event → Bool
  | .deliver _ => !s.blocked || s.ready
  | _ => true

/-- Runs in which no blocking wait is interrupted. -/
abbrev UndisturbedRuns : State → State → Prop := Runs step (fun s e => undisturbed s e = true)

/-! ## What a step can do -/

/-- A halted stage stays halted. -/
def KeepsHalted (before after : List (Option Child)) : Prop :=
  ∀ (j : ℕ) (child' : Child), after[j]? = some (some child') → ∃ child : Child,
    before[j]? = some (some child) ∧ (child.halted = true → child'.halted = true)

theorem KeepsHalted.refl (stages : List (Option Child)) : KeepsHalted stages stages :=
  fun _ child' hj => ⟨child',hj,id⟩

theorem KeepsHalted.set {stages : List (Option Child)} {i : ℕ} {c c' : Child}
    (hi : stages[i]? = some (some c)) (hc : c.halted = true → c'.halted = true) :
    KeepsHalted stages (stages.set i (some c')) := by
  intro j child' hj
  rw [List.getElem?_set] at hj
  split at hj
  · next heq =>
    subst heq
    split at hj
    · cases hj
      exact ⟨c,hi,hc⟩
    · cases hj
  · exact ⟨child',hj,id⟩

/-- A decision is taken about a stage that has halted. -/
structure Effect (s t : State) : Prop where
  stages : KeepsHalted s.stages t.stages
  decisions : t.decisions = s.decisions ∨ ∃ d, t.decisions = s.decisions ++ [d] ∧
    ∀ child : Child, t.stages[s.decisions.length]? = some (some child) → child.halted = true

theorem report_keeps_halted {child child' : Child} {r : Report}
    (h : child.report flags = some (r,child')) : child'.halted = true :=
  Child.report_halted rfl h

theorem stageChange_cases {s t : State} {index : ℕ} {change : Change}
    (h : stageChange s index change = some t) : ∃ child, s.stages[index]? = some (some child) ∧
      change ≠ .continue ∧ t.decisions = s.decisions ∧
      t.stages = s.stages.set index (some (child.change change)) := by
  unfold stageChange at h
  split at h
  · next child hchild =>
    split at h
    · cases h
    · next hc =>
      cases h
      exact ⟨child,hchild,fun heq => hc (Or.inl heq),rfl,rfl⟩
  · cases h

theorem backgroundChange_cases {s t : State} {index : ℕ} {change : Change}
    (h : backgroundChange s index change = some t) :
    t.stages = s.stages ∧ t.decisions = s.decisions := by
  unfold backgroundChange at h
  split at h
  · split at h
    · cases h
    · cases h
      exact ⟨rfl,rfl⟩
  · cases h

theorem deliver_cases {s t : State} {garbage : Bool} (h : deliver s garbage = some t)
    (hg : s.blocked = false ∨ s.ready = true) : t.stages = s.stages ∧ t.decisions = s.decisions := by
  unfold deliver at h
  split at h
  · split at h
    · next hblocked => rcases hg with hg | hg <;> simp [hg] at hblocked
    · cases h
      exact ⟨rfl,rfl⟩
  · cases h

/-- A `waitpid` finds its child gone, collects from it, starts to block, or was
called with -1 and finds no child. -/
theorem wait_cases {s t : State} {garbage : Bool} (h : wait s garbage = some t) :
    (s.stages[s.decisions.length]? = some (some .reaped) ∧ t.stages = s.stages ∧
        t.decisions = s.decisions ++ [.untouched garbage]) ∨
      (∃ child child' r, s.stages[s.decisions.length]? = some (some child) ∧
        child.report flags = some (r,child') ∧
        t.stages = s.stages.set s.decisions.length (some child') ∧
        t.decisions = s.decisions ++ [.returned r]) ∨
      (t.stages = s.stages ∧ t.decisions = s.decisions) ∨
      (s.stages[s.decisions.length]? = some none ∧ t.stages = s.stages ∧
        t.decisions = s.decisions ++ [.untouched garbage]) := by
  unfold wait at h
  split at h
  · next hreaped =>
    cases h
    exact Or.inl ⟨hreaped,rfl,rfl⟩
  · next child _ hchild =>
    split at h
    · next r child' hr =>
      cases h
      exact Or.inr (Or.inl ⟨child,child',r,hchild,hr,rfl,rfl⟩)
    · split at h
      · cases h
      · cases h
        exact Or.inr (Or.inr (Or.inl ⟨rfl,rfl⟩))
  · next hnone =>
    split at h
    · cases h
      exact Or.inr (Or.inr (Or.inr ⟨hnone,rfl,rfl⟩))
    · split at h
      · cases h
      · cases h
        exact Or.inr (Or.inr (Or.inl ⟨rfl,rfl⟩))
  · cases h

theorem waitAnyStage_cases {s t : State} {index : ℕ} (h : waitAnyStage s index = some t) :
    s.stages[s.decisions.length]? = some none ∧ ∃ child child' r,
      s.stages[index]? = some (some child) ∧ child.report flags = some (r,child') ∧
      t.stages = s.stages.set index (some child') ∧ t.decisions = s.decisions ++ [.foreign r] := by
  unfold waitAnyStage at h
  split at h
  · next child hcur hchild =>
    obtain ⟨⟨r,child'⟩,hr,rfl⟩ := Option.map_eq_some_iff.mp h
    exact ⟨hcur,child,child',r,hchild,hr,rfl,rfl⟩
  · cases h

theorem waitAnyBackground_cases {s t : State} {index : ℕ} (h : waitAnyBackground s index = some t) :
    s.stages[s.decisions.length]? = some none ∧ t.stages = s.stages ∧
      ∃ r, t.decisions = s.decisions ++ [.foreign r] := by
  unfold waitAnyBackground at h
  split at h
  · next child hcur hchild =>
    obtain ⟨⟨r,child'⟩,hr,rfl⟩ := Option.map_eq_some_iff.mp h
    exact ⟨hcur,rfl,r,rfl⟩
  · cases h

theorem step_effect {s t : State} {e : Event} (hg : undisturbed s e = true) (h : step s e = some t) :
    Effect s t := by
  have hsame : t.stages = s.stages → KeepsHalted s.stages t.stages := by
    intro hs
    rw [hs]
    exact KeepsHalted.refl _
  cases e with
  | stage index change =>
    obtain ⟨child,hchild,hne,hd,hs⟩ := stageChange_cases h
    refine ⟨?_,Or.inl hd⟩
    rw [hs]
    exact KeepsHalted.set hchild (fun hh => Child.halted_change hh hne)
  | background index change =>
    obtain ⟨hs,hd⟩ := backgroundChange_cases h
    exact ⟨hsame hs,Or.inl hd⟩
  | deliver garbage =>
    obtain ⟨hs,hd⟩ := deliver_cases h (by simpa [undisturbed] using hg)
    exact ⟨hsame hs,Or.inl hd⟩
  | wait garbage =>
    rcases wait_cases h with ⟨hcur,hs,hd⟩ | ⟨child,child',r,hcur,hr,hs,hd⟩ | ⟨hs,hd⟩ | ⟨hcur,hs,hd⟩
    · refine ⟨hsame hs,Or.inr ⟨_,hd,fun c hc => ?_⟩⟩
      rw [hs, hcur] at hc
      cases hc
      rfl
    · have hh := report_keeps_halted hr
      refine ⟨by rw [hs]; exact KeepsHalted.set hcur (fun _ => hh),Or.inr ⟨_,hd,fun c hc => ?_⟩⟩
      rw [hs, List.getElem?_set_self (List.getElem?_eq_some_iff.mp hcur).1] at hc
      cases hc
      exact hh
    · exact ⟨hsame hs,Or.inl hd⟩
    · refine ⟨hsame hs,Or.inr ⟨_,hd,fun c hc => ?_⟩⟩
      rw [hs, hcur] at hc
      cases hc
  | waitAnyStage index =>
    obtain ⟨hcur,child,child',r,hchild,hr,hs,hd⟩ := waitAnyStage_cases h
    have hkeep : KeepsHalted s.stages t.stages := by
      rw [hs]
      exact KeepsHalted.set hchild (fun _ => report_keeps_halted hr)
    refine ⟨hkeep,Or.inr ⟨_,hd,fun c hc => ?_⟩⟩
    obtain ⟨c0,hc0,_⟩ := hkeep _ _ hc
    rw [hcur] at hc0
    cases hc0
  | waitAnyBackground index =>
    obtain ⟨hcur,hs,r,hd⟩ := waitAnyBackground_cases h
    refine ⟨hsame hs,Or.inr ⟨_,hd,fun c hc => ?_⟩⟩
    rw [hs, hcur] at hc
    cases hc

/-! ## Undisturbed runs -/

/-- The stages that the loop has passed have halted. -/
def Passed (s : State) : Prop :=
  ∀ (i : ℕ) (child : Child), i < s.decisions.length → s.stages[i]? = some (some child) →
    child.halted = true

theorem Passed.step {s t : State} {e : Event} (hp : Passed s) (hg : undisturbed s e = true)
    (h : step s e = some t) : Passed t := by
  obtain ⟨hstages,hdecisions⟩ := step_effect hg h
  intro i child' hi hchild'
  obtain ⟨child,hchild,hkeep⟩ := hstages i child' hchild'
  rcases hdecisions with hd | ⟨d,hd,hlast⟩
  · rw [hd] at hi
    exact hkeep (hp i child hi hchild)
  · rw [hd, List.length_append, List.length_singleton] at hi
    rcases Nat.lt_succ_iff_lt_or_eq.mp hi with hlt | rfl
    · exact hkeep (hp i child hlt hchild)
    · exact hlast child' hchild'

/-- With every fork successful, each decision so far was taken from the status
of the awaited process, and no other stage has been reaped. -/
structure Collected (s : State) : Prop where
  forked : none ∉ s.stages
  fresh : ∀ i : ℕ, s.decisions.length ≤ i → s.stages[i]? ≠ some (some .reaped)
  returned : ∀ d ∈ s.decisions, ∃ r, d = .returned r

theorem Collected.congr {s t : State} (hc : Collected s) (hs : t.stages = s.stages)
    (hd : t.decisions = s.decisions) : Collected t := by
  refine ⟨?_,?_,?_⟩
  · rw [hs]
    exact hc.forked
  · rw [hs, hd]
    exact hc.fresh
  · rw [hd]
    exact hc.returned

theorem Collected.step {s t : State} {e : Event} (hc : Collected s) (hg : undisturbed s e = true)
    (h : step s e = some t) : Collected t := by
  have hcurrent : s.stages[s.decisions.length]? ≠ some none :=
    fun hnone => hc.forked (List.mem_of_getElem? hnone)
  have hset : ∀ {i : ℕ} {c : Child}, none ∉ s.stages.set i (some c) := by
    intro i c hmem
    rcases List.mem_or_eq_of_mem_set hmem with hmem | heq
    · exact hc.forked hmem
    · cases heq
  cases e with
  | stage index change =>
    obtain ⟨child,hchild,_,hd,hs⟩ := stageChange_cases h
    refine ⟨by rw [hs]; exact hset,fun i hi hreaped => ?_,by rw [hd]; exact hc.returned⟩
    rw [hd] at hi
    rw [hs, List.getElem?_set] at hreaped
    split at hreaped
    · next heq =>
      subst heq
      split at hreaped
      · have hdead := Child.change_eq_reaped (Option.some.inj (Option.some.inj hreaped))
        rw [hdead] at hchild
        exact hc.fresh index hi hchild
      · cases hreaped
    · exact hc.fresh i hi hreaped
  | background index change =>
    obtain ⟨hs,hd⟩ := backgroundChange_cases h
    exact hc.congr hs hd
  | deliver garbage =>
    obtain ⟨hs,hd⟩ := deliver_cases h (by simpa [undisturbed] using hg)
    exact hc.congr hs hd
  | wait garbage =>
    rcases wait_cases h with ⟨hcur,_,_⟩ | ⟨child,child',r,hcur,hr,hs,hd⟩ | ⟨hs,hd⟩ | ⟨hcur,_,_⟩
    · exact absurd hcur (hc.fresh _ (Nat.le_refl _))
    · refine ⟨by rw [hs]; exact hset,fun i hi => ?_,?_⟩
      · rw [hd, List.length_append, List.length_singleton] at hi
        rw [hs, List.getElem?_set_ne (by omega)]
        exact hc.fresh i (by omega)
      · rw [hd]
        intro d hmem
        rcases List.mem_append.mp hmem with hmem | hmem
        · exact hc.returned d hmem
        · exact ⟨r,List.mem_singleton.mp hmem⟩
    · exact hc.congr hs hd
    · exact absurd hcur hcurrent
  | waitAnyStage index => exact absurd (waitAnyStage_cases h).1 hcurrent
  | waitAnyBackground index => exact absurd (waitAnyBackground_cases h).1 hcurrent

theorem start_collected {forks : List Bool} (hforks : ∀ ok ∈ forks, ok = true)
    (background : List Child) (sigchld : Bool) : Collected (start forks background sigchld) := by
  refine ⟨?_,?_,by simp [start]⟩
  · simp only [start, List.mem_map, not_exists, not_and]
    intro ok hok
    simp [hforks ok hok]
  · intro i _ hreaped
    simp only [start, List.getElem?_map, Option.map_eq_some_iff] at hreaped
    obtain ⟨ok,_,heq⟩ := hreaped
    cases ok <;> simp at heq

/-- When the wait was never interrupted, the loop returns only after every
process that was forked has ended or stopped, and with all forks successful each
decision was taken from a status returned for the process in question. -/
theorem foreground_complete (forks : List Bool) (background : List Child) (sigchld : Bool)
    {s : State} (hr : UndisturbedRuns (start forks background sigchld) s)
    (hret : s.returned) :
    (∀ child, some child ∈ s.stages → child.halted = true) ∧
      ((∀ ok ∈ forks, ok = true) → ∀ d ∈ s.decisions, ∃ r, d = .returned r) := by
  constructor
  · intro child hmem
    have hp : Passed s := hr.invariant (by intro i _ hi; simp [start] at hi)
      (fun _ _ _ hp hg he => hp.step hg he)
    obtain ⟨i,hi,hget⟩ := List.getElem_of_mem hmem
    exact hp i child (by rw [hret]; exact hi) (by rw [List.getElem?_eq_getElem hi, hget])
  · intro hforks
    exact (hr.invariant (start_collected hforks background sigchld)
      (fun _ _ _ hc hg he => hc.step hg he)).returned

/-- A pipeline whose first stage exits and whose second stage stops. -/
theorem foreground_complete_stopped :
    let s : State := ⟨[some .reaped,some (.stopped false)],[],false,false,
      [.returned (.exited false),.returned .stopped]⟩
    (∀ child, some child ∈ s.stages → child.halted = true) ∧
      ((∀ ok ∈ [true,true], ok = true) → ∀ d ∈ s.decisions, ∃ r, d = .returned r) :=
  foreground_complete [true,true] [] false
    (Runs.of_execute [.stage 0 (.exit false),.deliver false,.wait false,.wait false,
      .stage 1 .stop,.wait false,.deliver false] (by decide)) rfl

/-- A command is left running when a background job ends meanwhile, and the
first stage of a pipeline is left running when the second ends first. -/
theorem interrupted_wait_returns_early :
    (∃ s, Reachable step (start [true] [.running false] false) s ∧ s.returned ∧
      some (.running false) ∈ s.stages ∧ s.decisions = [.untouched false]) ∧
    ∃ s, Reachable step (start [true,true] [] false) s ∧ s.returned ∧
      some (.running false) ∈ s.stages ∧
      s.decisions = [.untouched false,.returned (.exited false)] := by
  constructor
  · refine ⟨⟨[some (.running false)],[.zombie false],false,false,[.untouched false]⟩,
      Runs.of_execute [.wait false,.background 0 (.exit false),.deliver false] ?_,rfl,?_,rfl⟩
    · decide
    · decide
  · refine ⟨⟨[some (.running false),some .reaped],[],false,false,
        [.untouched false,.returned (.exited false)]⟩,
      Runs.of_execute [.wait false,.stage 1 (.exit false),.deliver false,.wait false] ?_,
      rfl,?_,rfl⟩
    · decide
    · decide

end CShellXv6.Foreground
