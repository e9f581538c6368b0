/-! # Child processes as the shell sees them

A child runs, is stopped, or has ended and waits to be reaped. Each change of
state can be collected once by a `waitpid` whose flags ask for it; the exit
status is collected together with the process itself.
-/
namespace CShellXv6.Process

/-- The status words that `waitpid` can store. -/
inductive Report
  | exited (signaled : Bool)
  | stopped
  | continued
  deriving DecidableEq, Repr

/-- The flags of `running` and `stopped` tell whether the last change is still
to be reported. -/
inductive Child
  | running (unreported : Bool)
  | stopped (unreported : Bool)
  | zombie (signaled : Bool)
  | reaped
  deriving DecidableEq, Repr

inductive Change
  | exit (signaled : Bool)
  | stop
  | continue
  deriving DecidableEq, Repr

def Child.change : Child → Change → Child
  | .running _, .exit signaled => .zombie signaled
  | .stopped _, .exit signaled => .zombie signaled
  | .running _, .stop => .stopped true
  | .stopped _, .continue => .running true
  | child, _ => child

/-- The flags that matter to the result of `waitpid`. -/
structure WaitFlags where
  untraced : Bool
  continued : Bool
  deriving DecidableEq, Repr

/-- What `waitpid` on this child collects, and the child afterwards. -/
def Child.report (flags : WaitFlags) : Child → Option (Report × Child)
  | .zombie signaled => some (.exited signaled,.reaped)
  | .stopped true => if flags.untraced then some (.stopped,.stopped false) else none
  | .running true => if flags.continued then some (.continued,.running false) else none
  | _ => none

/-- The process has ended, reaped or not. -/
def Child.dead : Child → Bool
  | .zombie _ => true
  | .reaped => true
  | _ => false

/-- The process has ended or is stopped. -/
def Child.halted : Child → Bool
  | .running _ => false
  | _ => true

theorem Child.dead_change {child : Child} (h : child.dead = true) (c : Change) :
    child.change c = child := by
  cases child with
  | running _ => cases h
  | stopped _ => cases h
  | zombie _ => cases c <;> rfl
  | reaped => cases c <;> rfl

theorem Child.halted_change {child : Child} (h : child.halted = true) {c : Change}
    (hc : c ≠ .continue) : (child.change c).halted = true := by
  cases child with
  | running _ => cases h
  | stopped _ => cases c <;> first | rfl | exact absurd rfl hc
  | zombie _ => cases c <;> rfl
  | reaped => cases c <;> rfl

theorem Child.change_eq_reaped {child : Child} {c : Change} (h : child.change c = .reaped) :
    child = .reaped := by
  cases child with
  | running _ => cases c <;> cases h
  | stopped _ => cases c <;> cases h
  | zombie _ => cases c <;> cases h
  | reaped => rfl

/-- Without `WCONTINUED` only halted children report, and they stay halted. -/
theorem Child.report_halted {child child' : Child} {flags : WaitFlags} {r : Report}
    (hflags : flags.continued = false) (h : child.report flags = some (r,child')) :
    child'.halted = true := by
  cases child with
  | running u => cases u <;> simp [Child.report,hflags] at h
  | stopped u =>
    cases u with
    | false => cases h
    | true =>
      simp only [Child.report, Option.ite_none_right_eq_some, Option.some.injEq,
        Prod.mk.injEq] at h
      rw [← h.2.2]
      rfl
  | zombie _ =>
    cases h
    rfl
  | reaped => cases h

end CShellXv6.Process
