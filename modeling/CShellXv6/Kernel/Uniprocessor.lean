import CShellXv6.Kernel.Trap

/-! # The multi-level feedback queue on one hart

A stretch of the kernel that holds a spin lock runs with interrupts off, so on
one hart it is a single step, and an interrupt can only come between two of
them. A system call is any sequence of the sections below, which covers those
that sleep for and wake up each other on pipes, buffers and devices. The hart is
in the scheduler, in user mode, at the end of a timer interrupt from user mode,
or in the kernel with interrupts on or off.
-/
namespace CShellXv6.Mlfq
open Kernel (nproc Slot ProcState sliceTicks)

/-- The addresses that processes sleep on. -/
inductive Chan
  | ticks
  | proc (p : Slot)
  | other (address : BitVec 64)
  deriving DecidableEq, Repr

structure Proc where
  state : ProcState
  chan : Option Chan
  killed : Bool
  pid : ℕ
  parent : Option Slot
  priority : ℕ
  ticksUsed : ℕ
  ctime : BitVec 32
  rtime : ℕ
  wtime : ℕ
  etime : BitVec 32
  deriving DecidableEq, Repr

/-- Where a process continues when it is switched to: in `forkret`, after the
`yield` of a timer interrupt from user mode, or elsewhere in the kernel. -/
inductive Thread
  | forkret
  | timer
  | kernel (intr : Bool)
  deriving DecidableEq, Repr

inductive Cpu
  | scheduler
  | user (p : Slot)
  | timerTail (p : Slot)
  | kernel (p : Slot) (intr : Bool)
  deriving DecidableEq, Repr

/-- How far a `kfork` has come with its child `np`. -/
inductive Fork
  | none
  | allocated (np : Slot)
  | adopted (np : Slot)
  deriving DecidableEq, Repr

structure System where
  proc : Slot → Proc
  thread : Slot → Thread
  fork : Slot → Fork
  nextpid : ℕ
  initproc : Slot
  ticks : BitVec 32
  mlfqTicksSinceBoost : BitVec 32
  cpu : Cpu

def System.modify (s : System) (p : Slot) (f : Proc → Proc) : System :=
  { s with proc := Function.update s.proc p (f (s.proc p)) }

/-- The switch to the scheduler. -/
def System.sched (s : System) (p : Slot) (t : Thread) : System :=
  { s with thread := Function.update s.thread p t, cpu := .scheduler }

/-! ## Sleep and wakeup -/

def Proc.wake (chan : Option Chan) (q : Proc) : Proc :=
  if q.chan = chan then
    { q with chan := none, state := if q.state = .sleeping then .runnable else q.state }
  else q

def System.wakeup (s : System) (chan : Option Chan) : System :=
  { s with proc := fun q => (s.proc q).wake chan }

def System.yield (s : System) (p : Slot) (t : Thread) : System :=
  (s.modify p fun q => { q with state := .runnable }).sched p t

def System.sleepPrepare (s : System) (p : Slot) (chan : Chan) : System :=
  s.modify p fun q => { q with chan := some chan }

def System.sleep (s : System) (p : Slot) (intr : Bool) : System :=
  if (s.proc p).chan ≠ none then
    (s.modify p fun q => { q with state := .sleeping, ticksUsed := 0 }).sched p (.kernel intr)
  else s

def System.kkill (s : System) (q : Slot) : System :=
  s.modify q fun r => { r with
    killed := true
    state := if r.state = .sleeping then .runnable else r.state }

/-! ## Fork, exit and wait -/

def Proc.freeproc (q : Proc) : Proc :=
  { q with pid := 0, chan := none, killed := false, state := .unused }

/-- The section of `allocproc` and `kfork` that holds the lock of the child. The
slots are checked one by one, so that any unused one may be found. -/
def System.forkAlloc (s : System) (p np : Slot) (ok : Bool) : Option System :=
  if s.fork p = .none ∧ (s.proc np).state = .unused then
    some (if ok then
      { s.modify np fun q => { q with
          pid := s.nextpid, state := .used, priority := 0, ticksUsed := 0, ctime := s.ticks
          rtime := 0, wtime := 0, etime := 0 } with
        nextpid := s.nextpid + 1
        thread := Function.update s.thread np .forkret
        fork := Function.update s.fork p (.allocated np) }
    else { s.modify np Proc.freeproc with nextpid := s.nextpid + 1 })
  else none

def System.forkParent (s : System) (p : Slot) : Option System :=
  match s.fork p with
  | .allocated np => some { s.modify np fun q => { q with parent := some p } with
      fork := Function.update s.fork p (.adopted np) }
  | _ => none

def System.forkRunnable (s : System) (p : Slot) : Option System :=
  match s.fork p with
  | .adopted np => some { s.modify np fun q => { q with state := .runnable } with
      fork := Function.update s.fork p .none }
  | _ => none

def System.reparent (s : System) (p : Slot) : System :=
  (List.finRange nproc).foldl (fun s pp =>
    if (s.proc pp).parent = some p then
      (s.modify pp fun q => { q with parent := some s.initproc }).wakeup (some (.proc s.initproc))
    else s) s

/-- The part of `kexit` under `wait_lock`; the exit of the first process panics. -/
def System.kexit (s : System) (p : Slot) : Option System :=
  if p = s.initproc ∨ s.fork p ≠ .none then none
  else
    let s := s.reparent p
    let s := s.wakeup ((s.proc p).parent.map .proc)
    let s := s.modify p fun q => { q with etime := s.ticks, state := .zombie }
    some (s.sched p (.kernel true))

/-- `kwait` and `waitx` have found an exited child. -/
def System.reap (s : System) (p pp : Slot) : Option System :=
  if (s.proc pp).parent = some p ∧ (s.proc pp).state = .zombie then
    some (s.modify pp fun q => { q.freeproc with parent := none })
  else none

/-! ## The scheduler -/

def System.boostDue (s : System) : Bool := 48 ≤ s.ticks - s.mlfqTicksSinceBoost

def System.boost (s : System) : System :=
  if s.boostDue then
    { s with
      mlfqTicksSinceBoost := s.ticks
      proc := fun q => { s.proc q with priority := 0, ticksUsed := 0 } }
  else s

/-- The order in which the two nested loops look at the table. -/
def scanOrder : List (ℕ × Slot) :=
  (List.range 4).flatMap fun q => (List.finRange nproc).map fun p => (q,p)

def System.scan (s : System) : Option Slot :=
  (scanOrder.find? fun e =>
    (s.proc e.2).state = .runnable && (s.proc e.2).priority = e.1).map Prod.snd

def Thread.resume (p : Slot) : Thread → Cpu
  | .forkret => .user p
  | .timer => .timerTail p
  | .kernel intr => .kernel p intr

def System.dispatch (s : System) (p : Slot) : System :=
  { s.modify p fun q => { q with state := .running } with cpu := (s.thread p).resume p }

/-- One round of the loop after interrupts are off again; with nothing to run it
only waits for an interrupt. -/
def System.schedule (s : System) : System :=
  match s.boost.scan with
  | some p => s.boost.dispatch p
  | none => s.boost

/-! ## Interrupts -/

def System.clockintr (s : System) : System :=
  System.wakeup { s with ticks := s.ticks + 1 } (some .ticks)

def System.countTick (s : System) (p : Slot) : System :=
  { s with proc := fun q =>
      if q = p then { s.proc q with rtime := (s.proc q).rtime + 1 }
      else if (s.proc q).state = .runnable then { s.proc q with wtime := (s.proc q).wtime + 1 }
      else s.proc q }

def System.shouldYield (s : System) (p : Slot) : Bool :=
  (List.range (s.proc p).priority).any fun q => (List.finRange nproc).any fun hp =>
    (s.proc hp).state = .runnable && (s.proc hp).priority = q

def Proc.demote (q : Proc) : Proc :=
  { q with ticksUsed := 0, priority := if q.priority < 3 then q.priority + 1 else q.priority }

def System.mlfqTick (s : System) (p : Slot) : System :=
  let s := s.modify p fun q => { q with ticksUsed := q.ticksUsed + 1 }
  if sliceTicks.getD (s.proc p).priority 0 ≤ (s.proc p).ticksUsed then
    (s.modify p Proc.demote).yield p .timer
  else if s.shouldYield p then s.yield p .timer
  else { s with cpu := .timerTail p }

/-- A process that has been killed leaves through `kexit` with interrupts off. -/
def System.checkKilled (s : System) (p : Slot) (k : System) : System :=
  if (s.proc p).killed then { s with cpu := .kernel p false } else k

def System.usertrapTimer (s : System) (p : Slot) : System :=
  s.clockintr.checkKilled p ((s.clockintr.countTick p).mlfqTick p)

/-! ## The kernel -/

/-- The sections that make up the system calls, for the process that runs them. -/
inductive Section
  | sleepPrepare (chan : Chan)
  | sleep
  | wakeup (chan : Chan)
  | kill (q : Slot)
  | forkAlloc (np : Slot) (ok : Bool)
  | forkParent
  | forkRunnable
  | reap (pp : Slot)
  | exit
  | ret
  deriving DecidableEq, Repr

/-- The return to user mode from a system call. A process that is in the kernel
with interrupts off, or has been killed, leaves through `kexit` instead. -/
def System.userReturn (s : System) (p : Slot) (intr : Bool) : Option System :=
  if intr = true ∧ (s.proc p).killed = false ∧ s.fork p = .none then
    some { s with cpu := .user p }
  else none

def System.runSection (s : System) (p : Slot) (intr : Bool) : Section → Option System
  | .sleepPrepare chan => some (s.sleepPrepare p chan)
  | .sleep => some (s.sleep p intr)
  | .wakeup chan => some (s.wakeup (some chan))
  | .kill q => some (s.kkill q)
  | .forkAlloc np ok => s.forkAlloc p np ok
  | .forkParent => s.forkParent p
  | .forkRunnable => s.forkRunnable p
  | .reap pp => s.reap p pp
  | .exit => s.kexit p
  | .ret => s.userReturn p intr

inductive Event
  | schedule
  | timer
  | device (chan : Chan)
  | syscall
  | fault
  | finish
  | section (op : Section)
  deriving DecidableEq, Repr

def step (s : System) : Event → Option System
  | .schedule =>
    match s.cpu with
    | .scheduler => some s.schedule
    | _ => none
  | .timer =>
    match s.cpu with
    | .scheduler => some s.clockintr
    | .user p => some (s.usertrapTimer p)
    | .kernel p true => some (s.clockintr.yield p (.kernel true))
    | _ => none
  | .device chan =>
    match s.cpu with
    | .scheduler => some (s.wakeup (some chan))
    | .user p => some ((s.wakeup (some chan)).checkKilled p (s.wakeup (some chan)))
    | .kernel _ true => some (s.wakeup (some chan))
    | _ => none
  | .syscall =>
    match s.cpu with
    | .user p => some (s.checkKilled p { s with cpu := .kernel p true })
    | _ => none
  | .fault =>
    match s.cpu with
    | .user p => some { s.modify p fun q => { q with killed := true } with cpu := .kernel p false }
    | _ => none
  | .finish =>
    match s.cpu with
    | .timerTail p => some { s with cpu := .user p }
    | _ => none
  | .section op =>
    match s.cpu with
    | .kernel p intr => s.runSection p intr op
    | _ => none

def freeProc : Proc := ⟨.unused,none,false,0,none,0,0,0,0,0,0⟩

/-- `userinit` has made the first process, which starts in the kernel with the
file system and `/init`. -/
def boot : System where
  proc p := if p = 0 then { freeProc with state := .runnable, pid := 1 } else freeProc
  thread p := if p = 0 then .kernel true else .forkret
  fork _ := .none
  nextpid := 2
  initproc := 0
  ticks := 0
  mlfqTicksSinceBoost := 0
  cpu := .scheduler

end CShellXv6.Mlfq
