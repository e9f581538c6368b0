import CShellXv6.Kernel.Proc

/-! # Traps and system calls

The timer interrupt, the system calls on processes and the clock, and the way
into the scheduler. Interrupts are taken whenever no lock is held, which covers
the stretches of the kernel that run with interrupts off as well. Interrupts of
devices are left out.
-/
namespace CShellXv6.Kernel
open SpinLock
variable {n : ℕ}

def clockintr (k : Thread n) : Thread n :=
  .look fun h _ =>
    if h.val = 0 then
      .acquire .ticks (.act (fun s => { s with ticks := s.ticks + 1 })
        (wakeup (some .ticks) (.release .ticks k)))
    else k

/-! ## The timer in user mode -/

def countWaiting (p : Slot) (k : Thread n) : Thread n :=
  forProcs (fun rp k =>
    if rp ≠ p then .acquire (.proc rp)
      (write rp (fun q => { q with wtime := if q.state = .runnable then q.wtime + 1 else q.wtime })
        (.release (.proc rp) k))
    else k) k

def sliceTicks : List ℕ := [1,4,8,16]

/-- A process of higher priority could run; read without the locks. -/
def higherRunnable (s : Data n) (p : Slot) : Bool :=
  (List.finRange nproc).any fun hp =>
    (s.proc hp).state = .runnable && (s.proc hp).priority < (s.proc p).priority

def mlfqTick (p : Slot) : Thread n :=
  write p (fun q => { q with ticksUsed := q.ticksUsed + 1 }) (.look fun _ s =>
    if sliceTicks.getD (s.proc p).priority 0 ≤ (s.proc p).ticksUsed then
      write p (fun q => { q with
          ticksUsed := 0
          priority := if q.priority < 3 then q.priority + 1 else q.priority }) (yield p .done)
    else if higherRunnable s p then yield p .done
    else .done)

def preempt (policy : Policy) (p : Slot) : Thread n :=
  match policy with
  | .fifo => .done
  | .mlfq => mlfqTick p
  | .roundRobin => yield p .done

def timer (policy : Policy) (p : Slot) : Thread n :=
  clockintr (killed p fun b =>
    if b then kexit p (-1)
    else write p (fun q => { q with rtime := q.rtime + 1 }) (countWaiting p (preempt policy p)))

def fault (p : Slot) : Thread n := setkilled p (userReturn p)

/-- A timer interrupt of the kernel, which gives up the processor under every
scheduler. -/
def kerneltrap : Thread n :=
  clockintr (.look fun h s =>
    match s.cpu h with
    | some p => yield p .done
    | none => .done)

/-! ## System calls -/

def pauseLoop (policy : Policy) (p : Slot) (ticks ticks0 : BitVec 32) : Thread n :=
  .look fun _ s =>
    if s.ticks - ticks0 < ticks then
      killed p fun b =>
        if b then .release .ticks (ret p (-1))
        else sleepPrepare p .ticks (.release .ticks
          (sleep policy p (.acquire .ticks (.goto (.pauseLoop p ticks ticks0)))))
    else .release .ticks (ret p 0)

def sysPause (p : Slot) (ticks : BitVec 32) : Thread n :=
  .acquire .ticks (.look fun _ s =>
    .goto (.pauseLoop p (if ticks.msb then 0 else ticks) s.ticks))

def sysUptime (p : Slot) : Thread n :=
  .acquire .ticks (.look fun _ s => .release .ticks (ret p s.ticks.toNat))

def Syscall.run (p : Slot) : Syscall → Thread n
  | .fork alloc => kfork p alloc
  | .exit status => kexit p status
  | .wait xstate => kwait p xstate
  | .waitx xstate rtime wtime retime => Kernel.waitx p xstate rtime wtime retime
  | .pause ticks => sysPause p ticks
  | .kill pid => kkill p pid
  | .uptime => sysUptime p

/-- A system call from user mode, as `usertrap` makes it. -/
def syscall (p : Slot) (call : Syscall) : Thread n :=
  killed p fun b => if b then kexit p (-1) else call.run p

/-! ## The kernel -/

def body (policy : Policy) : Entry → Thread n
  | .scheduler => scheduler policy
  | .schedReturn p => schedReturn policy p
  | .forkret p => forkret p
  | .syscall p call => syscall p call
  | .waitLoop p call => waitLoop policy p call
  | .pauseLoop p ticks ticks0 => pauseLoop policy p ticks ticks0
  | .timer p => timer policy p
  | .fault p => fault p
  | .kerneltrap => kerneltrap

/-- In user mode a processor can only be trapped for the process it runs. -/
def traps (h : Fin n) (s : Data n) (user : Bool) : Entry → Bool
  | .syscall p _ => user && s.cpu h == some p
  | .timer p => user && s.cpu h == some p
  | .fault p => user && s.cpu h == some p
  | .kerneltrap => !user
  | _ => false

def code (n : ℕ) (policy : Policy) : Code (Fin n) Lock Slot Entry (Data n) where
  lock := .proc
  body := body policy
  traps := traps

abbrev System (n : ℕ) := Machine (Fin n) Lock Slot Entry (Data n)

def freeProc : Proc := ⟨.unused,none,false,0,0,none,0,0,0,0,0,0,0,0⟩

/-- `userinit` has made the first process, and every processor schedules. -/
def boot (n : ℕ) (policy : Policy) : System n where
  frames _ := [scheduler policy]
  noff _ := 0
  owner _ := none
  saved p := [forkret p]
  data :=
    { proc := fun p => if p = 0 then { freeProc with state := .runnable, pid := 1, firstRun := -1 }
        else freeProc
      nextpid := 2
      initproc := 0
      ticks := 0
      mlfqTicksSinceBoost := 0
      cpu := fun _ => none }

end CShellXv6.Kernel
