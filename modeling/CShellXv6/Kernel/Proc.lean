import CShellXv6.Library.SpinLock
import Mathlib.Algebra.GroupWithZero.Nat
import Mathlib.Data.List.FinRange

/-! # Processes and their locks

The functions of `proc.c` as programs over the spin locks they take, for the
three schedulers. A function takes the program that follows it as its last
argument. What an allocation or a `copyout` answers is an argument of the system
call; memory, files and the text output are left out.
-/
namespace CShellXv6.Kernel
open SpinLock

abbrev nproc : ℕ := 64

instance : NeZero nproc := ⟨by decide⟩

abbrev Slot := Fin nproc

inductive Policy
  | fifo
  | mlfq
  | roundRobin
  deriving DecidableEq, Repr

inductive Lock
  | wait
  | ticks
  | pid
  | proc (p : Slot)
  deriving DecidableEq, Repr

inductive ProcState
  | unused
  | used
  | sleeping
  | runnable
  | running
  | zombie
  deriving DecidableEq, Repr

/-- The addresses that processes sleep on. -/
inductive Chan
  | ticks
  | proc (p : Slot)
  deriving DecidableEq, Repr

structure Proc where
  state : ProcState
  chan : Option Chan
  killed : Bool
  xstate : ℤ
  pid : ℕ
  parent : Option Slot
  a0 : ℤ
  priority : ℕ
  ticksUsed : ℕ
  ctime : BitVec 32
  rtime : ℕ
  wtime : ℕ
  etime : BitVec 32
  firstRun : BitVec 32

/-- The data of `n` processors; `cpu` is the process each of them runs. -/
structure Data (n : ℕ) where
  proc : Slot → Proc
  nextpid : ℕ
  initproc : Slot
  ticks : BitVec 32
  mlfqTicksSinceBoost : BitVec 32
  cpu : Fin n → Option Slot

/-- How far the allocations of `kfork` succeed. -/
inductive Alloc
  | ok
  | noTrapframe
  | noPagetable
  | noCopy
  deriving DecidableEq, Repr

/-- The two wait calls, with the success of each `copyout`. -/
inductive WaitCall
  | kwait (xstate : Bool)
  | waitx (xstate rtime wtime retime : Bool)
  deriving DecidableEq, Repr

inductive Syscall
  | fork (alloc : Alloc)
  | exit (status : ℤ)
  | wait (xstate : Bool)
  | waitx (xstate rtime wtime retime : Bool)
  | pause (ticks : BitVec 32)
  | kill (pid : ℕ)
  | uptime
  deriving DecidableEq, Repr

/-- Where a processor can enter the kernel, and the heads of its endless loops. -/
inductive Entry
  | scheduler
  | schedReturn (p : Slot)
  | forkret (p : Slot)
  | syscall (p : Slot) (call : Syscall)
  | waitLoop (p : Slot) (call : WaitCall)
  | pauseLoop (p : Slot) (ticks ticks0 : BitVec 32)
  | timer (p : Slot)
  | fault (p : Slot)
  | kerneltrap
  deriving DecidableEq, Repr

abbrev Thread (n : ℕ) := Prog (Fin n) Lock Slot Entry (Data n)

variable {n : ℕ}

def Data.modify (p : Slot) (f : Proc → Proc) (s : Data n) : Data n :=
  { s with proc := Function.update s.proc p (f (s.proc p)) }

def write (p : Slot) (f : Proc → Proc) (k : Thread n) : Thread n := .act (Data.modify p f) k

def forProcs (f : Slot → Thread n → Thread n) (k : Thread n) : Thread n :=
  (List.finRange nproc).foldr f k

/-! ## Sleep and wakeup -/

def Proc.wake (chan : Option Chan) (q : Proc) : Proc :=
  if q.chan = chan then
    { q with chan := none, state := if q.state = .sleeping then .runnable else q.state }
  else q

def wakeup (chan : Option Chan) (k : Thread n) : Thread n :=
  forProcs (fun p k => .acquire (.proc p) (write p (Proc.wake chan) (.release (.proc p) k))) k

/-- The other checks of `sched` are those made when a thread parks. -/
def sched (p : Slot) (k : Thread n) : Thread n :=
  .look fun _ s =>
    if (s.proc p).state = .running then .halt else .park p (.schedReturn p) k

def yield (p : Slot) (k : Thread n) : Thread n :=
  .acquire (.proc p) (write p (fun q => { q with state := .runnable })
    (sched p (.release (.proc p) k)))

def sleepPrepare (p : Slot) (chan : Chan) (k : Thread n) : Thread n :=
  .acquire (.proc p) (write p (fun q => { q with chan := some chan }) (.release (.proc p) k))

def sleep (policy : Policy) (p : Slot) (k : Thread n) : Thread n :=
  .acquire (.proc p) (.look fun _ s =>
    if (s.proc p).chan ≠ none then
      write p (fun q => { q with
          state := .sleeping
          ticksUsed := if policy = .mlfq then 0 else q.ticksUsed })
        (sched p (.release (.proc p) k))
    else .release (.proc p) k)

def setkilled (p : Slot) (k : Thread n) : Thread n :=
  .acquire (.proc p) (write p (fun q => { q with killed := true }) (.release (.proc p) k))

def killed (p : Slot) (k : Bool → Thread n) : Thread n :=
  .acquire (.proc p) (.look fun _ s => .release (.proc p) (k (s.proc p).killed))

/-! ## Exit -/

def reparent (p : Slot) (k : Thread n) : Thread n :=
  forProcs (fun pp k => .look fun _ s =>
    if (s.proc pp).parent = some p then
      write pp (fun q => { q with parent := some s.initproc })
        (wakeup (some (.proc s.initproc)) k)
    else k) k

def kexit (p : Slot) (status : ℤ) : Thread n :=
  .look fun _ s =>
    if p = s.initproc then .halt
    else
      .acquire .wait (reparent p (.look fun _ s =>
        wakeup ((s.proc p).parent.map .proc)
          (.acquire (.proc p) (.acquire .ticks (.look fun _ s =>
            write p (fun q => { q with etime := s.ticks }) (.release .ticks
              (write p (fun q => { q with xstate := status, state := .zombie })
                (.release .wait (sched p .halt)))))))))

/-- The way back to user mode. -/
def userReturn (p : Slot) : Thread n :=
  killed p fun b => if b then kexit p (-1) else .done

def ret (p : Slot) (value : ℤ) : Thread n :=
  write p (fun q => { q with a0 := value }) (userReturn p)

/-! ## Fork -/

def allocpid (k : ℕ → Thread n) : Thread n :=
  .acquire .pid (.look fun _ s =>
    .act (fun s => { s with nextpid := s.nextpid + 1 }) (.release .pid (k s.nextpid)))

def freeproc (p : Slot) (k : Thread n) : Thread n :=
  write p (fun q => { q with
    pid := 0, chan := none, killed := false, xstate := 0, state := .unused }) k

def allocFound (alloc : Alloc) (p : Slot) (k : Option Slot → Thread n) : Thread n :=
  allocpid fun pid => write p (fun q => { q with pid := pid, state := .used })
    (match alloc with
      | .noTrapframe => freeproc p (.release (.proc p) (k none))
      | .noPagetable => freeproc p (.release (.proc p) (k none))
      | _ => .spawn p (.forkret p) (write p (fun q => { q with priority := 0, ticksUsed := 0 })
          (.acquire .ticks (.look fun _ s =>
            write p (fun q => { q with ctime := s.ticks }) (.release .ticks
              (write p (fun q => { q with rtime := 0, wtime := 0, etime := 0, firstRun := -1 })
                (k (some p))))))))

def allocScan (alloc : Alloc) (k : Option Slot → Thread n) : List Slot → Thread n
  | [] => k none
  | p :: rest => .acquire (.proc p) (.look fun _ s =>
      if (s.proc p).state = .unused then allocFound alloc p k
      else .release (.proc p) (allocScan alloc k rest))

def allocproc (alloc : Alloc) (k : Option Slot → Thread n) : Thread n :=
  allocScan alloc k (List.finRange nproc)

def kfork (p : Slot) (alloc : Alloc) : Thread n :=
  allocproc alloc fun
    | none => ret p (-1)
    | some np =>
      if alloc = .noCopy then freeproc np (.release (.proc np) (ret p (-1)))
      else write np (fun q => { q with a0 := 0 }) (.look fun _ s =>
        .release (.proc np) (.acquire .wait (write np (fun q => { q with parent := some p })
          (.release .wait (.acquire (.proc np) (write np (fun q => { q with state := .runnable })
            (.release (.proc np) (ret p (s.proc np).pid))))))))

/-! ## Wait -/

def WaitCall.copied : WaitCall → Bool
  | .kwait xstate => xstate
  | .waitx xstate rtime wtime retime => xstate && rtime && wtime && retime

/-- The scan of `kwait` and `waitx`, which take the same locks. -/
def waitScan (policy : Policy) (p : Slot) (call : WaitCall) : List Slot → Bool → Thread n
  | [], false => .release .wait (ret p (-1))
  | [], true => killed p fun b =>
      if b then .release .wait (ret p (-1))
      else sleepPrepare p (.proc p) (.release .wait
        (sleep policy p (.acquire .wait (.goto (.waitLoop p call)))))
  | pp :: rest, havekids => .look fun _ s =>
      if (s.proc pp).parent = some p then
        .acquire (.proc pp) (.look fun _ s =>
          if (s.proc pp).state = .zombie then
            if call.copied then
              write pp (fun q => { q with parent := none })
                (freeproc pp (.release (.proc pp) (.release .wait (ret p (s.proc pp).pid))))
            else .release (.proc pp) (.release .wait (ret p (-1)))
          else .release (.proc pp) (waitScan policy p call rest true))
      else waitScan policy p call rest havekids

def waitLoop (policy : Policy) (p : Slot) (call : WaitCall) : Thread n :=
  waitScan policy p call (List.finRange nproc) false

def kwait (p : Slot) (xstate : Bool) : Thread n :=
  .acquire .wait (.goto (.waitLoop p (.kwait xstate)))

def waitx (p : Slot) (xstate rtime wtime retime : Bool) : Thread n :=
  .acquire .wait (.goto (.waitLoop p (.waitx xstate rtime wtime retime)))

/-! ## Kill -/

def killScan (p : Slot) (pid : ℕ) : List Slot → Thread n
  | [] => ret p (-1)
  | q :: rest => .acquire (.proc q) (.look fun _ s =>
      if (s.proc q).pid = pid then
        write q (fun r => { r with
            killed := true
            state := if r.state = .sleeping then .runnable else r.state })
          (.release (.proc q) (ret p 0))
      else .release (.proc q) (killScan p pid rest))

def kkill (p : Slot) (pid : ℕ) : Thread n := killScan p pid (List.finRange nproc)

/-! ## Schedulers -/

def setCpu (h : Fin n) (p : Option Slot) (k : Thread n) : Thread n :=
  .act (fun s => { s with cpu := Function.update s.cpu h p }) k

/-- The switch to a process whose lock is held. -/
def dispatch (p : Slot) : Thread n :=
  write p (fun q => { q with state := .running })
    (.look fun h _ => setCpu h (some p) (.resume p))

/-- The local variable `earliest` is the process whose lock the scan keeps. -/
def fifoScan : List Slot → Option Slot → Thread n
  | [], none => .goto .scheduler
  | [], some e => .look fun _ s =>
      if (s.proc e).firstRun = -1 then
        .acquire .ticks (.look fun _ s =>
          write e (fun q => { q with firstRun := s.ticks }) (.release .ticks (dispatch e)))
      else dispatch e
  | p :: rest, none => .acquire (.proc p) (.look fun _ s =>
      if (s.proc p).state = .runnable then fifoScan rest (some p)
      else .release (.proc p) (fifoScan rest none))
  | p :: rest, some e => .acquire (.proc p) (.look fun _ s =>
      if (s.proc p).state = .runnable ∧ (s.proc p).ctime.slt (s.proc e).ctime then
        .release (.proc e) (fifoScan rest (some p))
      else .release (.proc p) (fifoScan rest (some e)))

def mlfqBoost (k : Thread n) : Thread n :=
  .acquire .ticks (.look fun _ s =>
    if 48 ≤ s.ticks - s.mlfqTicksSinceBoost then
      .act (fun s => { s with mlfqTicksSinceBoost := s.ticks })
        (forProcs (fun bp k => .acquire (.proc bp)
            (write bp (fun q => { q with priority := 0, ticksUsed := 0 })
              (.release (.proc bp) k)))
          (.release .ticks k))
    else .release .ticks k)

def mlfqScan : List (ℕ × Slot) → Thread n
  | [] => .goto .scheduler
  | (q,p) :: rest => .acquire (.proc p) (.look fun _ s =>
      if (s.proc p).state = .runnable ∧ (s.proc p).priority = q then dispatch p
      else .release (.proc p) (mlfqScan rest))

def roundRobinScan : List Slot → Thread n
  | [] => .goto .scheduler
  | p :: rest => .acquire (.proc p) (.look fun _ s =>
      if (s.proc p).state = .runnable then dispatch p
      else .release (.proc p) (roundRobinScan rest))

/-- One round of the endless loop; with nothing to run it only waits for an
interrupt. -/
def scheduler : Policy → Thread n
  | .fifo => fifoScan (List.finRange nproc) none
  | .mlfq => mlfqBoost (mlfqScan
      ((List.range 4).flatMap fun q => (List.finRange nproc).map fun p => (q,p)))
  | .roundRobin => roundRobinScan (List.finRange nproc)

/-- Back from the process. Only the standard scheduler goes on with its scan. -/
def schedReturn (policy : Policy) (p : Slot) : Thread n :=
  .look fun h _ => setCpu h none (.release (.proc p)
    (if policy = .roundRobin then roundRobinScan ((List.finRange nproc).drop (p + 1))
      else .goto .scheduler))

def forkret (p : Slot) : Thread n := .release (.proc p) .done

end CShellXv6.Kernel
