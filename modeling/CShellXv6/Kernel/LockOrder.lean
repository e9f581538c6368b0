import CShellXv6.Kernel.Trap

/-! # The order of the locks

`wait_lock` comes before `tickslock`, which comes before the locks of the
processes in the order of the table, and these before `pid_lock`. The one
exception is that `tickslock` is taken with the lock of a process held:
`allocproc`, `kexit` and the FIFO scheduler do so, against `clockintr`, the
priority boost and `sys_pause`. As long as nobody spins in the exceptional
places, no processors wait for one another in a cycle.
-/
namespace CShellXv6.Kernel
open SpinLock Transition

def Lock.rank : Lock → ℕ
  | .wait => 0
  | .ticks => 1
  | .proc p => 2 + p
  | .pid => 2 + nproc

def order : Discipline Lock Entry where
  rank := Lock.rank
  risky held l := l = .ticks ∧ ∃ p, held = .proc p
  risky_irrefl l := by
    rintro ⟨rfl,p,hp⟩
    cases hp
  holds
    | .schedReturn p => [.proc p]
    | .forkret p => [.proc p]
    | .waitLoop _ _ => [.wait]
    | .pauseLoop _ _ _ => [.ticks]
    | _ => []

abbrev Respects {n : ℕ} (policy : Policy) (held : List Lock) (k : Thread n) : Prop :=
  Ordered (code n policy) order held k

/-- Only `wait_lock` and `tickslock` are held. -/
def Low (held : List Lock) : Prop := ∀ l ∈ held, l.rank < 2

theorem Low.allows {held : List Lock} (h : Low held) (p : Slot) : order.Allows held (.proc p) :=
  fun l hl => Or.inl (Nat.lt_of_lt_of_le (h l hl) (Nat.le_add_right 2 p))

theorem low_nil : Low [] := fun _ h => absurd h List.not_mem_nil

theorem low_wait : Low [.wait] := fun _ h => by rw [List.mem_singleton.mp h]; decide

theorem low_ticks : Low [.ticks] := fun _ h => by rw [List.mem_singleton.mp h]; decide

theorem allows_nil (l : Lock) : order.Allows [] l := fun _ h => absurd h List.not_mem_nil

theorem allows_pid (p : Slot) : order.Allows [.proc p] .pid := by
  intro l hl
  rw [List.mem_singleton.mp hl]
  exact Or.inl (Nat.add_lt_add_left p.isLt 2)

/-- The exception to the order. -/
theorem allows_ticks (p : Slot) : order.Allows [.proc p] .ticks := by
  intro l hl
  rw [List.mem_singleton.mp hl]
  exact Or.inr ⟨rfl,p,rfl⟩

section Respects
variable {n : ℕ} {policy : Policy} {held : List Lock} {p : Slot} {k : Thread n}

theorem wakeup_respects (hl : Low held) (chan : Option Chan) (hk : Respects policy held k) :
    Respects policy held (wakeup chan k) :=
  hk.foldr (fun p _ hk => Ordered.section (hl.allows p) hk) _

theorem sched_respects (hk : Respects policy [.proc p] k) :
    Respects policy [.proc p] (sched p k) := by
  intro _ s
  dsimp only
  split
  · trivial
  · exact ⟨rfl,rfl,hk⟩

theorem yield_respects (hk : Respects policy [] k) : Respects policy [] (yield p k) :=
  ⟨allows_nil _,sched_respects (Ordered.release hk)⟩

theorem sleepPrepare_respects (hl : Low held) (chan : Chan) (hk : Respects policy held k) :
    Respects policy held (sleepPrepare p chan k) :=
  Ordered.section (hl.allows p) hk

theorem sleep_respects (hk : Respects policy [] k) : Respects policy [] (sleep policy p k) := by
  refine ⟨allows_nil _,fun _ s => ?_⟩
  dsimp only
  split
  · exact sched_respects (Ordered.release hk)
  · exact Ordered.release hk

theorem setkilled_respects (hl : Low held) (hk : Respects policy held k) :
    Respects policy held (setkilled p k) :=
  Ordered.section (hl.allows p) hk

theorem killed_respects (hl : Low held) {k : Bool → Thread n} (hk : ∀ b, Respects policy held (k b)) :
    Respects policy held (killed p k) :=
  ⟨hl.allows p,fun _ s => Ordered.release (hk (s.proc p).killed)⟩

theorem reparent_respects (hl : Low held) (hk : Respects policy held k) :
    Respects policy held (reparent p k) := by
  refine hk.foldr (fun pp k hk => ?_) _
  intro _ s
  dsimp only
  split
  · exact wakeup_respects hl _ hk
  · exact hk

theorem kexit_respects (status : ℤ) : Respects policy [] (kexit p status : Thread n) := by
  intro _ s
  dsimp only
  split
  · trivial
  refine ⟨allows_nil _,reparent_respects low_wait (fun _ s => wakeup_respects low_wait _ ?_)⟩
  refine ⟨low_wait.allows p,?_,fun _ s => Ordered.release ⟨by simp,sched_respects trivial⟩⟩
  intro l hl
  rcases List.mem_cons.mp hl with rfl | hl
  · exact Or.inr ⟨rfl,p,rfl⟩
  · rw [List.mem_singleton.mp hl]
    exact Or.inl (by decide)

theorem userReturn_respects : Respects policy [] (userReturn p : Thread n) := by
  refine killed_respects low_nil (fun b => ?_)
  split
  · exact kexit_respects _
  · rfl

theorem ret_respects (value : ℤ) : Respects policy [] (ret p value : Thread n) :=
  userReturn_respects

/-! ### Fork -/

theorem allocpid_respects {k : ℕ → Thread n} (hk : ∀ pid, Respects policy [.proc p] (k pid)) :
    Respects policy [.proc p] (allocpid k) := by
  exact ⟨allows_pid p,fun _ s => Ordered.release (hk s.nextpid)⟩

theorem allocFound_respects (alloc : Alloc) {k : Option Slot → Thread n}
    (hnone : Respects policy [] (k none)) (hsome : Respects policy [.proc p] (k (some p))) :
    Respects policy [.proc p] (allocFound alloc p k) := by
  refine allocpid_respects (fun pid => ?_)
  have hspawn : Respects policy [.proc p] (.spawn p (.forkret p)
      (write p (fun q => { q with priority := 0, ticksUsed := 0 })
        (.acquire .ticks (.look fun _ s =>
          write p (fun q => { q with ctime := s.ticks }) (.release .ticks
            (write p (fun q => { q with rtime := 0, wtime := 0, etime := 0, firstRun := -1 })
              (k (some p)))))))) := by
    exact ⟨rfl,allows_ticks p,fun _ s => Ordered.release hsome⟩
  cases alloc with
  | ok => exact hspawn
  | noTrapframe => exact Ordered.release hnone
  | noPagetable => exact Ordered.release hnone
  | noCopy => exact hspawn

theorem allocproc_respects (alloc : Alloc) {k : Option Slot → Thread n}
    (hnone : Respects policy [] (k none))
    (hsome : ∀ p, Respects policy [.proc p] (k (some p))) :
    Respects policy [] (allocproc alloc k) := by
  unfold allocproc
  induction List.finRange nproc with
  | nil => exact hnone
  | cons p rest ih =>
    refine ⟨allows_nil _,fun _ s => ?_⟩
    dsimp only
    split
    · exact allocFound_respects alloc hnone (hsome p)
    · exact Ordered.release ih

theorem kfork_respects (alloc : Alloc) : Respects policy [] (kfork p alloc : Thread n) := by
  refine allocproc_respects alloc (ret_respects _) (fun np => ?_)
  dsimp only
  split
  · exact Ordered.release (ret_respects _)
  · refine fun _ s => Ordered.release ⟨allows_nil _,Ordered.release ?_⟩
    exact ⟨allows_nil _,Ordered.release (ret_respects _)⟩

/-! ### Wait and kill -/

theorem waitLoop_respects (call : WaitCall) :
    Respects policy [.wait] (waitLoop policy p call : Thread n) := by
  unfold waitLoop
  generalize false = havekids
  induction List.finRange nproc generalizing havekids with
  | nil =>
    cases havekids with
    | false => exact Ordered.release (ret_respects _)
    | true =>
      refine killed_respects low_wait (fun b => ?_)
      split
      · exact Ordered.release (ret_respects _)
      · exact sleepPrepare_respects low_wait _
          (Ordered.release (sleep_respects ⟨allows_nil _,rfl⟩))
  | cons pp rest ih =>
    intro _ s
    dsimp only
    split
    · refine ⟨low_wait.allows pp,fun _ s => ?_⟩
      dsimp only
      split
      · split
        · exact Ordered.release (Ordered.release (ret_respects _))
        · exact Ordered.release (Ordered.release (ret_respects _))
      · exact Ordered.release (ih true)
    · exact ih havekids

theorem kkill_respects (pid : ℕ) : Respects policy [] (kkill p pid : Thread n) := by
  unfold kkill
  induction List.finRange nproc with
  | nil => exact ret_respects _
  | cons q rest ih =>
    refine ⟨allows_nil _,fun _ s => ?_⟩
    dsimp only
    split
    · exact Ordered.release (ret_respects _)
    · exact Ordered.release ih

/-! ### Schedulers -/

theorem dispatch_respects : Respects policy [.proc p] (dispatch p : Thread n) := fun _ _ => rfl

/-- The scan keeps the lock of `earliest` and takes only later ones. -/
theorem fifoScan_respects {l : List Slot} (hl : l.Pairwise (· < ·)) (earliest : Option Slot)
    (he : ∀ e ∈ earliest, ∀ q ∈ l, e < q) :
    Respects policy (earliest.toList.map .proc) (fifoScan l earliest : Thread n) := by
  induction l generalizing earliest with
  | nil =>
    cases earliest with
    | none => rfl
    | some e =>
      intro _ s
      dsimp only
      split
      · exact ⟨allows_ticks e,fun _ s => Ordered.release dispatch_respects⟩
      · exact dispatch_respects
  | cons p rest ih =>
    obtain ⟨hp,hrest⟩ := List.pairwise_cons.mp hl
    have hnext : Respects policy [.proc p] (fifoScan rest (some p) : Thread n) :=
      ih hrest (some p) (fun e h q hq => Option.mem_some_iff.mp h ▸ hp q hq)
    cases earliest with
    | none =>
      refine ⟨allows_nil _,fun _ s => ?_⟩
      dsimp only
      split
      · exact hnext
      · exact Ordered.release (ih hrest none (fun e h => by cases h))
    | some e =>
      have hlt : e < p := he e rfl p List.mem_cons_self
      refine ⟨fun l hl => Or.inl ?_,fun _ s => ?_⟩
      · rw [List.mem_singleton.mp hl]
        exact Nat.add_lt_add_left hlt 2
      · dsimp only
        split
        · have hne : Lock.proc p ≠ .proc e := fun h => by
            cases h
            exact absurd hlt (Nat.lt_irrefl _)
          refine ⟨by simp,?_⟩
          rw [List.erase_cons_tail (by simpa using hne), Option.toList_some, List.map_cons,
            List.erase_cons_head]
          exact hnext
        · exact Ordered.release (ih hrest (some e)
            (fun e' h q hq => he e' h q (List.mem_cons_of_mem _ hq)))

theorem mlfqBoost_respects (hk : Respects policy [] k) : Respects policy [] (mlfqBoost k) := by
  refine ⟨allows_nil _,fun _ s => ?_⟩
  dsimp only
  split
  · exact (Ordered.release hk).foldr
      (fun p _ hk => Ordered.section (low_ticks.allows p) hk) _
  · exact Ordered.release hk

theorem mlfqScan_respects (l : List (ℕ × Slot)) : Respects policy [] (mlfqScan l : Thread n) := by
  induction l with
  | nil => rfl
  | cons qp rest ih =>
    refine ⟨allows_nil _,fun _ s => ?_⟩
    dsimp only
    split
    · exact dispatch_respects
    · exact Ordered.release ih

theorem roundRobinScan_respects (l : List Slot) :
    Respects policy [] (roundRobinScan l : Thread n) := by
  induction l with
  | nil => rfl
  | cons p rest ih =>
    refine ⟨allows_nil _,fun _ s => ?_⟩
    dsimp only
    split
    · exact dispatch_respects
    · exact Ordered.release ih

theorem scheduler_respects : Respects policy [] (scheduler policy : Thread n) := by
  cases policy with
  | fifo => exact fifoScan_respects (List.pairwise_lt_finRange nproc) none (fun e h => by cases h)
  | mlfq => exact mlfqBoost_respects (mlfqScan_respects _)
  | roundRobin => exact roundRobinScan_respects _

theorem schedReturn_respects : Respects policy [.proc p] (schedReturn policy p : Thread n) := by
  refine fun _ s => Ordered.release ?_
  split
  · exact roundRobinScan_respects _
  · rfl

/-! ### Traps -/

theorem clockintr_respects (hk : Respects policy [] k) : Respects policy [] (clockintr k) := by
  intro h s
  dsimp only
  split
  · exact ⟨allows_nil _,wakeup_respects low_ticks _ (Ordered.release hk)⟩
  · exact hk

theorem countWaiting_respects (hk : Respects policy [] k) : Respects policy [] (countWaiting p k) := by
  refine hk.foldr (fun rp k hk => ?_) _
  split
  · exact Ordered.section (allows_nil _) hk
  · exact hk

theorem preempt_respects : Respects policy [] (preempt policy p : Thread n) := by
  have hyield : Respects policy [] (yield p .done : Thread n) := yield_respects rfl
  cases policy with
  | fifo => rfl
  | mlfq =>
    intro _ s
    dsimp only
    split
    · exact hyield
    · split
      · exact hyield
      · rfl
  | roundRobin => exact hyield

theorem timer_respects : Respects policy [] (timer policy p : Thread n) := by
  refine clockintr_respects (killed_respects low_nil (fun b => ?_))
  split
  · exact kexit_respects _
  · exact countWaiting_respects preempt_respects

theorem kerneltrap_respects : Respects policy [] (kerneltrap : Thread n) := by
  refine clockintr_respects (fun h s => ?_)
  dsimp only
  split
  · exact yield_respects rfl
  · rfl

theorem pauseLoop_respects (ticks ticks0 : BitVec 32) :
    Respects policy [.ticks] (pauseLoop policy p ticks ticks0 : Thread n) := by
  intro _ s
  dsimp only
  split
  · refine killed_respects low_ticks (fun b => ?_)
    split
    · exact Ordered.release (ret_respects _)
    · exact sleepPrepare_respects low_ticks _
        (Ordered.release (sleep_respects ⟨allows_nil _,rfl⟩))
  · exact Ordered.release (ret_respects _)

theorem run_respects (call : Syscall) : Respects policy [] (call.run p : Thread n) := by
  cases call with
  | fork alloc => exact kfork_respects alloc
  | exit status => exact kexit_respects status
  | wait xstate => exact ⟨allows_nil _,rfl⟩
  | waitx xstate rtime wtime retime => exact ⟨allows_nil _,rfl⟩
  | pause ticks => exact ⟨allows_nil _,fun _ _ => rfl⟩
  | kill pid => exact kkill_respects pid
  | uptime => exact ⟨allows_nil _,fun _ _ => Ordered.release (ret_respects _)⟩

theorem syscall_respects (call : Syscall) : Respects policy [] (syscall p call : Thread n) := by
  refine killed_respects low_nil (fun b => ?_)
  split
  · exact kexit_respects _
  · exact run_respects call

end Respects

theorem order_sound (n : ℕ) (policy : Policy) : order.Sound (code n policy) := by
  constructor
  · intro e
    cases e with
    | scheduler => exact scheduler_respects
    | schedReturn p => exact schedReturn_respects
    | forkret p => exact Ordered.release rfl
    | syscall p call => exact syscall_respects call
    | waitLoop p call => exact waitLoop_respects call
    | pauseLoop p ticks ticks0 => exact pauseLoop_respects ticks ticks0
    | timer p => exact timer_respects
    | fault p => exact setkilled_respects low_nil userReturn_respects
    | kerneltrap => exact kerneltrap_respects
  · intro h s user e he
    cases e with
    | schedReturn p => cases he
    | forkret p => cases he
    | waitLoop p call => cases he
    | pauseLoop p ticks ticks0 => cases he
    | _ => rfl

theorem boot_disciplined (n : ℕ) (policy : Policy) :
    Disciplined (code n policy) order (boot n policy) (fun _ => []) :=
  ⟨by simp [boot],by simp,fun _ => rfl,fun _ => ⟨scheduler_respects,by simp⟩,
    fun _ => ⟨Ordered.release rfl,by simp⟩⟩

/-! ## Waiting -/

/-- A processor that holds the lock of a process spins for `tickslock`. -/
def Spins {n : ℕ} (m : System n) : Prop :=
  ∃ h p, m.stands h = some .ticks ∧ m.owner (.proc p) = some h ∧ m.owner .ticks ≠ none

instance {n : ℕ} (m : System n) : Decidable (Spins m) :=
  inferInstanceAs (Decidable (∃ h p, m.stands h = some .ticks ∧ m.owner (.proc p) = some h ∧
    m.owner .ticks ≠ none))

theorem calm_of_not_spins {n : ℕ} {m : System n} (h : ¬Spins m) : m.Calm order := by
  rintro q l held hl hheld ⟨rfl,p,rfl⟩
  by_contra howner
  exact h ⟨q,p,hl,hheld,howner⟩

/-- When nobody who holds the lock of a process ever spins for `tickslock`, no
processors wait for one another in a cycle. -/
theorem no_wait_cycle (n : ℕ) (policy : Policy) {m : System n}
    (hr : Runs (step (code n policy))
      (fun m e => ∀ m' ∈ step (code n policy) m e, ¬Spins m') (boot n policy) m) :
    (∀ h, ¬Relation.TransGen m.Waits h h) ∧
      ∀ h h' p, ¬(m.owner .ticks = some h ∧ m.stands h = some (.proc p) ∧
        m.owner (.proc p) = some h' ∧ m.stands h' = some .ticks) := by
  have hspins : ¬Spins m :=
    hr.invariant (fun ⟨_,_,_,_,howner⟩ => howner rfl) (fun _ _ m' _ hg he => hg m' he)
  obtain ⟨held,hd⟩ := (boot_disciplined n policy).runs (order_sound n policy) hr
  refine ⟨hd.acyclic (calm_of_not_spins hspins),fun h h' p ⟨hticks,_,hproc,hstands⟩ => ?_⟩
  exact hspins ⟨h',p,hstands,hproc,by simp [hticks]⟩

/-- The second processor runs the first process, which calls `fork`; then the
first processor takes a timer interrupt. -/
def forkAndTick (dispatch fork tick : ℕ) : List (Event (Fin 2) Entry) :=
  List.replicate dispatch (.run 1) ++ .trap 1 (.syscall 0 (.fork .ok)) ::
    List.replicate fork (.run 1) ++ .trap 0 .kerneltrap :: List.replicate tick (.run 0)

def afterFork : System 2 :=
  (execute (restrict (step (code 2 .roundRobin))
    (fun m e => ∀ m' ∈ step (code 2 .roundRobin) m e, ¬Spins m')) (boot 2 .roundRobin)
    (forkAndTick 8 23 6)).get (by decide +kernel)

theorem no_wait_cycle_fork :
    afterFork.owner .ticks = some 0 ∧ afterFork.stands 0 = some (.proc 1) ∧
      ∀ h, ¬Relation.TransGen afterFork.Waits h h :=
  ⟨by decide +kernel,by decide +kernel,(no_wait_cycle 2 .roundRobin
    (Runs.of_execute (forkAndTick 8 23 6) (Option.some_get _).symm)).1⟩

/-- `clockintr` holds `tickslock` and wants the lock of a process, while
`allocproc` holds that lock and wants `tickslock`. -/
def Deadlocks (policy : Policy) : Prop :=
  ∃ m, Reachable (step (code 2 policy)) (boot 2 policy) m ∧ m.owner .ticks = some 0 ∧
    m.stands 0 = some (.proc 1) ∧ m.owner (.proc 1) = some 1 ∧ m.stands 1 = some .ticks

theorem fork_deadlocks_with_clock :
    Deadlocks .fifo ∧ Deadlocks .mlfq ∧ Deadlocks .roundRobin := by
  have hrun : ∀ policy dispatch, (∃ h, let m := (execute (restrict (step (code 2 policy))
        (fun _ _ => True)) (boot 2 policy) (forkAndTick dispatch 15 6)).get h
      m.owner .ticks = some 0 ∧ m.stands 0 = some (.proc 1) ∧ m.owner (.proc 1) = some 1 ∧
        m.stands 1 = some .ticks) → Deadlocks policy :=
    fun policy dispatch ⟨_,hm⟩ => ⟨_,Runs.of_execute _ (Option.some_get _).symm,hm⟩
  exact ⟨hrun .fifo 202 (by decide +kernel),hrun .mlfq 11 (by decide +kernel),
    hrun .roundRobin 8 (by decide +kernel)⟩

end CShellXv6.Kernel
