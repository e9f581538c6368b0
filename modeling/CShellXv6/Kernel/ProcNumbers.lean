import CShellXv6.Library.OneProcessor
import CShellXv6.Kernel.Fifo
import CShellXv6.Kernel.Selection

/-! # Process numbers

Each function of the kernel on one hart with the FIFO scheduler, and what it does to the numbers
of the processes. The numbers of the table are distinct and below `nextpid`, and they follow the
order by `ctime` and slot as long as each new process comes last in it. While a process is being
made it has a number and not yet its time, but then its lock is held.
-/
namespace CShellXv6.Kernel
open SpinLock
variable {n : ℕ}

/-! ## The numbers in the table -/

/-- The order in which the scheduler prefers processes. -/
def Data.Before (s : Data n) (p q : Slot) : Prop :=
  (s.proc p).ctime.toInt < (s.proc q).ctime.toInt ∨
    (s.proc p).ctime.toInt = (s.proc q).ctime.toInt ∧ p < q

/-- A process that is made now in this slot comes after all that are in the table. -/
def Data.CreatedLast (s : Data n) (x : Slot) : Prop :=
  ∀ q, q ≠ x → (s.proc q).state ≠ .unused →
    (s.proc q).ctime.toInt < s.ticks.toInt ∨ (s.proc q).ctime.toInt = s.ticks.toInt ∧ q < x

instance (s : Data n) (x : Slot) : Decidable (s.CreatedLast x) :=
  inferInstanceAs (Decidable (∀ _, _ → _ → _))

/-- The numbers in the table, which follow the order of the scheduler if each new process comes
last. -/
structure Numbered (last : Prop) (s : Data n) : Prop where
  positive : 0 < s.nextpid
  below : ∀ x, (s.proc x).pid < s.nextpid
  distinct : ∀ x y, (s.proc x).pid ≠ 0 → (s.proc x).pid = (s.proc y).pid → x = y
  present : ∀ x, (s.proc x).pid ≠ 0 → (s.proc x).state ≠ .unused
  sorted : last → ∀ x y, (s.proc x).pid ≠ 0 → (s.proc x).pid < (s.proc y).pid → s.Before x y

/-- The process is freed, or keeps its number and its time. -/
def Proc.KeepsNumber (q q' : Proc) : Prop :=
  q'.pid = 0 ∧ q'.state = .unused ∨
    q'.pid = q.pid ∧ q'.ctime = q.ctime ∧ (q'.state = .unused → q.state = .unused)

/-- The process is also not made or dispatched. -/
structure Proc.Kept (q q' : Proc) : Prop where
  running : q'.state = .running → q.state = .running
  used : q'.state = .used → q.state = .used
  number : q.KeepsNumber q'

theorem Proc.Kept.of_state {q q' : Proc} (hstate : q'.state = q.state) (hpid : q'.pid = q.pid)
    (hctime : q'.ctime = q.ctime) : q.Kept q' := by
  constructor
  · rw [hstate]
    exact id
  · rw [hstate]
    exact id
  · exact Or.inr ⟨hpid,hctime,hstate.symm.trans⟩

theorem Proc.Kept.of_stopped {q q' : Proc}
    (hstate : q'.state = .sleeping ∨ q'.state = .runnable ∨ q'.state = .zombie)
    (hpid : q'.pid = q.pid) (hctime : q'.ctime = q.ctime) : q.Kept q' := by
  have hne : q'.state ≠ .running ∧ q'.state ≠ .used ∧ q'.state ≠ .unused := by
    rcases hstate with h | h | h
    · simp [h]
    · simp [h]
    · simp [h]
  constructor
  · exact fun h => absurd h hne.1
  · exact fun h => absurd h hne.2.1
  · exact Or.inr ⟨hpid,hctime,fun h => absurd h hne.2.2⟩

theorem Proc.Kept.refl (q : Proc) : q.Kept q := .of_state rfl rfl rfl

theorem Proc.wake_kept (chan : Option Chan) (q : Proc) : q.Kept (q.wake chan) := by
  unfold Proc.wake
  split
  · by_cases hsleep : q.state = .sleeping
    · exact .of_stopped (Or.inr (Or.inl (if_pos hsleep))) rfl rfl
    · exact .of_state (if_neg hsleep) rfl rfl
  · exact .refl q

/-- What a write does to its own process is all that it does. -/
theorem Data.modify_rel {R : Proc → Proc → Prop} (hrefl : ∀ q, R q q) (s : Data n) (p : Slot)
    {f : Proc → Proc} (hf : R (s.proc p) (f (s.proc p))) (x : Slot) :
    R (s.proc x) ((s.modify p f).proc x) := by
  by_cases hx : x = p
  · rw [hx, s.modify_self]
    exact hf
  · rw [s.modify_ne f hx]
    exact hrefl _

theorem Numbered.keep {last : Prop} {s s' : Data n} (h : Numbered last s)
    (hproc : ∀ x, (s.proc x).KeepsNumber (s'.proc x)) (hnext : s.nextpid ≤ s'.nextpid) :
    Numbered last s' := by
  have hsame : ∀ x, (s'.proc x).pid ≠ 0 → (s'.proc x).pid = (s.proc x).pid ∧
      (s'.proc x).ctime = (s.proc x).ctime ∧
      ((s'.proc x).state = .unused → (s.proc x).state = .unused) :=
    fun x hx => (hproc x).resolve_left fun hzero => hx hzero.1
  constructor
  · exact Nat.lt_of_lt_of_le h.positive hnext
  · intro x
    rcases hproc x with ⟨hzero,_⟩ | ⟨hpid,_⟩
    · rw [hzero]
      exact Nat.lt_of_lt_of_le h.positive hnext
    · rw [hpid]
      exact Nat.lt_of_lt_of_le (h.below x) hnext
  · intro x y hx hxy
    have hpid := (hsame x hx).1
    have hpid' := (hsame y (hxy ▸ hx)).1
    exact h.distinct x y (hpid ▸ hx) (by rw [← hpid, ← hpid', hxy])
  · intro x hx hunused
    obtain ⟨hpid,_,hstate⟩ := hsame x hx
    exact h.present x (hpid ▸ hx) (hstate hunused)
  · intro hlast x y hx hxy
    obtain ⟨hpid,hctime,_⟩ := hsame x hx
    obtain ⟨hpid',hctime',_⟩ := hsame y (Nat.ne_zero_of_lt hxy)
    unfold Data.Before
    rw [hctime, hctime']
    exact h.sorted hlast x y (hpid ▸ hx) (by rwa [← hpid, ← hpid'])

/-- A process has been made in a free slot. -/
theorem Numbered.create {last : Prop} {s s' : Data n} (h : Numbered last s) {x : Slot}
    (hfree : (s.proc x).state = .unused) (hlast : last → s.CreatedLast x)
    (hother : ∀ q, q ≠ x → s'.proc q = s.proc q) (hpid : (s'.proc x).pid = s.nextpid)
    (hctime : (s'.proc x).ctime = s.ticks) (hstate : (s'.proc x).state ≠ .unused)
    (hnext : s'.nextpid = s.nextpid + 1) : Numbered last s' := by
  have hbelow : ∀ q, q ≠ x → (s'.proc q).pid < s.nextpid := by
    intro q hq
    rw [hother q hq]
    exact h.below q
  have hle : ∀ q, (s'.proc q).pid ≤ s.nextpid := by
    intro q
    by_cases hq : q = x
    · rw [hq, hpid]
    · exact Nat.le_of_lt (hbelow q hq)
  have hnew : ∀ q, (s'.proc q).pid = s.nextpid → q = x := by
    intro q hq
    by_contra hne
    exact absurd hq (Nat.ne_of_lt (hbelow q hne))
  constructor
  · rw [hnext]
    exact Nat.succ_pos _
  · intro q
    rw [hnext]
    exact Nat.lt_succ_of_le (hle q)
  · intro y z hy hyz
    by_cases hyx : y = x
    · exact hyx.trans (hnew z (by rw [← hyz, hyx, hpid])).symm
    · have hzx : z ≠ x := by
        rintro rfl
        exact hyx (hnew y (hyz.trans hpid))
      rw [hother y hyx] at hy hyz
      rw [hother z hzx] at hyz
      exact h.distinct y z hy hyz
  · intro q hq
    by_cases hqx : q = x
    · rw [hqx]
      exact hstate
    · rw [hother q hqx] at hq ⊢
      exact h.present q hq
  · intro hl y z hy hyz
    have hyx : y ≠ x := by
      rintro rfl
      exact Nat.not_lt_of_le (hle z) (hpid ▸ hyz)
    unfold Data.Before
    rw [hother y hyx] at hy hyz ⊢
    by_cases hzx : z = x
    · rw [hzx, hctime]
      exact hlast hl y hyx (h.present y hy)
    · rw [hother z hzx] at hyz ⊢
      exact h.sorted hl y z hy hyz

/-! ## Writes -/

/-- What every write is shown to do: only the first process is dispatched, with the numbers in
order, a process that is made gets a number, and it keeps it until it is freed. -/
structure Orderly (last : Prop) (s s' : Data n) : Prop where
  chosen : ∀ p, Dispatches s s' p → s.Earliest (List.finRange nproc) (some p) ∧ Numbered last s
  made : ∀ x, (s.proc x).state ≠ .used → (s'.proc x).state = .used → (s'.proc x).pid ≠ 0
  freed : ∀ x, (s'.proc x).pid = 0 → (s.proc x).pid = 0 ∨ (s'.proc x).state = .unused

theorem Orderly.of_kept {last : Prop} {s s' : Data n} (h : ∀ x, (s.proc x).Kept (s'.proc x)) :
    Orderly last s s' := by
  constructor
  · rintro p ⟨hstop,hstart⟩
    exact absurd ((h p).running hstart) hstop
  · intro x hx hx'
    exact absurd ((h x).used hx') hx
  · intro x hx
    rcases (h x).number with ⟨_,hunused⟩ | ⟨hpid,_⟩
    · exact Or.inr hunused
    · exact Or.inl (hpid ▸ hx)

theorem Orderly.of_other {last : Prop} {s s' : Data n} {x : Slot}
    (hother : ∀ q, q ≠ x → s'.proc q = s.proc q)
    (hchosen : Dispatches s s' x → s.Earliest (List.finRange nproc) (some x) ∧ Numbered last s)
    (hmade : (s.proc x).state ≠ .used → (s'.proc x).state = .used → (s'.proc x).pid ≠ 0)
    (hfreed : (s'.proc x).pid = 0 → (s.proc x).pid = 0 ∨ (s'.proc x).state = .unused) :
    Orderly last s s' := by
  constructor
  · rintro q ⟨hstop,hstart⟩
    by_cases hq : q = x
    · subst hq
      exact hchosen ⟨hstop,hstart⟩
    · rw [hother q hq] at hstart
      exact absurd hstart hstop
  · intro q hq hq'
    by_cases hqx : q = x
    · subst hqx
      exact hmade hq hq'
    · rw [hother q hqx] at hq'
      exact absurd hq' hq
  · intro q hq
    by_cases hqx : q = x
    · subst hqx
      exact hfreed hq
    · rw [hother q hqx] at hq
      exact Or.inl hq

/-- A write to one process that changes neither its state nor its number. -/
theorem Orderly.modify (last : Prop) (s : Data n) (x : Slot) {f : Proc → Proc}
    (hstate : (f (s.proc x)).state = (s.proc x).state)
    (hpid : (f (s.proc x)).pid = (s.proc x).pid) : Orderly last s (s.modify x f) := by
  apply Orderly.of_other fun q => s.modify_ne f
  · rintro ⟨hstop,hstart⟩
    rw [s.modify_self, hstate] at hstart
    exact absurd hstart hstop
  · intro hused hused'
    rw [s.modify_self, hstate] at hused'
    exact absurd hused' hused
  · rw [s.modify_self, hpid]
    exact Or.inl

/-- The regime of the kernel on one hart. -/
def numbering (last : Prop) : Regime Entry (Data n) where
  Quiet := Numbered last
  Idle s := ∀ h, s.cpu h = none
  Assumed s s' := last → ∀ x, (s.proc x).state = .unused → (s'.proc x).state = .used →
    s.CreatedLast x
  Shown := Orderly last
  sched
    | .scheduler => true
    | .schedReturn _ => true
    | _ => false

abbrev Orders (last : Prop) (b : Bool) (k : Thread n) : Prop := (numbering last).Keeps b k

section Programs
variable {last : Prop} {b : Bool} {p : Slot} {k : Thread n}

theorem act_orders {f : Data n → Data n} (hk : Orders last b k)
    (hproc : ∀ (s : Data n) x, (s.proc x).Kept ((f s).proc x))
    (hnext : ∀ s : Data n, s.nextpid ≤ (f s).nextpid) (hcpu : ∀ s : Data n, (f s).cpu = s.cpu) :
    Orders last b (.act f k : Thread n) := by
  refine ⟨fun s hs _ => ⟨Orderly.of_kept (hproc s),?_⟩,hk⟩
  refine ⟨Numbered.keep hs.1 (fun x => (hproc s x).number) (hnext s),fun hb h => ?_⟩
  rw [hcpu]
  exact hs.2 hb h

theorem write_orders {f : Proc → Proc} (hf : ∀ q : Proc, q.Kept (f q)) (hk : Orders last b k) :
    Orders last b (write p f k) :=
  act_orders hk (fun s => s.modify_rel Proc.Kept.refl p (hf _)) (fun _ => Nat.le_refl _)
    (fun _ => rfl)

theorem wakeup_orders (chan : Option Chan) (hk : Orders last b k) :
    Orders last b (wakeup chan k) := by
  refine Regime.Keeps.foldr hk (fun p k hk => ?_) _
  exact write_orders (p := p) (Proc.wake_kept chan) hk

theorem sched_orders (hk : Orders last false k) : Orders last false (sched p k) := by
  intro _ s _
  dsimp only
  split
  · trivial
  · exact ⟨rfl,rfl,hk⟩

theorem yield_orders (hk : Orders last false k) : Orders last false (yield p k) :=
  write_orders (fun _ => .of_stopped (Or.inr (Or.inl rfl)) rfl rfl) (sched_orders hk)

theorem sleepPrepare_orders (chan : Chan) (hk : Orders last b k) :
    Orders last b (sleepPrepare p chan k) := write_orders (fun _ => .of_state rfl rfl rfl) hk

theorem sleep_orders (hk : Orders last false k) : Orders last false (sleep .fifo p k) := by
  intro _ s _
  dsimp only
  split
  · exact write_orders (fun _ => .of_stopped (Or.inl rfl) rfl rfl) (sched_orders hk)
  · exact hk

theorem setkilled_orders (hk : Orders last b k) : Orders last b (setkilled p k) :=
  write_orders (fun _ => .of_state rfl rfl rfl) hk

theorem killed_orders {k : Bool → Thread n} (hk : ∀ v, Orders last b (k v)) :
    Orders last b (killed p k) := fun _ s _ => hk (s.proc p).killed

theorem reparent_orders (hk : Orders last b k) : Orders last b (reparent p k) := by
  refine Regime.Keeps.foldr hk (fun pp k hk => ?_) _
  intro _ s _
  dsimp only
  split
  · exact write_orders (fun _ => .of_state rfl rfl rfl) (wakeup_orders _ hk)
  · exact hk

theorem kexit_orders (status : ℤ) : Orders last false (kexit p status : Thread n) := by
  intro _ s _
  dsimp only
  split
  · trivial
  refine reparent_orders (fun _ s _ => wakeup_orders _ fun _ s _ => ?_)
  refine write_orders (fun _ => .of_state rfl rfl rfl) ?_
  refine write_orders (fun _ => .of_stopped (Or.inr (Or.inr rfl)) rfl rfl) ?_
  exact sched_orders (p := p) trivial

theorem userReturn_orders : Orders last false (userReturn p : Thread n) := by
  refine killed_orders (fun v => ?_)
  split
  · exact kexit_orders _
  · trivial

theorem ret_orders (value : ℤ) : Orders last false (ret p value : Thread n) :=
  write_orders (fun _ => .of_state rfl rfl rfl) userReturn_orders

theorem freeproc_orders (hk : Orders last b k) : Orders last b (freeproc p k) :=
  write_orders (fun _ => ⟨nofun,nofun,Or.inl ⟨rfl,rfl⟩⟩) hk

theorem waitScan_orders (call : WaitCall) (l : List Slot) (havekids : Bool) :
    Orders last false (waitScan .fifo p call l havekids : Thread n) := by
  induction l generalizing havekids with
  | nil =>
    cases havekids with
    | false => exact ret_orders _
    | true =>
      refine killed_orders (fun v => ?_)
      split
      · exact ret_orders _
      · have hloop : Orders last false (.acquire .wait (.goto (.waitLoop p call)) : Thread n) := rfl
        exact sleepPrepare_orders _ (sleep_orders hloop)
  | cons pp rest ih =>
    intro _ s _
    dsimp only
    split
    · intro _ s _
      dsimp only
      split
      · split
        · exact write_orders (fun _ => .of_state rfl rfl rfl) (freeproc_orders (ret_orders _))
        · exact ret_orders _
      · exact ih true
    · exact ih havekids

theorem waitLoop_orders (call : WaitCall) :
    Orders last false (waitLoop .fifo p call : Thread n) := waitScan_orders call _ false

theorem kkill_orders (pid : ℕ) : Orders last false (kkill p pid : Thread n) := by
  unfold kkill
  induction List.finRange nproc with
  | nil => exact ret_orders _
  | cons q rest ih =>
    intro _ s _
    dsimp only
    split
    · refine write_orders (fun q => ?_) (ret_orders _)
      by_cases hsleep : q.state = .sleeping
      · exact .of_stopped (Or.inr (Or.inl (if_pos hsleep))) rfl rfl
      · exact .of_state (if_neg hsleep) rfl rfl
    · exact ih

theorem clockintr_orders (hk : Orders last b k) : Orders last b (clockintr k) := by
  intro h s _
  dsimp only
  split
  · exact act_orders (wakeup_orders _ hk) (fun _ _ => .refl _) (fun _ => Nat.le_refl _)
      (fun _ => rfl)
  · exact hk

theorem countWaiting_orders (hk : Orders last b k) : Orders last b (countWaiting p k) := by
  refine Regime.Keeps.foldr hk (fun rp k hk => ?_) _
  split
  · exact write_orders (fun _ => .of_state rfl rfl rfl) hk
  · exact hk

theorem timer_orders : Orders last false (timer .fifo p : Thread n) := by
  refine clockintr_orders (killed_orders (fun v => ?_))
  split
  · exact kexit_orders _
  · exact write_orders (fun _ => .of_state rfl rfl rfl) (countWaiting_orders trivial)

theorem kerneltrap_orders : Orders last b (kerneltrap : Thread n) := by
  refine clockintr_orders (fun h s hs => ?_)
  cases b with
  | false =>
    dsimp only
    split
    · exact yield_orders trivial
    · trivial
  | true =>
    dsimp only
    rw [hs.2 rfl h]
    trivial

theorem pauseLoop_orders (ticks ticks0 : BitVec 32) :
    Orders last false (pauseLoop .fifo p ticks ticks0 : Thread n) := by
  intro _ s _
  dsimp only
  split
  · refine killed_orders (fun v => ?_)
    split
    · exact ret_orders _
    · have hloop : Orders last false
          (.acquire .ticks (.goto (.pauseLoop p ticks ticks0)) : Thread n) := rfl
      exact sleepPrepare_orders _ (sleep_orders hloop)
  · exact ret_orders _

/-! ## Fork -/

abbrev Safe (last : Prop) (h : Fin n) (k : Thread n) (b : Bool) (locks : ℕ) (s : Data n) : Prop :=
  (numbering last).Safe h k b locks s

theorem safe_of_orders {h : Fin n} {l : ℕ} {s : Data n} (hk : Orders last false k)
    (hs : Numbered last s) : Safe last h k false l s :=
  Regime.Keeps.safe h hk l (.of_quiet hs)

/-- The slot `x` of the table `s` has been claimed for a new process, whose lock is held. -/
structure Claimed (s : Data n) (x : Slot) (t : Data n) : Prop where
  other : ∀ q, q ≠ x → t.proc q = s.proc q
  pid : (t.proc x).pid = s.nextpid
  state : (t.proc x).state = .used
  nextpid : t.nextpid = s.nextpid + 1
  ticks : t.ticks = s.ticks

variable {h : Fin n} {s t : Data n} {x : Slot}

theorem Claimed.modify (ht : Claimed s x t) {f : Proc → Proc}
    (hstate : (f (t.proc x)).state = (t.proc x).state)
    (hpid : (f (t.proc x)).pid = (t.proc x).pid) : Claimed s x (t.modify x f) := by
  constructor
  · intro q hq
    rw [t.modify_ne f hq, ht.other q hq]
  · rw [t.modify_self, hpid, ht.pid]
  · rw [t.modify_self, hstate, ht.state]
  · exact ht.nextpid
  · exact ht.ticks

theorem Claimed.write_safe (ht : Claimed s x t) {f : Proc → Proc} {l : ℕ}
    (hstate : ∀ q : Proc, (f q).state = q.state) (hpid : ∀ q : Proc, (f q).pid = q.pid)
    (hk : ∀ t', Claimed s x t' → t'.proc x = f (t.proc x) → Safe last h k false (l + 1) t') :
    Safe last h (write x f k) false (l + 1) t := fun _ =>
  ⟨Orderly.modify last t x (hstate _) (hpid _),
    hk _ (ht.modify (hstate _) (hpid _)) (t.modify_self x f)⟩

theorem Claimed.orderly (hs : Numbered last s) (ht : Claimed s x t) {s' : Data n}
    (hsame : s'.proc = s.proc) : Orderly last s' t := by
  have hpid : (t.proc x).pid ≠ 0 := ht.pid ▸ Nat.ne_of_gt hs.positive
  apply Orderly.of_other fun q hq => (ht.other q hq).trans (congrFun hsame q).symm
  · rintro ⟨_,hstart⟩
    rw [ht.state] at hstart
    cases hstart
  · exact fun _ _ => hpid
  · exact fun hzero => absurd hzero hpid

/-- The new process is given up. -/
theorem Claimed.freeproc_safe (hs : Numbered last s) (ht : Claimed s x t)
    (hk : ∀ t, Numbered last t → Safe last h k false 0 t) :
    Safe last h (freeproc x (.release (.proc x) k)) false 1 t := by
  have hfreed : ∀ q : Proc, q.Kept { q with
      pid := 0, chan := none, killed := false, xstate := 0, state := .unused } :=
    fun _ => ⟨nofun,nofun,Or.inl ⟨rfl,rfl⟩⟩
  refine fun _ => ⟨Orderly.of_kept (t.modify_rel Proc.Kept.refl x (hfreed _)),?_,hk⟩
  refine hs.keep (fun q => ?_) (ht.nextpid ▸ Nat.le_succ _)
  by_cases hq : q = x
  · rw [hq, Data.modify_self]
    exact Or.inl ⟨rfl,rfl⟩
  · rw [Data.modify_ne _ _ hq, ht.other q hq]
    exact (Proc.Kept.refl _).number

theorem Claimed.stamp_safe (hs : Numbered last s) (ht : Claimed s x t)
    (hfree : (s.proc x).state = .unused) (hlast : last → s.CreatedLast x)
    (hk : ∀ t, Numbered last t → Safe last h k false 1 t) :
    Safe last h (.spawn x (.forkret x) (write x (fun q => { q with priority := 0, ticksUsed := 0 })
      (.acquire .ticks (.look fun _ s =>
        write x (fun q => { q with ctime := s.ticks }) (.release .ticks
          (write x (fun q => { q with rtime := 0, wtime := 0, etime := 0, firstRun := -1 })
            k)))))) false 1 t := by
  refine ⟨rfl,ht.write_safe (fun _ => rfl) (fun _ => rfl) fun t ht _ => ?_⟩
  refine ht.write_safe (l := 1) (fun _ => rfl) (fun _ => rfl) fun t' ht' hstamp => ?_
  refine ht'.write_safe (fun _ => rfl) (fun _ => rfl) fun t'' ht'' hreset => hk t'' ?_
  have hctime : (t''.proc x).ctime = s.ticks := by
    rw [hreset, hstamp, ht.ticks]
  exact hs.create hfree hlast ht''.other ht''.pid hctime (by simp [ht''.state]) ht''.nextpid

/-- The lock of the new process is held until it has its number and its time. -/
theorem allocFound_safe (alloc : Alloc) {k : Option Slot → Thread n}
    (hnone : ∀ s, Numbered last s → Safe last h (k none) false 0 s)
    (hsome : ∀ s, Numbered last s → Safe last h (k (some x)) false 1 s) (hs : Numbered last s)
    (hfree : (s.proc x).state = .unused) : Safe last h (allocFound alloc x k) false 1 s := by
  intro _
  refine ⟨Orderly.of_kept fun x => .refl _,fun hassumed => ?_⟩
  have hlast : last → s.CreatedLast x := fun hl => hassumed hl x hfree (by simp)
  have hclaimed : Claimed s x (Data.modify x (fun q => { q with pid := s.nextpid, state := .used })
      { s with nextpid := s.nextpid + 1 }) := by
    constructor
    · intro q hq
      exact Data.modify_ne _ _ hq
    · rw [Data.modify_self]
    · rw [Data.modify_self]
    · rfl
    · rfl
  refine ⟨hclaimed.orderly hs rfl,?_⟩
  cases alloc with
  | ok => exact hclaimed.stamp_safe hs hfree hlast hsome
  | noTrapframe => exact hclaimed.freeproc_safe hs hnone
  | noPagetable => exact hclaimed.freeproc_safe hs hnone
  | noCopy => exact hclaimed.stamp_safe hs hfree hlast hsome

theorem allocproc_safe (alloc : Alloc) {k : Option Slot → Thread n}
    (hnone : ∀ s, Numbered last s → Safe last h (k none) false 0 s)
    (hsome : ∀ x s, Numbered last s → Safe last h (k (some x)) false 1 s) (hs : Numbered last s) :
    Safe last h (allocproc alloc k) false 0 s := by
  unfold allocproc
  induction List.finRange nproc generalizing s with
  | nil => exact hnone s hs
  | cons x rest ih =>
    show Safe last h (if (s.proc x).state = .unused then allocFound alloc x k
      else .release (.proc x) (allocScan alloc k rest)) false 1 s
    split
    · next hfree => exact allocFound_safe alloc hnone (hsome x) hs hfree
    · exact ⟨hs,fun s' hs' => ih hs'⟩

theorem kfork_safe (alloc : Alloc) (hs : Numbered last s) :
    Safe last h (kfork p alloc) false 0 s := by
  refine allocproc_safe alloc (fun s hs => safe_of_orders (ret_orders _) hs) (fun np s hs => ?_) hs
  refine safe_of_orders ?_ hs
  dsimp only
  split
  · exact freeproc_orders (ret_orders _)
  · refine write_orders (fun _ => .of_state rfl rfl rfl) (fun _ s _ => ?_)
    refine write_orders (p := np) (fun _ => .of_state rfl rfl rfl) ?_
    refine write_orders (p := np) (fun _ => .of_stopped (Or.inr (Or.inl rfl)) rfl rfl) ?_
    exact ret_orders _

theorem syscall_safe (call : Syscall) (hs : Numbered last s) :
    Safe last h (syscall p call) false 0 s := by
  refine ⟨hs,fun s hs => ?_⟩
  dsimp only
  split
  · exact safe_of_orders (kexit_orders _) hs
  cases call with
  | fork alloc => exact kfork_safe alloc hs
  | exit status => exact safe_of_orders (kexit_orders status) hs
  | wait xstate => exact ⟨rfl,.of_quiet hs⟩
  | waitx xstate rtime wtime retime => exact ⟨rfl,.of_quiet hs⟩
  | pause ticks => exact ⟨rfl,.of_quiet hs⟩
  | kill pid => exact safe_of_orders (kkill_orders pid) hs
  | uptime => exact ⟨hs,fun s hs => safe_of_orders (ret_orders _) hs⟩

/-! ## The scheduler -/

theorem dispatch_safe {e : Slot} (hs : Numbered last s)
    (he : s.Earliest (List.finRange nproc) (some e)) : Safe last h (dispatch e) true 1 s := by
  have hself : (s.modify e fun q => { q with state := .running }).proc e =
      { s.proc e with state := .running } := s.modify_self e _
  have horderly : Orderly last s (s.modify e fun q => { q with state := .running }) := by
    apply Orderly.of_other fun q => s.modify_ne _
    · exact fun _ => ⟨he,hs⟩
    · intro _ hused
      rw [hself] at hused
      cases hused
    · rw [hself]
      exact Or.inl
  refine fun _ => ⟨horderly,fun _ => ⟨Orderly.of_kept fun _ => .refl _,rfl,?_⟩⟩
  have hnumber := s.modify_rel (f := fun q => { q with state := .running })
    (fun q => (Proc.Kept.refl q).number) e (Or.inr ⟨rfl,rfl,nofun⟩)
  exact hs.keep hnumber (Nat.le_refl _)

/-- A write that changes no time and no state does not change who is first. -/
theorem Data.Earliest.modify {table : List Slot} {e : Option Slot} (he : s.Earliest table e)
    (x : Slot) {f : Proc → Proc} (hstate : ∀ q : Proc, (f q).state = q.state)
    (hctime : ∀ q : Proc, (f q).ctime = q.ctime) : (s.modify x f).Earliest table e := by
  have hsame : ∀ q, ((s.modify x f).proc q).state = (s.proc q).state ∧
      ((s.modify x f).proc q).ctime = (s.proc q).ctime :=
    s.modify_rel (R := fun q q' => q'.state = q.state ∧ q'.ctime = q.ctime)
      (fun _ => ⟨rfl,rfl⟩) x ⟨hstate _,hctime _⟩
  cases e with
  | none =>
    intro p hp
    rw [(hsame p).1]
    exact he p hp
  | some e =>
    refine ⟨he.1,(hsame e).1.trans he.2.1,fun p hp hrun => ?_⟩
    rw [(hsame p).1] at hrun
    rw [(hsame e).2, (hsame p).2]
    exact he.2.2 p hp hrun

/-- The end of the scan with a process found, whose lock is held. -/
theorem fifoFound_safe {e : Slot} (hs : Numbered last s)
    (he : s.Earliest (List.finRange nproc) (some e)) :
    Safe last h (fifoScan [] (some e)) true 1 s := by
  show Safe last h (if (s.proc e).firstRun = -1 then _ else dispatch e) true 1 s
  split
  · have hkept := s.modify_rel (f := fun q => { q with firstRun := s.ticks }) Proc.Kept.refl e
      (.of_state rfl rfl rfl)
    refine fun _ => ⟨Orderly.of_kept hkept,dispatch_safe ?_ ?_⟩
    · exact hs.keep (fun x => (hkept x).number) (Nat.le_refl _)
    · exact he.modify e (fun _ => rfl) (fun _ => rfl)
  · exact dispatch_safe hs he

theorem fifoScan_safe (hs : (numbering last).Steady true s) {table rest : List Slot}
    {e : Option Slot} (htable : table ++ rest = List.finRange nproc) (he : s.Earliest table e) :
    Safe last h (fifoScan rest e) true e.toList.length s := by
  induction rest generalizing table e with
  | nil =>
    rw [List.append_nil] at htable
    rw [htable] at he
    cases e with
    | none => exact ⟨rfl,hs⟩
    | some e => exact fifoFound_safe hs.1 he
  | cons p rest ih =>
    have hlast : ∀ q ∈ table, q < p := by
      have hsorted := List.pairwise_lt_finRange nproc
      rw [← htable] at hsorted
      exact fun q hq => (List.pairwise_append.mp hsorted).2.2 q hq p List.mem_cons_self
    have hbetter := he.better hlast
    rw [List.append_cons] at htable
    have hnext := ih htable hbetter
    cases e with
    | none =>
      show Safe last h (if (s.proc p).state = .runnable then fifoScan rest (some p)
        else .release (.proc p) (fifoScan rest none)) true 1 s
      simp only [Data.better] at hnext
      split
      · next hrun =>
        rw [if_pos hrun] at hnext
        exact hnext
      · next hrun =>
        rw [if_neg hrun] at hnext
        exact ⟨hs,hnext⟩
    | some e =>
      show Safe last h (if (s.proc p).state = .runnable ∧ (s.proc p).ctime.slt (s.proc e).ctime then
          .release (.proc e) (fifoScan rest (some p))
        else .release (.proc p) (fifoScan rest (some e))) true 2 s
      simp only [Data.better] at hnext
      split
      · next hrun =>
        rw [if_pos hrun] at hnext
        exact hnext
      · next hrun =>
        rw [if_neg hrun] at hnext
        exact hnext

theorem scheduler_safe (hs : (numbering last).Steady true s) :
    Safe last h (scheduler .fifo) true 0 s :=
  fifoScan_safe hs (List.nil_append _) (e := none) nofun

end Programs

/-- Back in the scheduler, the hart runs no process. -/
theorem schedReturn_safe {last : Prop} {h : Fin 1} {s : Data 1} (p : Slot)
    (hs : Numbered last s) : Safe last h (schedReturn .fifo p) true 1 s := by
  have hsteady : (numbering last).Steady true
      { s with cpu := Function.update s.cpu h none } := by
    refine ⟨hs.keep (fun x => (Proc.Kept.refl _).number) (Nat.le_refl _),fun _ h' => ?_⟩
    rw [Subsingleton.elim h' h]
    exact Function.update_self _ _ _
  exact fun _ => ⟨Orderly.of_kept fun _ => .refl _,hsteady,rfl,hsteady⟩

theorem numbering_sound (last : Prop) (h : Fin 1) :
    (numbering last).Sound (code 1 .fifo) order .scheduler h := by
  constructor
  · exact ⟨rfl,rfl⟩
  · intro e s hs hidle
    cases e with
    | scheduler => exact scheduler_safe ⟨hs,fun _ => hidle rfl rfl⟩
    | schedReturn p => exact schedReturn_safe p hs
    | forkret p => exact ⟨hs,fun _ => .of_quiet⟩
    | syscall p call => exact syscall_safe call hs
    | waitLoop p call => exact safe_of_orders (waitLoop_orders call) hs
    | pauseLoop p ticks ticks0 => exact safe_of_orders (pauseLoop_orders ticks ticks0) hs
    | timer p => exact safe_of_orders timer_orders hs
    | fault p => exact safe_of_orders (setkilled_orders userReturn_orders) hs
    | kerneltrap => exact safe_of_orders kerneltrap_orders hs
  · intro s user e he
    cases e with
    | scheduler => cases he
    | schedReturn p => cases he
    | _ => rfl
  · intro s e he hs
    cases e with
    | kerneltrap => exact Regime.Keeps.safe h kerneltrap_orders 0 hs
    | _ => cases he

end CShellXv6.Kernel
