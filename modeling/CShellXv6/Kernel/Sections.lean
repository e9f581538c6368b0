import CShellXv6.Kernel.Uniprocessor

/-! # What a step of the kernel can do

Most of the kernel only wakes sleeping processes. A section of a system call
leaves the queues and the other runnable processes alone, and gives up the hart
or returns to user mode with the process that runs it.
-/
namespace CShellXv6.Mlfq
open Kernel (nproc Slot ProcState sliceTicks)

@[simp] theorem System.modify_self (s : System) (p : Slot) (f : Proc → Proc) :
    (s.modify p f).proc p = f (s.proc p) := Function.update_self p _ s.proc

@[simp] theorem System.modify_ne (s : System) {p q : Slot} (f : Proc → Proc) (h : q ≠ p) :
    (s.modify p f).proc q = s.proc q := Function.update_of_ne h _ s.proc

theorem System.modify_modify (s : System) (p : Slot) (f g : Proc → Proc) :
    (s.modify p f).modify p g = s.modify p (fun q => g (f q)) := by
  simp [System.modify]

theorem System.modify_congr (s : System) (p : Slot) {f g : Proc → Proc}
    (h : f (s.proc p) = g (s.proc p)) : s.modify p f = s.modify p g := by
  simp [System.modify,h]

/-! ## Waking -/

/-- The only change to the states is that sleeping processes become runnable. -/
structure Woken (s t : System) : Prop where
  state : ∀ q, (t.proc q).state = (s.proc q).state ∨
    (s.proc q).state = .sleeping ∧ (t.proc q).state = .runnable
  priority : ∀ q, (t.proc q).priority = (s.proc q).priority
  fork : t.fork = s.fork
  cpu : t.cpu = s.cpu
  ticks : t.ticks = s.ticks
  boosted : t.mlfqTicksSinceBoost = s.mlfqTicksSinceBoost

theorem Woken.refl (s : System) : Woken s s :=
  ⟨fun _ => Or.inl rfl,fun _ => rfl,rfl,rfl,rfl,rfl⟩

theorem Woken.trans {s t u : System} (h : Woken s t) (k : Woken t u) : Woken s u := by
  refine ⟨fun q => ?_,fun q => (k.priority q).trans (h.priority q),k.fork.trans h.fork,
    k.cpu.trans h.cpu,k.ticks.trans h.ticks,k.boosted.trans h.boosted⟩
  rcases h.state q with hst | ⟨hsleep,hrun⟩
  · rcases k.state q with htu | ⟨hsleep,hrun⟩
    · exact Or.inl (htu.trans hst)
    · exact Or.inr ⟨hst.symm.trans hsleep,hrun⟩
  · rcases k.state q with htu | ⟨hsleep',_⟩
    · exact Or.inr ⟨hsleep,htu.trans hrun⟩
    · rw [hrun] at hsleep'
      cases hsleep'

theorem Woken.keeps {s t : System} (h : Woken s t) {q : Slot} {st : ProcState}
    (hq : (s.proc q).state = st) (hst : st ≠ .sleeping) : (t.proc q).state = st := by
  rcases h.state q with heq | ⟨hsleep,_⟩
  · exact heq.trans hq
  · exact absurd (hq.symm.trans hsleep) hst

theorem modify_woken (s : System) (p : Slot) {f : Proc → Proc}
    (hstate : (f (s.proc p)).state = (s.proc p).state ∨
      (s.proc p).state = .sleeping ∧ (f (s.proc p)).state = .runnable)
    (hpriority : (f (s.proc p)).priority = (s.proc p).priority) : Woken s (s.modify p f) := by
  refine ⟨fun q => ?_,fun q => ?_,rfl,rfl,rfl,rfl⟩
  · by_cases hq : q = p
    · rw [hq, s.modify_self]
      exact hstate
    · exact Or.inl (by rw [s.modify_ne f hq])
  · by_cases hq : q = p
    · rw [hq, s.modify_self]
      exact hpriority
    · rw [s.modify_ne f hq]

theorem wakeup_woken (s : System) (chan : Option Chan) : Woken s (s.wakeup chan) := by
  refine ⟨fun q => ?_,fun q => ?_,rfl,rfl,rfl,rfl⟩
  · show ((s.proc q).wake chan).state = _ ∨ _ ∧ ((s.proc q).wake chan).state = _
    unfold Proc.wake
    split
    · by_cases hsleep : (s.proc q).state = .sleeping
      · exact Or.inr ⟨hsleep,by simp [hsleep]⟩
      · exact Or.inl (by simp [hsleep])
    · exact Or.inl rfl
  · show ((s.proc q).wake chan).priority = _
    unfold Proc.wake
    split
    · rfl
    · rfl

theorem clockintr_woken (s : System) : Woken { s with ticks := s.ticks + 1 } s.clockintr :=
  wakeup_woken _ _

theorem countTick_woken (s : System) (p : Slot) : Woken s (s.countTick p) := by
  have hcell : ∀ q, ((s.countTick p).proc q).state = (s.proc q).state ∧
      ((s.countTick p).proc q).priority = (s.proc q).priority := by
    intro q
    simp only [System.countTick]
    split
    · exact ⟨rfl,rfl⟩
    · split
      · exact ⟨rfl,rfl⟩
      · exact ⟨rfl,rfl⟩
  exact ⟨fun q => Or.inl (hcell q).1,fun q => (hcell q).2,rfl,rfl,rfl,rfl⟩

theorem reparent_woken (s : System) (p : Slot) : Woken s (s.reparent p) := by
  unfold System.reparent
  generalize List.finRange nproc = slots
  induction slots generalizing s with
  | nil => exact Woken.refl s
  | cons pp rest ih =>
    rw [List.foldl_cons]
    refine Woken.trans ?_ (ih _)
    split
    · exact (modify_woken s pp (Or.inl rfl) rfl).trans (wakeup_woken _ _)
    · exact Woken.refl s

/-! ## The invariant -/

def Cpu.current : Cpu → Option Slot
  | .scheduler => none
  | .user p => some p
  | .timerTail p => some p
  | .kernel p _ => some p

def Fork.child : Fork → Option Slot
  | .none => Option.none
  | .allocated np => some np
  | .adopted np => some np

/-- The process on the hart is marked as running, a child that is being made is
marked as used and belongs to one parent, and the queues are those of
`slice_ticks`. -/
structure Ok (s : System) : Prop where
  running : ∀ p, s.cpu.current = some p → (s.proc p).state = .running
  used : ∀ p np, (s.fork p).child = some np → (s.proc np).state = .used
  distinct : ∀ p p' np, (s.fork p).child = some np → (s.fork p').child = some np → p = p'
  priority : ∀ p, (s.proc p).priority ≤ 3

theorem Ok.woken {s t : System} (hs : Ok s) (h : Woken s t) : Ok t := by
  refine ⟨fun p hp => ?_,fun p np hnp => ?_,?_,fun p => ?_⟩
  · rw [h.cpu] at hp
    exact h.keeps (hs.running p hp) (by decide)
  · rw [h.fork] at hnp
    exact h.keeps (hs.used p np hnp) (by decide)
  · rw [h.fork]
    exact hs.distinct
  · rw [h.priority p]
    exact hs.priority p

theorem boot_ok : Ok boot := by
  refine ⟨fun p hp => ?_,fun p np hnp => ?_,fun p p' np hnp => ?_,fun p => ?_⟩
  · cases hp
  · cases hnp
  · cases hnp
  simp only [boot]
  split
  · decide
  · decide

/-- A change to the process `x`, which may become the one that runs, or a child
that `p` is making. -/
theorem Ok.change {s t : System} (hs : Ok s) {p x : Slot}
    (hother : ∀ q, q ≠ x → t.proc q = s.proc q)
    (hcpu : ∀ q, t.cpu.current = some q → q = x ∧ (t.proc x).state = .running ∨
      q ≠ x ∧ s.cpu.current = some q)
    (hfork : ∀ q c, (t.fork q).child = some c → c ≠ x ∧ (s.fork q).child = some c ∨
      c = x ∧ q = p ∧ (t.proc x).state = .used)
    (hpriority : (t.proc x).priority ≤ 3) : Ok t := by
  refine ⟨fun q hq => ?_,fun q c hc => ?_,fun q q' c hc hc' => ?_,fun q => ?_⟩
  · rcases hcpu q hq with ⟨rfl,hrun⟩ | ⟨hne,hcur⟩
    · exact hrun
    · rw [hother q hne, hs.running q hcur]
  · rcases hfork q c hc with ⟨hne,hold⟩ | ⟨rfl,_,hused⟩
    · rw [hother c hne, hs.used q c hold]
    · exact hused
  · rcases hfork q c hc with ⟨hne,hold⟩ | ⟨heq,hq,_⟩
    · rcases hfork q' c hc' with ⟨_,hold'⟩ | ⟨heq,_,_⟩
      · exact hs.distinct q q' c hold hold'
      · exact absurd heq hne
    · rcases hfork q' c hc' with ⟨hne,_⟩ | ⟨_,hq',_⟩
      · exact absurd heq hne
      · rw [hq, hq']
  · by_cases hq : q = x
    · rw [hq]
      exact hpriority
    · rw [hother q hq]
      exact hs.priority q

/-- The child of a fork is none of the processes in another state. -/
theorem Ok.child_ne {s : System} (hs : Ok s) {x : Slot} (hx : (s.proc x).state ≠ .used) {q c : Slot}
    (hc : (s.fork q).child = some c) : c ≠ x := by
  rintro rfl
  exact hx (hs.used q c hc)

/-- The process on the hart is none of the processes in another state. -/
theorem Ok.current_ne {s : System} (hs : Ok s) {x : Slot} (hx : (s.proc x).state ≠ .running)
    {q : Slot} (hq : s.cpu.current = some q) : q ≠ x := by
  rintro rfl
  exact hx (hs.running q hq)

/-- The process on the hart switches to the scheduler. -/
theorem Ok.sched {s : System} (hs : Ok s) {p : Slot} (hp : s.cpu.current = some p)
    {f : Proc → Proc} (hpriority : (f (s.proc p)).priority ≤ 3) (t : Thread) :
    Ok ((s.modify p f).sched p t) := by
  have hrun := hs.running p hp
  refine hs.change (p := p) (x := p) (fun q => s.modify_ne f) (fun q hq => ?_)
    (fun q c hc => Or.inl ⟨?_,hc⟩) ?_
  · cases hq
  · exact hs.child_ne (by simp [hrun]) hc
  · simpa [System.sched] using hpriority

theorem Ok.resume {s : System} (hs : Ok s) {p : Slot} (hp : (s.proc p).state = .running) {cpu : Cpu}
    (hcpu : cpu.current = some p) : Ok { s with cpu } := by
  refine ⟨fun q hq => ?_,hs.used,hs.distinct,hs.priority⟩
  rw [Option.some.inj (hq.symm.trans hcpu)]
  exact hp

/-! ## Sections of system calls -/

/-- What a section does for the process `p` that runs it. -/
structure Effect (s t : System) (p : Slot) : Prop where
  ok : Ok t
  cpu : t.cpu = s.cpu ∨ t.cpu = .scheduler ∨ s.cpu = .kernel p true ∧ t.cpu = .user p
  runnable : ∀ q, (s.proc q).state = .runnable → (t.proc q).state = .runnable
  priority : ∀ q, (s.proc q).state ≠ .unused → (t.proc q).priority = (s.proc q).priority
  ticks : t.ticks = s.ticks
  boosted : t.mlfqTicksSinceBoost = s.mlfqTicksSinceBoost

theorem Effect.of_woken {s t : System} (hs : Ok s) (h : Woken s t) (p : Slot) : Effect s t p :=
  ⟨hs.woken h,Or.inl h.cpu,fun _ hq => h.keeps hq (by decide),fun q _ => h.priority q,h.ticks,
    h.boosted⟩

/-- A change to one process that is not runnable. -/
theorem Effect.change {s t : System} {p x : Slot} (ht : Ok t)
    (hother : ∀ q, q ≠ x → t.proc q = s.proc q) (hx : (s.proc x).state ≠ .runnable)
    (hpriority : (s.proc x).state ≠ .unused → (t.proc x).priority = (s.proc x).priority)
    (hcpu : t.cpu = s.cpu ∨ t.cpu = .scheduler) (hticks : t.ticks = s.ticks)
    (hboosted : t.mlfqTicksSinceBoost = s.mlfqTicksSinceBoost) : Effect s t p := by
  refine ⟨ht,hcpu.imp id Or.inl,fun q hq => ?_,fun q hq => ?_,hticks,hboosted⟩
  · have hne : q ≠ x := by
      rintro rfl
      exact hx hq
    rw [hother q hne, hq]
  · by_cases hqx : q = x
    · rw [hqx] at hq ⊢
      exact hpriority hq
    · rw [hother q hqx]

theorem Effect.after_woken {s t u : System} {p : Slot} (h : Woken s t) (k : Effect t u p) :
    Effect s u p := by
  refine ⟨k.ok,by rw [← h.cpu]; exact k.cpu,fun q hq => k.runnable q (h.keeps hq (by decide)),
    fun q hq => ?_,k.ticks.trans h.ticks,k.boosted.trans h.boosted⟩
  have hq' : (t.proc q).state ≠ .unused := by
    rcases h.state q with heq | ⟨_,hrun⟩
    · rwa [heq]
    · simp [hrun]
  rw [k.priority q hq', h.priority q]

section Running
variable {s t : System} {p : Slot} {intr : Bool} (hs : Ok s) (hcpu : s.cpu = .kernel p intr)
include hs hcpu

theorem sched_effect {f : Proc → Proc} (hpriority : (f (s.proc p)).priority = (s.proc p).priority)
    (th : Thread) : Effect s ((s.modify p f).sched p th) p := by
  have hp : s.cpu.current = some p := by rw [hcpu]; rfl
  have hrun := hs.running p hp
  have hle : (f (s.proc p)).priority ≤ 3 := hpriority ▸ hs.priority p
  refine Effect.change (hs.sched hp hle th) (fun q => s.modify_ne f) (by simp [hrun]) (fun _ => ?_)
    (Or.inr rfl) rfl rfl
  simpa [System.sched] using hpriority

omit hcpu in
/-- A change to a process that takes no part in the scheduling. -/
theorem free_effect {x : Slot} {f : Proc → Proc}
    (hx : (s.proc x).state = .unused ∨ (s.proc x).state = .zombie)
    (hpriority : (f (s.proc x)).priority = (s.proc x).priority) : Effect s (s.modify x f) p := by
  have hrunning : (s.proc x).state ≠ .running := by rcases hx with hx | hx <;> simp [hx]
  have hused : (s.proc x).state ≠ .used := by rcases hx with hx | hx <;> simp [hx]
  have hrunnable : (s.proc x).state ≠ .runnable := by rcases hx with hx | hx <;> simp [hx]
  have hother : ∀ q, q ≠ x → (s.modify x f).proc q = s.proc q := fun q => s.modify_ne f
  have hsame : ((s.modify x f).proc x).priority = (s.proc x).priority := by
    rw [s.modify_self, hpriority]
  have hok : Ok (s.modify x f) := by
    refine hs.change (p := p) hother (fun q hq => ?_) (fun q c hc => ?_) ?_
    · exact Or.inr ⟨hs.current_ne hrunning hq,hq⟩
    · exact Or.inl ⟨hs.child_ne hused hc,hc⟩
    · exact hsame ▸ hs.priority x
  exact Effect.change hok hother hrunnable (fun _ => hsame) (Or.inl rfl) rfl rfl

omit hcpu in
/-- The process `p` starts to make the child `np`, or goes on with it. -/
theorem child_effect {np : Slot} {k : Fork}
    (hnp : (s.proc np).state = .unused ∨ (s.fork p).child = some np)
    (hother : ∀ q, q ≠ np → t.proc q = s.proc q)
    (hk : k.child = none ∨ k.child = some np ∧ (t.proc np).state = .used)
    (hpriority : (s.proc np).state = .unused ∧ (t.proc np).priority ≤ 3 ∨
      (t.proc np).priority = (s.proc np).priority)
    (hfork : t.fork = Function.update s.fork p k) (hcpu : t.cpu = s.cpu)
    (hticks : t.ticks = s.ticks) (hboosted : t.mlfqTicksSinceBoost = s.mlfqTicksSinceBoost) :
    Effect s t p := by
  have hstate : (s.proc np).state = .unused ∨ (s.proc np).state = .used :=
    hnp.imp id (hs.used p np)
  have hrunning : (s.proc np).state ≠ .running := by rcases hstate with h | h <;> simp [h]
  have hrunnable : (s.proc np).state ≠ .runnable := by rcases hstate with h | h <;> simp [h]
  have hsibling : ∀ q c, q ≠ p → (s.fork q).child = some c → c ≠ np := by
    rintro q c hq hc rfl
    rcases hnp with hunused | hchild
    · exact hs.child_ne (by simp [hunused]) hc rfl
    · exact hq (hs.distinct q p c hc hchild)
  have hok : Ok t := by
    refine hs.change (p := p) hother (fun q hq => ?_) (fun q c hc => ?_) ?_
    · rw [hcpu] at hq
      exact Or.inr ⟨hs.current_ne hrunning hq,hq⟩
    · rw [hfork] at hc
      by_cases hq : q = p
      · rw [hq, Function.update_self] at hc
        rcases hk with hk | ⟨hk,hused⟩
        · rw [hk] at hc
          cases hc
        · exact Or.inr ⟨Option.some.inj (hc.symm.trans hk),hq,hused⟩
      · rw [Function.update_of_ne hq] at hc
        exact Or.inl ⟨hsibling q c hq hc,hc⟩
    · rcases hpriority with ⟨_,hle⟩ | heq
      · exact hle
      · exact heq ▸ hs.priority np
  exact Effect.change hok hother hrunnable (fun hused => hpriority.resolve_left fun h => hused h.1)
    (Or.inl hcpu) hticks hboosted

omit hcpu in
theorem forkAlloc_effect {np : Slot} {ok : Bool} (h : s.forkAlloc p np ok = some t) :
    Effect s t p := by
  obtain ⟨⟨_,hunused⟩,ht⟩ := Option.ite_none_right_eq_some.mp h
  cases ok with
  | false =>
    cases ht
    have hfree := free_effect (p := p) (f := Proc.freeproc) hs (Or.inl hunused) rfl
    exact ⟨⟨hfree.ok.running,hfree.ok.used,hfree.ok.distinct,hfree.ok.priority⟩,hfree.cpu,
      hfree.runnable,hfree.priority,rfl,rfl⟩
  | true =>
    simp only [↓reduceIte, Option.some.injEq] at ht
    subst ht
    exact child_effect hs (Or.inl hunused) (fun q hq => by simp [hq]) (Or.inr ⟨rfl,by simp⟩)
      (Or.inl ⟨hunused,by simp⟩) rfl rfl rfl rfl

omit hcpu in
theorem forkParent_effect (h : s.forkParent p = some t) : Effect s t p := by
  simp only [System.forkParent] at h
  split at h
  · next np hfork =>
    cases h
    have hchild : (s.fork p).child = some np := by rw [hfork]; rfl
    have hused := hs.used p np hchild
    exact child_effect hs (Or.inr hchild) (fun q hq => by simp [hq])
      (Or.inr ⟨rfl,by simpa using hused⟩) (Or.inr (by simp)) rfl rfl rfl rfl
  · cases h

omit hcpu in
theorem forkRunnable_effect (h : s.forkRunnable p = some t) : Effect s t p := by
  simp only [System.forkRunnable] at h
  split at h
  · next np hfork =>
    cases h
    have hchild : (s.fork p).child = some np := by rw [hfork]; rfl
    exact child_effect hs (Or.inr hchild) (fun q hq => by simp [hq]) (Or.inl rfl)
      (Or.inr (by simp)) rfl rfl rfl rfl
  · cases h

omit hcpu in
theorem reap_effect {pp : Slot} (h : s.reap p pp = some t) : Effect s t p := by
  obtain ⟨⟨_,hzombie⟩,ht⟩ := Option.ite_none_right_eq_some.mp h
  cases ht
  exact free_effect hs (Or.inr hzombie) rfl

theorem kexit_effect (h : s.kexit p = some t) : Effect s t p := by
  obtain ⟨_,ht⟩ := Option.ite_none_left_eq_some.mp h
  have hwoken := (reparent_woken s p).trans
    (wakeup_woken (s.reparent p) (((s.reparent p).proc p).parent.map .proc))
  dsimp only at ht
  generalize (s.reparent p).wakeup (((s.reparent p).proc p).parent.map .proc) = u at hwoken ht
  cases ht
  have hcpu' := hwoken.cpu.trans hcpu
  exact Effect.after_woken hwoken (sched_effect (hs.woken hwoken) hcpu' rfl _)

theorem runSection_effect {op : Section} (h : s.runSection p intr op = some t) : Effect s t p := by
  cases op with
  | sleepPrepare chan =>
    cases h
    exact Effect.of_woken hs (modify_woken s p (Or.inl rfl) rfl) p
  | sleep =>
    cases h
    unfold System.sleep
    split
    · exact sched_effect hs hcpu rfl _
    · exact Effect.of_woken hs (Woken.refl s) p
  | wakeup chan =>
    cases h
    exact Effect.of_woken hs (wakeup_woken s _) p
  | kill q =>
    cases h
    refine Effect.of_woken hs (modify_woken s q ?_ rfl) p
    by_cases hsleep : (s.proc q).state = .sleeping
    · exact Or.inr ⟨hsleep,by simp [hsleep]⟩
    · exact Or.inl (by simp [hsleep])
  | forkAlloc np ok => exact forkAlloc_effect hs h
  | forkParent => exact forkParent_effect hs h
  | forkRunnable => exact forkRunnable_effect hs h
  | reap pp => exact reap_effect hs h
  | exit => exact kexit_effect hs hcpu h
  | ret =>
    obtain ⟨⟨hintr,_⟩,ht⟩ := Option.ite_none_right_eq_some.mp h
    cases ht
    rw [hintr] at hcpu
    have hrun := hs.running p (by rw [hcpu]; rfl)
    have hok : Ok { s with cpu := .user p } := hs.resume hrun rfl
    exact ⟨hok,Or.inr (Or.inr ⟨hcpu,rfl⟩),fun _ hq => hq,fun _ _ => rfl,rfl,rfl⟩

end Running

/-! ## Steps outside the scheduler -/

/-- The hart takes no timer interrupt before it is in the scheduler again. -/
def Cpu.Leaving : Cpu → Prop
  | .scheduler => True
  | .kernel _ intr => intr = false
  | _ => False

/-- What every step keeps that is not a round of the scheduler. -/
structure Keeps (s t : System) : Prop where
  ok : Ok t
  runnable : ∀ q, (s.proc q).state = .runnable → (t.proc q).state = .runnable
  priority : ∀ q, (s.proc q).state = .runnable → (t.proc q).priority = (s.proc q).priority
  current : ∀ r, t.cpu.current = some r →
    s.cpu.current = some r ∧ (t.proc r).priority = (s.proc r).priority
  boosted : t.mlfqTicksSinceBoost = s.mlfqTicksSinceBoost

theorem Keeps.of_woken {s t : System} (hs : Ok s) (h : Woken s t) : Keeps s t :=
  ⟨hs.woken h,fun _ hq => h.keeps hq (by decide),fun q _ => h.priority q,
    fun r hr => ⟨h.cpu ▸ hr,h.priority r⟩,h.boosted⟩

theorem Keeps.of_effect {s t : System} {p : Slot} (hs : Ok s) (h : Effect s t p) : Keeps s t := by
  refine ⟨h.ok,h.runnable,fun q hq => h.priority q (by simp [hq]),fun r hr => ?_,h.boosted⟩
  have hcur : s.cpu.current = some r := by
    rcases h.cpu with heq | heq | ⟨hkernel,heq⟩
    · rwa [← heq]
    · rw [heq] at hr
      cases hr
    · rw [heq] at hr
      rwa [hkernel]
  have hused : (s.proc r).state ≠ .unused := by simp [hs.running r hcur]
  exact ⟨hcur,h.priority r hused⟩

theorem Keeps.trans {s t u : System} (h : Keeps s t) (k : Keeps t u) : Keeps s u := by
  refine ⟨k.ok,fun q hq => k.runnable q (h.runnable q hq),fun q hq => ?_,fun r hr => ?_,
    k.boosted.trans h.boosted⟩
  · rw [k.priority q (h.runnable q hq), h.priority q hq]
  · obtain ⟨hcur,hprio⟩ := k.current r hr
    obtain ⟨hcur',hprio'⟩ := h.current r hcur
    exact ⟨hcur',hprio.trans hprio'⟩

section Interrupts
variable {s : System} {p : Slot} (hs : Ok s)
include hs

theorem clockintr_keeps : Keeps s s.clockintr := by
  have h : Keeps s { s with ticks := s.ticks + 1 } :=
    ⟨⟨hs.running,hs.used,hs.distinct,hs.priority⟩,fun _ hq => hq,fun _ _ => rfl,
      fun _ hr => ⟨hr,rfl⟩,rfl⟩
  exact h.trans (Keeps.of_woken h.ok (clockintr_woken s))

/-- A change of mode with the same process on the hart. -/
theorem resume_keeps (hp : s.cpu.current = some p) {cpu : Cpu} (hcpu : cpu.current = some p) :
    Keeps s { s with cpu } :=
  ⟨hs.resume (hs.running p hp) hcpu,fun _ hq => hq,fun _ _ => rfl,
    fun _ hr => ⟨hp.trans (hcpu.symm.trans hr),rfl⟩,rfl⟩

/-- The process on the hart gives it up, in a lower queue perhaps. -/
theorem leave_keeps (hp : s.cpu.current = some p) {f : Proc → Proc}
    (hpriority : (f (s.proc p)).priority ≤ 3) (th : Thread) :
    Keeps s ((s.modify p f).sched p th) := by
  have hother : ∀ q, (s.proc q).state = .runnable →
      ((s.modify p f).sched p th).proc q = s.proc q := by
    intro q hq
    refine s.modify_ne f ?_
    rintro rfl
    rw [hs.running q hp] at hq
    cases hq
  refine ⟨hs.sched hp hpriority th,fun q hq => ?_,fun q hq => ?_,fun r hr => ?_,rfl⟩
  · rw [hother q hq, hq]
  · rw [hother q hq]
  · cases hr

theorem mlfqTick_keeps (hp : s.cpu.current = some p) : Keeps s (s.mlfqTick p) := by
  have hcount := Keeps.of_woken hs
    (modify_woken s p (f := fun q => { q with ticksUsed := q.ticksUsed + 1 }) (Or.inl rfl) rfl)
  have hcur :
      (s.modify p fun q => { q with ticksUsed := q.ticksUsed + 1 }).cpu.current = some p := hp
  unfold System.mlfqTick
  generalize s.modify p _ = u at hcount hcur
  have hle := hcount.ok.priority p
  refine hcount.trans ?_
  dsimp only
  split
  · -- the slice is used up: one queue down
    unfold System.yield
    rw [System.modify_modify]
    refine leave_keeps hcount.ok hcur ?_ _
    simp only [Proc.demote]
    split
    · omega
    · exact hle
  split
  · exact leave_keeps hcount.ok hcur hle _
  · exact resume_keeps hcount.ok hcur rfl

theorem checkKilled_keeps (hp : s.cpu.current = some p) {k : System} (hk : Keeps s k) :
    Keeps s (s.checkKilled p k) := by
  unfold System.checkKilled
  split
  · exact resume_keeps hs hp rfl
  · exact hk

theorem usertrapTimer_keeps (hp : s.cpu.current = some p) : Keeps s (s.usertrapTimer p) := by
  have hclock := clockintr_keeps hs
  have hcount := Keeps.of_woken hclock.ok (countTick_woken s.clockintr p)
  have htick := mlfqTick_keeps (p := p) hcount.ok hp
  exact hclock.trans (checkKilled_keeps hclock.ok hp (hcount.trans htick))

end Interrupts

/-- The branches of a step, with what has the hart. -/
inductive Stepped (s : System) : Event → System → Prop
  | round : s.cpu = .scheduler → Stepped s .schedule s.schedule
  | clock : s.cpu = .scheduler → Stepped s .timer s.clockintr
  | tick {p : Slot} : s.cpu = .user p → Stepped s .timer (s.usertrapTimer p)
  | preempt {p : Slot} : s.cpu = .kernel p true →
      Stepped s .timer (s.clockintr.yield p (.kernel true))
  | device {chan : Chan} : (∀ p, s.cpu ≠ .timerTail p) →
      Stepped s (.device chan) (s.wakeup (some chan))
  | deviceUser {chan : Chan} {p : Slot} : s.cpu = .user p →
      Stepped s (.device chan) ((s.wakeup (some chan)).checkKilled p (s.wakeup (some chan)))
  | syscall {p : Slot} : s.cpu = .user p →
      Stepped s .syscall (s.checkKilled p { s with cpu := .kernel p true })
  | fault {p : Slot} : s.cpu = .user p →
      Stepped s .fault { s.modify p fun q => { q with killed := true } with cpu := .kernel p false }
  | finish {p : Slot} : s.cpu = .timerTail p → Stepped s .finish { s with cpu := .user p }
  | call {p : Slot} {intr : Bool} {op : Section} {t : System} : s.cpu = .kernel p intr →
      s.runSection p intr op = some t → Stepped s (.section op) t

theorem step_stepped {s t : System} {e : Event} (h : step s e = some t) : Stepped s e t := by
  cases e with
  | schedule =>
    simp only [step] at h
    split at h
    · next hcpu =>
      cases h
      exact .round hcpu
    · cases h
  | timer =>
    simp only [step] at h
    split at h
    · next hcpu =>
      cases h
      exact .clock hcpu
    · next p hcpu =>
      cases h
      exact .tick hcpu
    · next p hcpu =>
      cases h
      exact .preempt hcpu
    · cases h
  | device chan =>
    simp only [step] at h
    split at h
    · next hcpu =>
      cases h
      exact .device (by simp [hcpu])
    · next p hcpu =>
      cases h
      exact .deviceUser hcpu
    · next p hcpu =>
      cases h
      exact .device (by simp [hcpu])
    · cases h
  | syscall =>
    simp only [step] at h
    split at h
    · next p hcpu =>
      cases h
      exact .syscall hcpu
    · cases h
  | fault =>
    simp only [step] at h
    split at h
    · next p hcpu =>
      cases h
      exact .fault hcpu
    · cases h
  | finish =>
    simp only [step] at h
    split at h
    · next p hcpu =>
      cases h
      exact .finish hcpu
    · cases h
  | «section» op =>
    simp only [step] at h
    split at h
    · next p intr hcpu => exact .call hcpu h
    · cases h

theorem step_keeps {s t : System} {e : Event} (hs : Ok s) (h : step s e = some t)
    (he : e ≠ .schedule) : Keeps s t := by
  have hcurrent : ∀ {c : Cpu} {p : Slot}, s.cpu = c → c.current = some p →
      s.cpu.current = some p := fun hc hp => hc ▸ hp
  cases step_stepped h with
  | round => exact absurd rfl he
  | clock => exact clockintr_keeps hs
  | tick hcpu => exact usertrapTimer_keeps hs (hcurrent hcpu rfl)
  | @preempt p hcpu =>
    have hclock := clockintr_keeps hs
    exact hclock.trans (leave_keeps hclock.ok (hcurrent hcpu rfl) (hclock.ok.priority p) _)
  | @device chan => exact Keeps.of_woken hs (wakeup_woken s (some chan))
  | @deviceUser chan p hcpu =>
    have hwake := Keeps.of_woken hs (wakeup_woken s (some chan))
    have hrefl := Keeps.of_woken hwake.ok (Woken.refl _)
    exact hwake.trans (checkKilled_keeps hwake.ok (hcurrent hcpu rfl) hrefl)
  | syscall hcpu =>
    have hp := hcurrent hcpu rfl
    exact checkKilled_keeps hs hp (resume_keeps hs hp rfl)
  | @fault p hcpu =>
    have hkill := Keeps.of_woken hs
      (modify_woken s p (f := fun q => { q with killed := true }) (Or.inl rfl) rfl)
    exact hkill.trans (resume_keeps hkill.ok (hcurrent hcpu rfl) rfl)
  | finish hcpu => exact resume_keeps hs (hcurrent hcpu rfl) rfl
  | call hcpu hop => exact Keeps.of_effect hs (runSection_effect hs hcpu hop)

theorem checkKilled_ticks {s k : System} (p : Slot) (hk : k.ticks = s.ticks) :
    (s.checkKilled p k).ticks = s.ticks := by
  unfold System.checkKilled
  split
  · rfl
  · exact hk

theorem mlfqTick_ticks (s : System) (p : Slot) : (s.mlfqTick p).ticks = s.ticks := by
  unfold System.mlfqTick
  dsimp only
  split
  · rfl
  split
  · rfl
  · rfl

theorem step_ticks {s t : System} {e : Event} (hs : Ok s) (h : step s e = some t)
    (he : e ≠ .schedule) : t.ticks = if e = .timer then s.ticks + 1 else s.ticks := by
  cases step_stepped h with
  | round => exact absurd rfl he
  | tick => exact checkKilled_ticks _ (mlfqTick_ticks _ _)
  | deviceUser => exact checkKilled_ticks _ rfl
  | syscall => exact checkKilled_ticks _ rfl
  | call hcpu hop => exact (runSection_effect hs hcpu hop).ticks
  | _ => rfl

/-- Where the hart goes without a tick and without the scheduler. -/
inductive Moves (c : Cpu) : Cpu → Prop
  | stay : (∀ p, c ≠ .timerTail p) → Moves c c
  | scheduler : Moves c .scheduler
  | leave (p : Slot) : Moves c (.kernel p false)
  | enter (p : Slot) : ¬ c.Leaving → Moves c (.kernel p true)
  | ret (p : Slot) : ¬ c.Leaving → Moves c (.user p)

theorem Moves.leaving {c d : Cpu} (h : Moves c d) (hc : c.Leaving) : d.Leaving := by
  cases h with
  | stay => exact hc
  | scheduler => trivial
  | leave p => rfl
  | enter p hnot => exact absurd hc hnot
  | ret p hnot => exact absurd hc hnot

theorem checkKilled_moves {s k : System} {c : Cpu} (p : Slot) (hk : Moves c k.cpu) :
    Moves c (s.checkKilled p k).cpu := by
  unfold System.checkKilled
  split
  · exact .leave p
  · exact hk

theorem step_moves {s t : System} {e : Event} (hs : Ok s) (h : step s e = some t)
    (he : e ≠ .schedule) (htimer : e ≠ .timer) : Moves s.cpu t.cpu := by
  cases step_stepped h with
  | round => exact absurd rfl he
  | clock => exact absurd rfl htimer
  | tick => exact absurd rfl htimer
  | preempt => exact absurd rfl htimer
  | device htail => exact .stay htail
  | deviceUser hcpu => exact checkKilled_moves _ (.stay (by simp [hcpu]))
  | syscall hcpu => exact checkKilled_moves _ (.enter _ (by simp [hcpu,Cpu.Leaving]))
  | fault => exact .leave _
  | finish hcpu => exact .ret _ (by simp [hcpu,Cpu.Leaving])
  | call hcpu hop =>
    rcases (runSection_effect hs hcpu hop).cpu with heq | heq | ⟨hkernel,heq⟩
    · rw [heq]
      exact .stay (by simp [hcpu])
    · rw [heq]
      exact .scheduler
    · rw [heq]
      exact .ret _ (by simp [hkernel,Cpu.Leaving])

end CShellXv6.Mlfq
