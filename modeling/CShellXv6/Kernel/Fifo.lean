import CShellXv6.Kernel.Conduct

/-! # Preemption under the FIFO scheduler

On one hart a process that has been dispatched is followed until it sleeps or
exits. Only a timer interrupt that finds it in the kernel takes the hart away
from it.
-/
namespace CShellXv6.Kernel
open SpinLock Transition

/-- The scheduler has switched to the process. -/
def Dispatches {n : ℕ} (s s' : Data n) (q : Slot) : Prop :=
  (s.proc q).state ≠ .running ∧ (s'.proc q).state = .running

instance {n : ℕ} (s s' : Data n) (q : Slot) : Decidable (Dispatches s s' q) :=
  inferInstanceAs (Decidable (_ ∧ _))

/-- The processes that have been dispatched and have not slept or exited since. -/
def inProgress (_ : Data 1) (_ : Event (Fin 1) Entry) (s' : Data 1) (o : Slot → Bool) (p : Slot) :
    Bool :=
  match (s'.proc p).state with
  | .running => true
  | .sleeping => false
  | .zombie => false
  | _ => o p

abbrev fifoStep : System 1 × (Slot → Bool) → Event (Fin 1) Entry →
    Option (System 1 × (Slot → Bool)) :=
  watched (step (code 1 .fifo)) (fun m e m' => inProgress m.data e m'.data)

/-- No timer interrupt of the kernel comes while a process has the hart. -/
def Uninterrupted (x : System 1 × (Slot → Bool)) (e : Event (Fin 1) Entry) : Prop :=
  ∀ h, e = .trap h .kerneltrap → x.1.data.cpu h = none

instance (x : System 1 × (Slot → Bool)) (e : Event (Fin 1) Entry) : Decidable (Uninterrupted x e) :=
  inferInstanceAs (Decidable (∀ _, _ → _))

/-- No process has been trapped in the kernel, and those in progress still run. -/
structure Undisturbed (w : World 1) (o : Slot → Bool) : Prop where
  trapped : ∀ p, w.2.trapped p = false
  running : ∀ p, o p = true → (w.1.proc p).state = .running

/-- A running process that is not trapped in the kernel only stops to sleep or exit. -/
theorem Lives.runs_on {a : Agent (Fin 1) Slot} {ticks : BitVec 32} {p : Slot} {ph ph' : Phase}
    {q q' : Proc} (hl : Lives .fifo a ticks p ph q ph' q') (hp : ph.state = .running)
    (ha : a.thread = some p → a.nested = false) :
    ph'.state = .running ∨ ph'.state = .sleeping ∨ ph'.state = .zombie := by
  cases hl with
  | deed hd =>
    cases hd with
    | touch => exact Or.inl hp
    | yield _ hthread hfifo => exact absurd rfl (hfifo (ha hthread))
    | sleep => exact Or.inr (Or.inl rfl)
    | leave => exact Or.inl rfl
    | choose _ _ _ hstate =>
      rw [hp] at hstate
      cases hstate
    | start => exact Or.inl rfl
    | _ => cases hp
  | die => exact Or.inr (Or.inr rfl)
  | run => exact Or.inl rfl
  | wait => exact Or.inl hp

theorem Undisturbed.step {w w' : World 1} {o : Slot → Bool} {m : System 1}
    {e : Event (Fin 1) Entry} (hI : Undisturbed w o) (hi : Inv w) (hi' : Inv w')
    (hdata : m.data = w.1) (hg : Uninterrupted (m,o) e) (hs : (life 1 .fifo).Stepped e w w') :
    Undisturbed w' (inProgress w.1 e w'.1 o) := by
  -- Only what the process does itself matters for a process in progress.
  have hkeep : (∀ p, w'.2.trapped p = false) ∧ ∀ p, (w.1.proc p).state = .running →
      (w'.1.proc p).state = .running ∨ (w'.1.proc p).state = .sleeping ∨
        (w'.1.proc p).state = .zombie := by
    rcases stepped_cases hs with ⟨_,rfl⟩ | ⟨a,tr,held,hm,htr⟩
    · exact ⟨hI.trapped,fun p hp => Or.inl hp⟩
    cases tr with
    | none =>
      refine ⟨fun p => ?_,fun p hp => ?_⟩
      · cases hm with
        | _ => exact hI.trapped p
      · have hnest : a.thread = some p → a.nested = false := by
          intro hthread
          cases hn : a.nested with
          | false => rfl
          | true =>
            have hcaught := hm.caught hthread hn
            rw [hI.trapped p] at hcaught
            cases hcaught
        rw [hi'.state p]
        rcases hm.lives hi p with ⟨_,hl⟩ | ⟨_,_,hph,_⟩
        · exact hl.runs_on ((hi.state p).symm.trans hp) hnest
        · exact Or.inl (by rw [hph, ← hi.state p, hp])
    | some t =>
      obtain ⟨he,hcpu,hsame⟩ := htr t rfl
      refine ⟨fun p => ?_,fun p hp => Or.inl (by rw [hsame, hp])⟩
      cases hm with
      | enterUser => exact hI.trapped p
      | enterTimer => exact hI.trapped p
      | enterKernel =>
        have hnone : a.thread = none := by
          rw [← hcpu, ← hdata]
          exact hg a.processor he
        simp [Ghost.setTrapped,hnone,hI.trapped p]
  refine ⟨hkeep.1,fun p hp => ?_⟩
  unfold inProgress at hp
  split at hp
  · assumption
  · cases hp
  · cases hp
  · next hrun hsleep hzombie =>
    rcases hkeep.2 p (hI.running p hp) with h | h | h
    · exact h
    · exact absurd h hsleep
    · exact absurd h hzombie

/-- As long as no timer interrupt of the kernel takes the hart away, no process is
dispatched before the one in progress has slept or exited. -/
theorem fifo_nonpreemptive {x : System 1 × (Slot → Bool)} {e : Event (Fin 1) Entry} {m' : System 1}
    (hr : Runs fifoStep Uninterrupted (boot 1 .fifo,fun _ => false) x)
    (he : step (code 1 .fifo) x.1 e = some m') {p : Slot} (hp : x.2 p = true) (q : Slot) :
    ¬Dispatches x.1.data m'.data q := by
  rintro ⟨hstop,hstart⟩
  have hboot : Undisturbed ((boot 1 .fifo).data,bootGhost 1) (fun _ => false) :=
    ⟨fun _ => rfl,fun _ h => by cases h⟩
  obtain ⟨w,hdata,hi,hI,hnext⟩ := kernel_runs hboot
    (fun hi hi' hd _ hg _ hs hI => hI.step hi hi' hd hg hs) hr
  obtain ⟨w',hdata',hi',hs⟩ := hnext he
  rw [← hdata, hi.state q, ne_eq, ← Phase.seated_iff, Bool.not_eq_true] at hstop
  rw [← hdata', hi'.state q, ← Phase.seated_iff] at hstart
  rcases stepped_cases hs with ⟨_,rfl⟩ | ⟨a,tr,held,hm,_⟩
  · rw [hstop] at hstart
    cases hstart
  -- The hart of the process in progress is the only one, and it is not free.
  · have hrun : (w.2.phase p).seated = true :=
      (Phase.seated_iff _).mpr ((hi.state p).symm.trans (hI.running p hp))
    obtain ⟨h,hseat⟩ := hi.placed p hrun
    rw [Subsingleton.elim h a.processor, hm.starts hstop hstart] at hseat
    cases hseat

/-- The first process is dispatched and makes a system call. -/
theorem fifo_nonpreemptive_boot : ∃ x m',
    Runs fifoStep Uninterrupted (boot 1 .fifo,fun _ => false) x ∧
      step (code 1 .fifo) x.1 (.trap 0 (.syscall 0 .uptime)) = some m' ∧ x.2 0 = true ∧
        ∀ q, ¬Dispatches x.1.data m'.data q := by
  have hrun : ∃ x ∈ execute (restrict fifoStep Uninterrupted) (boot 1 .fifo,fun _ => false)
      (List.replicate 202 (.run 0)), x.2 0 = true ∧
        (step (code 1 .fifo) x.1 (.trap 0 (.syscall 0 .uptime))).isSome = true := by
    decide +kernel
  obtain ⟨x,hx,hp,hsome⟩ := hrun
  obtain ⟨m',hm⟩ := Option.isSome_iff_exists.mp hsome
  have hr := Runs.of_execute _ hx
  exact ⟨x,m',hr,hm,hp,fifo_nonpreemptive hr hm hp⟩

/-- The first process forks and pauses for one tick. The child is in a system call
when the tick comes, and has to wait while its parent, which is older, is
dispatched. -/
def preemption (h : Fin 1) : List (Event (Fin 1) Entry) :=
  script [(h,202,.syscall 0 (.fork .ok)),(h,34,.syscall 0 (.pause 1)),(h,225,.syscall 1 .uptime),
    (h,3,.kerneltrap)] ++ List.replicate 397 (.run h)

/-- The child has been dispatched and has neither slept nor exited. -/
theorem fifo_preempts : ∃ x m', Reachable fifoStep (boot 1 .fifo,fun _ => false) x ∧
    step (code 1 .fifo) x.1 (.run 0) = some m' ∧ x.2 1 = true ∧
      Dispatches x.1.data m'.data 0 := by
  have hrun : ∃ x ∈ execute fifoStep (boot 1 .fifo,fun _ => false) (preemption 0), x.2 1 = true ∧
      ∃ m' ∈ step (code 1 .fifo) x.1 (.run 0), Dispatches x.1.data m'.data 0 := by
    decide +kernel
  obtain ⟨x,hx,hp,m',hm,hq⟩ := hrun
  exact ⟨x,m',Runs.of_events (fun _ _ => trivial) hx,hm,hp,hq⟩

end CShellXv6.Kernel
