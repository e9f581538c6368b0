import CShellXv6.Kernel.Conduct

/-! # Response times

`waitx` reports how long a child waited for its first dispatch, from the `ctime`
that `allocproc` writes and the `first_run` that only the FIFO scheduler writes.
An observer notes what `first_run` and `ticks` were when a process was first
switched to.
-/
namespace CShellXv6.Kernel
open SpinLock Transition
variable {n : ℕ} {policy : Policy}

/-- The response time that `waitx` copies out. -/
def Proc.responseTime (q : Proc) : BitVec 32 := if q.firstRun.msb then 0 else q.firstRun - q.ctime

/-- What `first_run` and `ticks` were when a process first ran. -/
structure FirstDispatch where
  firstRun : BitVec 32
  ticks : BitVec 32
  deriving DecidableEq

/-- The first dispatch of a process since its slot was taken. -/
def noteDispatch (_ : BitVec 32) (_ : Proc) (ticks : BitVec 32) (q : Proc)
    (d : Option FirstDispatch) : Option FirstDispatch :=
  match q.state with
  | .unused => none
  | .used => none
  | .running => d.or (some ⟨q.firstRun,ticks⟩)
  | _ => d

/-- `first_run` is as it was at the first dispatch, unless it looked unset there, and
only the FIFO scheduler ever sets it. -/
structure Recorded (policy : Policy) (firstRun : BitVec 32) (d : Option FirstDispatch) : Prop where
  unset : policy ≠ .fifo → firstRun = -1
  dispatch : ∀ f, d = some f → firstRun = f.firstRun ∨ f.firstRun = -1

/-- What `first_run` tells in each phase. -/
def FirstRun (policy : Policy) (q : Proc) (d : Option FirstDispatch) : Phase → Prop
  | .unused => d = none
  | .making _ .claimed => d = none
  | .making _ .stamped => d = none
  | .making _ .fresh => d = none ∧ q.firstRun = -1
  | .chosen => policy = .fifo ∧ ∀ f, d = some f → f.firstRun = -1
  | _ => Recorded policy q.firstRun d

theorem Proc.Mild.firstRun {q q' : Proc} (h : q.Mild q') : q'.firstRun = q.firstRun :=
  h.counters.2.2.2.2

section Lives
variable {a : Agent (Fin n) Slot} {t t' : BitVec 32} {p : Slot} {ph ph' : Phase} {q q' : Proc}
  {d : Option FirstDispatch}

theorem Recorded.note (h : Recorded policy q.firstRun d) (hfirst : q'.firstRun = q.firstRun) :
    Recorded policy q'.firstRun (noteDispatch t q t' q' d) := by
  rw [← hfirst] at h
  refine ⟨h.unset,fun f hf => ?_⟩
  unfold noteDispatch at hf
  split at hf
  · cases hf
  · cases hf
  · rcases Option.or_eq_some_iff.mp hf with hd | ⟨_,hnew⟩
    · exact h.dispatch f hd
    · cases hnew
      exact Or.inl rfl
  · exact h.dispatch f hf

theorem noteDispatch_made (h : q'.state = .unused ∨ q'.state = .used) :
    noteDispatch t q t' q' d = none := by
  rcases h with h | h
  · simp [noteDispatch,h]
  · simp [noteDispatch,h]

theorem noteDispatch_runnable (h : q'.state = .runnable) : noteDispatch t q t' q' d = d := by
  simp [noteDispatch,h]

theorem FirstRun.stay (h : FirstRun policy q d ph) (hfirst : q'.firstRun = q.firstRun)
    (hstate : q'.state = ph.state) : FirstRun policy q' (noteDispatch t q t' q' d) ph := by
  cases ph with
  | unused => exact noteDispatch_made (Or.inl hstate)
  | making maker stage =>
    have hnone : noteDispatch t q t' q' d = none := noteDispatch_made (Or.inr hstate)
    cases stage with
    | claimed => exact hnone
    | stamped => exact hnone
    | fresh => exact ⟨hnone,hfirst.trans h.2⟩
  | chosen =>
    rw [noteDispatch_runnable hstate]
    exact h
  | _ => exact Recorded.note h hfirst

theorem FirstRun.lives (hl : Lives policy a t p ph q ph' q') (hstate : q'.state = ph'.state)
    (h : FirstRun policy q d ph) : FirstRun policy q' (noteDispatch t q t q' d) ph' := by
  cases hl with
  | deed hd =>
    cases hd with
    | touch hmild => exact h.stay hmild.firstRun hstate
    | rouse hmild => exact Recorded.note h hmild.firstRun
    | yield hmild => exact Recorded.note h hmild.firstRun
    | sleep hmild => exact Recorded.note h hmild.firstRun
    | leave hmild => exact Recorded.note h hmild.firstRun
    | claim => exact noteDispatch_made (Or.inr hstate)
    | stamp => exact noteDispatch_made (Or.inr hstate)
    | reset hmild => exact ⟨noteDispatch_made (Or.inr hstate),hmild.firstRun⟩
    | publish hmild =>
      obtain ⟨rfl,hnew⟩ := h
      have hrec : Recorded policy q.firstRun none := ⟨fun _ => hnew,fun _ hf => by cases hf⟩
      exact hrec.note hmild.firstRun
    | discard => exact noteDispatch_made (Or.inl hstate)
    | reap => exact noteDispatch_made (Or.inl hstate)
    | choose hmild hfifo hnew hrunnable =>
      refine ⟨hfifo,fun f hf => ?_⟩
      rw [noteDispatch_runnable hstate] at hf
      rcases Phase.eq_runnable hrunnable with rfl | rfl
      · rcases Recorded.dispatch h f hf with hrec | hrec
        · exact hrec.symm.trans hnew
        · exact hrec
      · exact h.2 f hf
    | start hmild _ hph =>
      rcases hph with rfl | ⟨rfl,_⟩
      · have hrec : Recorded policy q.firstRun d :=
          ⟨fun hfifo => absurd h.1 hfifo,fun f hf => Or.inr (h.2 f hf)⟩
        exact hrec.note hmild.firstRun
      · exact Recorded.note h hmild.firstRun
  | die hmild => exact Recorded.note h hmild.firstRun
  | run => exact Recorded.note h rfl
  | wait => exact h.stay rfl hstate

end Lives

theorem Recorded.responseTime_iff {q : Proc} {f : FirstDispatch}
    (h : Recorded policy q.firstRun (some f)) (hset : policy = .fifo → f.firstRun ≠ -1) :
    q.responseTime = f.ticks - q.ctime ↔ if policy = .fifo ∧ f.firstRun.msb = false
      then f.firstRun = f.ticks else f.ticks = q.ctime := by
  have hfirst : policy = .fifo → q.firstRun = f.firstRun :=
    fun hfifo => (h.dispatch f rfl).resolve_right (hset hfifo)
  unfold Proc.responseTime
  by_cases hrun : policy = .fifo ∧ f.firstRun.msb = false
  · rw [if_pos hrun, hfirst hrun.1, if_neg (by simp [hrun.2])]
    exact BitVec.sub_left_inj q.ctime
  · have hmsb : q.firstRun.msb = true := by
      by_cases hfifo : policy = .fifo
      · rw [hfirst hfifo]
        simpa [hfifo] using hrun
      · rw [h.unset hfifo]
        rfl
    have hzero : (0 : BitVec 32) = q.ctime - q.ctime := (BitVec.sub_self _).symm
    rw [if_neg hrun, if_pos hmsb, hzero, BitVec.sub_left_inj]
    exact eq_comm

/-- The first process forks and waits; the child exits. -/
def shortLife (h : Fin n) : List (Event (Fin n) Entry) :=
  script [(h,202,.syscall 0 (.fork .ok)),(h,34,.syscall 0 (.waitx true true true true)),
    (h,290,.syscall 1 (.exit 0))] ++ List.replicate 268 (.run h)

/-- The first process forks and is preempted by a tick. The child is dispatched and
exits, and its parent calls `waitx`. -/
def lateStart (h : Fin n) : List (Event (Fin n) Entry) :=
  script [(h,11,.syscall 0 (.fork .ok)),(h,34,.timer 0),(h,414,.syscall 1 (.exit 0)),
    (h,478,.syscall 0 (.waitx true true true true))] ++ List.replicate 10 (.run h)

end CShellXv6.Kernel
