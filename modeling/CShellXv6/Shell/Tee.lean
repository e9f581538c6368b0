import CShellXv6.Shell.Feeder
import Mathlib.Logic.Function.Basic

/-! # Several output redirections

With two or more output files the command forks a writer that copies a pipe to
each of them, and then becomes the program with the pipe as its standard output.
The shell waits for the program and not for the writer. The same code stands in
`execute_cmd_internal` and in `execute_stage_child`.
-/
namespace CShellXv6.Tee
open Transition Feeder

theorem buf_pos : 0 < 4096 := by decide

def executeCmdInternalWriter : Code := ⟨4096,buf_pos⟩

def executeStageChildWriter : Code := ⟨4096,buf_pos⟩

/-- The child sets up its output, is the program, or has exited. -/
inductive CommandAt
  | setup
  | running
  | exited
  deriving DecidableEq, Repr

/-- With `n + 2` output files, the writer is not there yet, is before a `read`, or
writes what is left of its buffer to the file `i`. -/
inductive WriterAt (n : ℕ)
  | unborn
  | readLoop
  | writeLoop (buf : List Byte) (i : Fin (n + 2)) (pending : List Byte)
  | exited
  deriving DecidableEq, Repr

inductive ShellAt
  | waiting
  | returned
  deriving DecidableEq, Repr

structure State (n : ℕ) where
  command : CommandAt
  /-- What the program has written. -/
  output : List Byte
  pipe : List Byte
  writer : WriterAt n
  /-- What has been written through each of the descriptors. -/
  files : Fin (n + 2) → List Byte
  shell : ShellAt

/-- A step of one of the three processes; the bytes or the length of a transfer
are those the program or the kernel choose. -/
inductive Event
  | setup
  | output (bytes : List Byte)
  | exit
  | writer (k : ℕ)
  | collect
  deriving DecidableEq, Repr

/-- The writer goes on to the next file when the buffer is written. -/
def WriterAt.next {n : ℕ} (buf : List Byte) (i : Fin (n + 2)) (pending : List Byte) : WriterAt n :=
  if pending ≠ [] then .writeLoop buf i pending
  else if h : i.val + 1 < n + 2 then .writeLoop buf ⟨i.val + 1,h⟩ buf
  else .readLoop

def writerStep {n : ℕ} (code : Code) (k : ℕ) (s : State n) : Option (State n) :=
  match s.writer with
  | .readLoop =>
    if s.pipe ≠ [] then
      if 0 < k ∧ k ≤ code.bufSize then
        some { s with
          pipe := s.pipe.drop k
          writer := .writeLoop (s.pipe.take k) 0 (s.pipe.take k) }
      else none
    else if s.command = .exited then some { s with writer := .exited }
    else none
  | .writeLoop buf i pending =>
    if 0 < k ∧ k ≤ pending.length then
      some { s with
        files := Function.update s.files i (s.files i ++ pending.take k)
        writer := WriterAt.next buf i (pending.drop k) }
    else none
  | _ => none

def step {n : ℕ} (code : Code) (capacity : ℕ) (s : State n) : Event → Option (State n)
  | .setup =>
    if s.command = .setup then some { s with command := .running, writer := .readLoop } else none
  | .output bytes =>
    if s.command = .running ∧ s.pipe.length + bytes.length ≤ capacity then
      some { s with output := s.output ++ bytes, pipe := s.pipe ++ bytes }
    else none
  | .exit => if s.command = .running then some { s with command := .exited } else none
  | .writer k => writerStep code k s
  | .collect =>
    if s.shell = .waiting ∧ s.command = .exited then some { s with shell := .returned } else none

def initial (n : ℕ) : State n := ⟨.setup,[],[],.unborn,fun _ => [],.waiting⟩

/-- The bytes of its buffer that the writer has not yet written to a file. -/
def WriterAt.unwritten {n : ℕ} (w : WriterAt n) (j : Fin (n + 2)) : List Byte :=
  match w with
  | .writeLoop buf i pending => if j < i then [] else if j = i then pending else buf
  | _ => []

/-- No byte is lost, duplicated or reordered on its way to a file. -/
structure Invariant {n : ℕ} (s : State n) : Prop where
  bytes : ∀ j, s.files j ++ (s.writer.unwritten j ++ s.pipe) = s.output
  pending : ∀ buf i pending, s.writer = .writeLoop buf i pending → pending ≠ [] ∧ buf ≠ []
  setup : s.command = .setup ↔ s.writer = .unborn

theorem initial_invariant (n : ℕ) : Invariant (initial n) :=
  ⟨fun _ => rfl,fun _ _ _ h => (by cases h),by simp [initial]⟩

@[simp] theorem WriterAt.unwritten_self {n : ℕ} (buf : List Byte) (i : Fin (n + 2))
    (pending : List Byte) : (WriterAt.writeLoop buf i pending).unwritten i = pending := by
  simp [WriterAt.unwritten]

theorem WriterAt.next_unwritten {n : ℕ} (buf : List Byte) (i j : Fin (n + 2))
    (pending : List Byte) :
    (WriterAt.next buf i pending).unwritten j = (WriterAt.writeLoop buf i pending).unwritten j := by
  unfold WriterAt.next
  split
  · rfl
  · next hnil =>
    rw [not_not] at hnil
    subst hnil
    split
    · simp only [WriterAt.unwritten, Fin.lt_def, Fin.ext_iff]
      split_ifs <;> first | rfl | omega
    · simp only [WriterAt.unwritten, Fin.lt_def, Fin.ext_iff]
      split_ifs <;> first | rfl | omega

theorem WriterAt.next_writeLoop {n : ℕ} {buf buf' pending pending' : List Byte} {i i' : Fin (n + 2)}
    (hbuf : buf ≠ []) (h : WriterAt.next buf i pending = .writeLoop buf' i' pending') :
    pending' ≠ [] ∧ buf' ≠ [] := by
  unfold WriterAt.next at h
  split at h
  · next hpending =>
    cases h
    exact ⟨hpending,hbuf⟩
  split at h
  · cases h
    exact ⟨hbuf,hbuf⟩
  · cases h

theorem WriterAt.next_ne_unborn {n : ℕ} (buf : List Byte) (i : Fin (n + 2)) (pending : List Byte) :
    WriterAt.next buf i pending ≠ .unborn := by
  unfold WriterAt.next
  split
  · simp
  split <;> simp

section Writer
variable {n : ℕ} {s : State n} (hs : Invariant s) {k : ℕ}
include hs

theorem Invariant.read_bytes (hw : s.writer = .readLoop) (j : Fin (n + 2)) :
    s.files j ++ s.pipe = s.output := by
  simpa [hw,WriterAt.unwritten] using hs.bytes j

theorem Invariant.started (hw : s.writer ≠ .unborn) : s.command ≠ .setup :=
  fun hsetup => hw (hs.setup.mp hsetup)

/-- The writer fills its buffer. -/
theorem Invariant.fetch (hw : s.writer = .readLoop) (hpipe : s.pipe ≠ []) (hk : 0 < k) :
    Invariant { s with
      pipe := s.pipe.drop k
      writer := .writeLoop (s.pipe.take k) 0 (s.pipe.take k) } := by
  have hbuf : s.pipe.take k ≠ [] := by
    have hpos := List.length_pos_iff.mpr hpipe
    refine List.ne_nil_of_length_pos ?_
    rw [List.length_take]
    omega
  have hstarted := hs.started (by simp [hw])
  refine ⟨fun j => ?_,fun buf i pending heq => ?_,iff_of_false hstarted (by simp)⟩
  · have hall : (WriterAt.writeLoop (s.pipe.take k) 0 (s.pipe.take k)).unwritten j =
        s.pipe.take k := by simp [WriterAt.unwritten]
    simp only [hall, List.take_append_drop]
    exact hs.read_bytes hw j
  · cases heq
    exact ⟨hbuf,hbuf⟩

/-- The writer writes a part of its buffer to the file `i`. -/
theorem Invariant.transfer {buf pending : List Byte} {i : Fin (n + 2)}
    (hw : s.writer = .writeLoop buf i pending) :
    Invariant { s with
      files := Function.update s.files i (s.files i ++ pending.take k)
      writer := WriterAt.next buf i (pending.drop k) } := by
  obtain ⟨_,hbuf⟩ := hs.pending buf i pending hw
  have hstarted := hs.started (by simp [hw])
  refine ⟨fun j => ?_,fun buf' i' pending' heq => WriterAt.next_writeLoop hbuf heq,
    iff_of_false hstarted (WriterAt.next_ne_unborn _ _ _)⟩
  have hbytes := hs.bytes j
  rw [hw] at hbytes
  dsimp only
  rw [WriterAt.next_unwritten]
  by_cases hj : j = i
  · subst hj
    rw [WriterAt.unwritten_self] at hbytes ⊢
    rw [Function.update_self, ← hbytes, List.append_assoc, ← List.append_assoc (pending.take k),
      List.take_append_drop]
  · rw [Function.update_of_ne hj]
    simpa [WriterAt.unwritten,hj] using hbytes

theorem Invariant.writerStep {code : Code} {t : State n} (h : writerStep code k s = some t) :
    Invariant t := by
  cases hw : s.writer with
  | unborn => simp [Tee.writerStep,hw] at h
  | exited => simp [Tee.writerStep,hw] at h
  | readLoop =>
    simp only [Tee.writerStep, hw] at h
    split at h
    · next hpipe =>
      obtain ⟨hk,ht⟩ := Option.ite_none_right_eq_some.mp h
      cases ht
      exact hs.fetch hw hpipe hk.1
    · obtain ⟨_,ht⟩ := Option.ite_none_right_eq_some.mp h
      cases ht
      refine ⟨fun j => ?_,fun buf i pending heq => (by cases heq),
        iff_of_false (hs.started (by simp [hw])) (by simp)⟩
      simpa [WriterAt.unwritten] using hs.read_bytes hw j
  | writeLoop buf i pending =>
    simp only [Tee.writerStep, hw] at h
    obtain ⟨_,ht⟩ := Option.ite_none_right_eq_some.mp h
    cases ht
    exact hs.transfer hw

end Writer

theorem Invariant.step {n : ℕ} {code : Code} {capacity : ℕ} {s t : State n} {e : Event}
    (hs : Invariant s) (h : step code capacity s e = some t) : Invariant t := by
  cases e with
  | setup =>
    obtain ⟨hsetup,ht⟩ := Option.ite_none_right_eq_some.mp h
    cases ht
    have hunborn := hs.setup.mp hsetup
    refine ⟨fun j => ?_,fun buf i pending heq => (by cases heq),by simp⟩
    simpa [hunborn,WriterAt.unwritten] using hs.bytes j
  | output bytes =>
    obtain ⟨_,ht⟩ := Option.ite_none_right_eq_some.mp h
    cases ht
    refine ⟨fun j => ?_,hs.pending,hs.setup⟩
    have hbytes := hs.bytes j
    simp only [← List.append_assoc] at hbytes ⊢
    rw [hbytes]
  | exit =>
    obtain ⟨hrunning,ht⟩ := Option.ite_none_right_eq_some.mp h
    cases ht
    have hborn : s.writer ≠ .unborn := fun heq => by simp [hs.setup.mpr heq] at hrunning
    exact ⟨hs.bytes,hs.pending,iff_of_false (by simp) hborn⟩
  | writer k => exact hs.writerStep h
  | collect =>
    obtain ⟨_,ht⟩ := Option.ite_none_right_eq_some.mp h
    cases ht
    exact ⟨hs.bytes,hs.pending,hs.setup⟩

/-- The writer has exited, or stands before a `read` of the empty pipe. -/
def State.Drained {n : ℕ} (s : State n) : Prop :=
  s.pipe = [] ∧ (s.writer = .readLoop ∨ s.writer = .exited)

/-- When the shell collects the exit of the command, all the output is in all the
files exactly if the writer had nothing left to do. -/
theorem files_complete_iff {n : ℕ} {code : Code} {capacity : ℕ} {s t : State n}
    (hs : Reachable (step code capacity) (initial n) s)
    (h : step code capacity s .collect = some t) :
    (∀ j, t.files j = t.output) ↔ s.Drained := by
  have hinv : Invariant s := hs.invariant (initial_invariant n) fun _ _ _ hi _ he => hi.step he
  obtain ⟨⟨_,hexited⟩,ht⟩ := Option.ite_none_right_eq_some.mp h
  cases ht
  constructor
  · intro hall
    have hnone : ∀ j, s.writer.unwritten j ++ s.pipe = [] := by
      intro j
      have hbytes := hinv.bytes j
      dsimp only at hall
      rw [hall j] at hbytes
      exact List.append_right_eq_self.mp hbytes
    refine ⟨(List.append_eq_nil_iff.mp (hnone 0)).2,?_⟩
    cases hw : s.writer with
    | unborn => simp [hinv.setup.mpr hw] at hexited
    | readLoop => exact Or.inl rfl
    | writeLoop buf i pending =>
      have hpending := (List.append_eq_nil_iff.mp (hnone i)).1
      rw [hw, WriterAt.unwritten_self] at hpending
      exact absurd hpending (hinv.pending buf i pending hw).1
    | exited => exact Or.inr rfl
  · rintro ⟨hpipe,hwriter⟩ j
    have hbytes := hinv.bytes j
    rcases hwriter with hw | hw
    · simpa [hw,hpipe,WriterAt.unwritten] using hbytes
    · simpa [hw,hpipe,WriterAt.unwritten] using hbytes

/-- The writer copies the byte of the program before the exit is collected. -/
def drainedExit : List Event := [.setup,.output [97],.writer 1,.exit,.writer 1,.writer 1]

theorem files_complete_after_drainedExit :
    ∃ s t : State 0, execute (restrict (step executeCmdInternalWriter 65536) fun _ _ => True)
        (initial 0) drainedExit = some s ∧
      step executeCmdInternalWriter 65536 s .collect = some t ∧ ∀ j, t.files j = t.output := by
  have hrun : ((execute (restrict (step executeCmdInternalWriter 65536) fun _ _ => True) (initial 0)
      drainedExit).map fun s => (s.command,s.shell,s.pipe,s.writer)) =
      some (.exited,.waiting,[],.readLoop) := by decide
  obtain ⟨s,hs,hstate⟩ := Option.map_eq_some_iff.mp hrun
  simp only [Prod.mk.injEq] at hstate
  obtain ⟨hexited,hwaiting,hpipe,hwriter⟩ := hstate
  have hcollect : step executeCmdInternalWriter 65536 s .collect =
      some { s with shell := .returned } := if_pos ⟨hwaiting,hexited⟩
  exact ⟨s,_,hs,hcollect,
    (files_complete_iff (Runs.of_execute drainedExit hs) hcollect).mpr ⟨hpipe,Or.inl hwriter⟩⟩

/-- The program writes one byte and exits, and the shell returns before the writer
has run. -/
def earlyReturn : List Event := [.setup,.output [97],.exit,.collect]

theorem files_empty_after_earlyReturn :
    ∃ t : State 0, Reachable (step executeCmdInternalWriter 65536) (initial 0) t ∧
      t.shell = .returned ∧ t.output = [97] ∧ ∀ j, t.files j = [] := by
  have hrun : ((execute (restrict (step executeCmdInternalWriter 65536) fun _ _ => True) (initial 0)
      earlyReturn).map fun t => (t.shell,t.output,t.files 0,t.files 1)) =
      some (.returned,[97],[],[]) := by decide
  obtain ⟨t,ht,hstate⟩ := Option.map_eq_some_iff.mp hrun
  simp only [Prod.mk.injEq] at hstate
  obtain ⟨hreturned,houtput,hfirst,hsecond⟩ := hstate
  refine ⟨t,Runs.of_execute earlyReturn ht,hreturned,houtput,fun j => ?_⟩
  match j with
  | 0 => exact hfirst
  | 1 => exact hsecond

end CShellXv6.Tee
