import CShellXv6.Shell.Lexer
import CShellXv6.Shell.Parser
import CShellXv6.Shell.Jobs
import CShellXv6.Library.Transition

/-! # The read loop of the shell

A pass of the loop in `main` depends on what `fgets` brings, on the answer of
`jobs_has_stopped`, on whether a signal was handled, and on the `errno` that
earlier calls have left behind. The kernel and the commands decide these; the
loop carries the rest from one pass to the next.
-/
namespace CShellXv6.MainLoop
open Lexer Recognizer Transition
open Jobs (Os Job jobsRefreshStates)

def maxInputLen : ℕ := 1024

def eintr : ℕ := 4

/-- A buffer read as a C string. -/
def cstring (buffer : List Char) : CString := buffer.takeWhile (· ≠ Char.ofNat 0)

/-- The outcomes of `fgets`; a plain end of file leaves `errno` alone. -/
inductive Fgets
  | chunk (buffer : List Char)
  | failed (errno : ℕ)
  | eof
  deriving DecidableEq, Repr

/-- What a pass makes visible. -/
inductive Act
  | prompt
  | newline
  | stoppedJobs
  | lex (line : CString)
  | invalidSyntax
  | execute (tokens : TokenList)
  | sighupAll
  deriving DecidableEq, Repr

structure Main where
  line : CString
  accum : CString
  eofWarned : Bool
  promptInterrupted : Bool
  errno : ℕ
  running : Bool
  acts : List Act
  deriving DecidableEq, Repr

/-- The surroundings of one pass: the `errno` of calls that fail before and after
the read, whether a handler has run, and the job table. -/
structure Turn (σ : Type*) where
  errnoBefore : Option ℕ
  signalled : Bool
  outcome : Fgets
  table : List Job
  env : σ
  errnoAfter : Option ℕ

def jobsHasStopped {σ : Type*} (os : Os σ) (table : List Job) (s : σ) : Bool :=
  (jobsRefreshStates os table s).1.any fun job => job.active && job.isStopped

/-- The top of the loop, up to the return of `fgets`. -/
def Main.ready {σ : Type*} (m : Main) (t : Turn σ) : Main :=
  let m := { m with promptInterrupted := m.promptInterrupted || t.signalled }
  if m.accum = [] then
    { m with errno := t.errnoBefore.getD m.errno, acts := m.acts ++ [.prompt] }
  else m

def Main.interrupted (m : Main) : Main :=
  if m.promptInterrupted then
    { m with acts := m.acts ++ [.newline], promptInterrupted := false, accum := [] }
  else m

/-- What follows `lex_line`. -/
def reply (line : CString) : List Act :=
  match lexLine line with
  | none => [.invalidSyntax]
  | some tokens =>
    if parseTokens tokens then if tokens.isEmpty then [] else [.execute tokens]
    else [.invalidSyntax]

def Main.command (m : Main) (line : CString) : Main :=
  { m with eofWarned := false, accum := [], acts := m.acts ++ .lex line :: reply line }

/-- What does not fit any more is dropped. -/
def Main.append (m : Main) : Main :=
  if m.line ≠ [] ∧ m.accum.length + m.line.length < maxInputLen + 1 then
    { m with accum := m.accum ++ m.line }
  else m

/-- The rest of the pass, with a line in the buffer. -/
def Main.assemble (m : Main) (tty : Bool) : Main :=
  let m := m.append
  if m.accum = [] then m
  else if m.accum.getLast? = some '\n' then m.command m.accum.dropLast
  else if tty then m
  else m.command m.accum

/-- Nothing could be read, and this was no interruption. -/
def Main.endOfInput (m : Main) (tty feof stopped : Bool) : Main :=
  if m.accum ≠ [] then if !tty && feof then m.assemble tty else m
  else if stopped && !m.eofWarned then
    { m with acts := m.acts ++ [.stoppedJobs], eofWarned := true }
  else { m with acts := m.acts ++ [.sighupAll,.sighupAll,.newline], running := false }

def Main.read {σ : Type*} (os : Os σ) (tty : Bool) (m : Main) (t : Turn σ) : Main :=
  match t.outcome with
  | .chunk buffer => { m with line := cstring buffer }.assemble tty
  | .failed errno =>
    if errno = eintr then { m with errno }.interrupted
    else { m with errno }.endOfInput tty false (jobsHasStopped os t.table t.env)
  | .eof =>
    if m.errno = eintr then m.interrupted
    else m.endOfInput tty true (jobsHasStopped os t.table t.env)

def Main.pass {σ : Type*} (os : Os σ) (tty : Bool) (m : Main) (t : Turn σ) : Main :=
  let m := (m.ready t).read os tty t
  { m with errno := t.errnoAfter.getD m.errno }

def Main.start : Main := ⟨[],[],false,false,0,true,[]⟩

def step {σ : Type*} (os : Os σ) (tty : Bool) (m : Main) (t : Turn σ) : Option Main :=
  if m.running then some (m.pass os tty t) else none

/-! ## The end of the input -/

def Act.pending (before : Bool) : Act → Bool
  | .stoppedJobs => true
  | .lex _ => false
  | _ => before

/-- The warning about stopped jobs was given, and no line was read since. -/
def warningPending (acts : List Act) : Bool := acts.foldl Act.pending false

@[simp] theorem warningPending_append (acts more : List Act) :
    warningPending (acts ++ more) = more.foldl Act.pending (warningPending acts) :=
  List.foldl_append

@[simp] theorem reply_pending (line : CString) (before : Bool) :
    (reply line).foldl Act.pending before = before := by
  unfold reply
  split
  · rfl
  split
  · split <;> rfl
  · rfl

/-- The flag says whether a warning is pending. -/
def Main.Tracks (m : Main) : Prop := m.eofWarned = warningPending m.acts

section Passes
variable {σ : Type*} {os : Os σ} {tty : Bool} {m : Main} (h : m.Tracks)
include h

theorem Main.Tracks.ready (t : Turn σ) : (m.ready t).Tracks := by
  unfold Main.ready
  dsimp only
  split
  · simpa [Main.Tracks,Act.pending] using h
  · exact h

theorem Main.Tracks.interrupted : m.interrupted.Tracks := by
  unfold Main.interrupted
  split
  · simpa [Main.Tracks,Act.pending] using h
  · exact h

theorem Main.Tracks.append : m.append.Tracks := by
  unfold Main.append
  split
  · exact h
  · exact h

omit h in
theorem Main.command_tracks (m : Main) (line : CString) : (m.command line).Tracks := by
  simp [Main.Tracks,Main.command,Act.pending]

theorem Main.Tracks.assemble : (m.assemble tty).Tracks := by
  have happend := h.append
  unfold Main.assemble
  dsimp only
  split
  · exact happend
  split
  · exact Main.command_tracks _ _
  split
  · exact happend
  · exact Main.command_tracks _ _

theorem Main.Tracks.endOfInput (feof stopped : Bool) : (m.endOfInput tty feof stopped).Tracks := by
  unfold Main.endOfInput
  split
  · split
    · exact h.assemble
    · exact h
  split
  · simp [Main.Tracks,Act.pending]
  · simpa [Main.Tracks,Act.pending] using h

theorem Main.Tracks.pass (t : Turn σ) : (m.pass os tty t).Tracks := by
  have hready := h.ready t
  have hread : ((m.ready t).read os tty t).Tracks := by
    unfold Main.read
    split
    · exact Main.Tracks.assemble hready
    · next errno _ =>
      have herrno : { m.ready t with errno }.Tracks := hready
      split
      · exact herrno.interrupted
      · exact herrno.endOfInput false _
    · split
      · exact hready.interrupted
      · exact hready.endOfInput true _
  exact hread

end Passes

theorem reachable_tracks {σ : Type*} {os : Os σ} {tty : Bool} {m : Main}
    (hm : Reachable (step os tty) .start m) : m.Tracks := by
  refine hm.invariant (I := Main.Tracks) rfl fun m t m' h _ hstep => ?_
  obtain ⟨_,hpass⟩ := Option.ite_none_right_eq_some.mp hstep
  cases hpass
  exact h.pass t

/-- What the end of the input means on an empty line: a warning if a job is
stopped and none is pending, and otherwise the end of the loop. -/
def EndsInput (m m' : Main) (stopped : Bool) : Prop :=
  if stopped && !warningPending m.acts then
    m' = { m with
      acts := m.acts ++ [.prompt,.stoppedJobs]
      eofWarned := true
      errno := m'.errno
      promptInterrupted := m'.promptInterrupted }
  else m'.running = false

theorem Main.interrupted_running (m : Main) : m.interrupted.running = m.running := by
  unfold Main.interrupted
  split <;> rfl

theorem Main.interrupted_eofWarned (m : Main) : m.interrupted.eofWarned = m.eofWarned := by
  unfold Main.interrupted
  split <;> rfl

theorem Main.endOfInput_nil {m : Main} (h : m.accum = []) (tty feof stopped : Bool) :
    m.endOfInput tty feof stopped =
      if stopped && !m.eofWarned then
        { m with acts := m.acts ++ [.stoppedJobs], eofWarned := true }
      else { m with acts := m.acts ++ [.sighupAll,.sighupAll,.newline], running := false } := by
  simp [Main.endOfInput,h]

/-- A pass that leaves the loop and the flag alone does not end the input. -/
theorem not_endsInput {m m' : Main} (h : m.Tracks) (hrunning : m'.running = true)
    (hwarned : m'.eofWarned = m.eofWarned) (stopped : Bool) : ¬ EndsInput m m' stopped := by
  unfold EndsInput
  split
  · next hpending =>
    intro heq
    rw [heq, h] at hwarned
    simp [← hwarned] at hpending
  · simp [hrunning]

/-- The end of the input is understood exactly when no interrupted call has left
its `errno` behind. -/
theorem endsInput_iff {σ : Type*} {os : Os σ} {tty : Bool} {m m' : Main}
    (hm : Reachable (step os tty) .start m) (haccum : m.accum = []) {t : Turn σ}
    (heof : t.outcome = .eof) (hstep : step os tty m t = some m') :
    EndsInput m m' (jobsHasStopped os t.table t.env) ↔ t.errnoBefore.getD m.errno ≠ eintr := by
  have htracks := reachable_tracks hm
  obtain ⟨hrunning,hpass⟩ := Option.ite_none_right_eq_some.mp hstep
  cases hpass
  have hready : m.ready t = { m with
      promptInterrupted := m.promptInterrupted || t.signalled
      errno := t.errnoBefore.getD m.errno
      acts := m.acts ++ [.prompt] } := by
    simp [Main.ready,haccum]
  have herr : (m.ready t).errno = t.errnoBefore.getD m.errno := by rw [hready]
  unfold Main.pass Main.read
  rw [heof]
  dsimp only
  rw [herr]
  by_cases herrno : t.errnoBefore.getD m.errno = eintr
  · rw [if_pos herrno]
    refine iff_of_false (not_endsInput htracks ?_ ?_ _) (fun hne => hne herrno)
    · dsimp only
      rw [Main.interrupted_running, hready]
      exact hrunning
    · dsimp only
      rw [Main.interrupted_eofWarned, hready]
  · rw [if_neg herrno, Main.endOfInput_nil (by rw [hready]; exact haccum), hready]
    refine iff_of_true ?_ herrno
    unfold EndsInput
    rw [← htracks]
    cases hwarn : jobsHasStopped os t.table t.env && !m.eofWarned with
    | true => simp
    | false => simp

/-- A system in which the shell has no children. -/
def noChildren : Os Unit := ⟨fun s _ _ => (.noChild,s),fun s _ => (.missing,s),by simp⟩

/-- A pass in which no other call fails. -/
def quiet (outcome : Fgets) : Turn Unit := ⟨none,false,outcome,[],(),none⟩

theorem endsInput_at_start :
    ∃ m', step noChildren true .start (quiet .eof) = some m' ∧ EndsInput .start m' false := by
  have hstep : step noChildren true .start (quiet .eof) = some
      ⟨[],[],false,false,0,false,[.prompt,.sighupAll,.sighupAll,.newline]⟩ := by decide
  exact ⟨_,hstep,(endsInput_iff (.refl Main.start) rfl rfl hstep).mpr (by decide)⟩

/-- After an interruption at the prompt the end of the input is taken for another
one. -/
theorem interruption_hides_eof :
    ∃ m m', Reachable (step noChildren true) .start m ∧ m.accum = [] ∧
      step noChildren true m (quiet .eof) = some m' ∧
      ¬ EndsInput m m' (jobsHasStopped noChildren [] ()) := by
  let interrupt : Turn Unit := { quiet (.failed eintr) with signalled := true }
  have hinterrupt : step noChildren true .start interrupt = some
      ⟨[],[],false,false,eintr,true,[.prompt,.newline]⟩ := by decide
  have heof : step noChildren true ⟨[],[],false,false,eintr,true,[.prompt,.newline]⟩ (quiet .eof) =
      some ⟨[],[],false,false,eintr,true,[.prompt,.newline,.prompt]⟩ := by decide
  have htracks : Main.Tracks ⟨[],[],false,false,eintr,true,[.prompt,.newline]⟩ := rfl
  exact ⟨_,_,Runs.single trivial hinterrupt,rfl,heof,not_endsInput htracks (by rfl) (by rfl) _⟩

end CShellXv6.MainLoop
