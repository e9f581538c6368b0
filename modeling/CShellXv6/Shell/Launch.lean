import CShellXv6.Library.Descriptors
import CShellXv6.Shell.Builtins
import CShellXv6.Shell.Jobs
import Mathlib.Algebra.GroupWithZero.Nat
import Mathlib.Logic.Function.Basic

/-! # Launching a command group in the shell process

`execute_cmd_internal`, `execute_pipeline_fg` and `execute_pipeline_bg` with the
descriptors they open and close, the calls they make on the forked processes and
what they record in the job table. What the operating system answers on the way
is given by `Answers`. A `pid_t` is modelled by its bit pattern, so that the -1
of a failed fork goes wherever the code lets it go.
-/
namespace CShellXv6.Launch
open Lexer TokenCategory Descriptors
open Executor (Stage Split splitLoop beforeSeparator numStages stagesOf arraySize builtinOf wordsOf)
open Jobs (Job jobsAddPipeline jobsAddStopped)

/-! ## Processes and descriptors -/

/-- What `fork` returns in the parent when it succeeds. -/
abbrev Pid := {pid : ℕ // 1 < pid ∧ pid < 2 ^ 31}

def minusOne : ℕ := 2 ^ 32 - 1

/-- The value stored in a `pid_t`. -/
def pidOf : Option Pid → ℕ
  | some pid => pid
  | none => minusOne

/-- Pipes are numbered in the order of their creation. -/
inductive Handle
  | inherited (k : ℕ)
  | file (path : CString)
  | readEnd (pipe : ℕ)
  | writeEnd (pipe : ℕ)
  deriving DecidableEq, Repr

/-- Calls on processes; `kill` has the number that is passed to it. -/
inductive Call
  | setpgid (pid pgid : ℕ)
  | waitpid (pid : ℕ)
  | tcsetpgrp (pgid : ℕ)
  | kill (pid : ℕ)
  deriving DecidableEq, Repr

inductive Line
  | invalidSyntax
  | noSuchFile
  | unableToCreate
  | commandNotFound (cmdName : CString)
  | pipeFailed
  | forkFailed
  | started (jobId pid : ℕ)
  | stopped (jobId : ℕ) (disp : CString)
  | job (line : Jobs.Line)
  deriving DecidableEq, Repr

/-- The answers of the operating system during one launch. `visits` are the
opens of a built-in that runs in the shell, `sigpipe` tells whether the write to
the synchronization pipe finds no reader and the signal ends the shell. -/
structure Answers where
  openInput : ℕ → Bool
  openOutput : ℕ → Bool
  visits : List Bool
  found : Bool
  pipe : ℕ → Bool
  syncPipe : Bool
  fork : ℕ → Option Pid
  sigpipe : Bool
  isatty : Bool
  getpgrp : Pid
  stopped : ℕ → Bool

/-- The shell process. `forked` remembers for each announced job what the forks
of its stages returned. -/
structure State where
  fds : Table Handle
  pipeCount : ℕ
  table : List Job
  nextJobId : ℕ
  calls : List Call
  out : List Line
  forked : ℕ → List (Option Pid)

namespace State

def print (s : State) (line : Line) : State := { s with out := s.out ++ [line] }

def call (s : State) (c : Call) : State := { s with calls := s.calls ++ [c] }

def closeAll (s : State) (ds : List ℕ) : State := { s with fds := s.fds.closeAll ds }

def openFile (s : State) (path : CString) : ℕ × State :=
  (s.fds.lowest,{ s with fds := s.fds.add (.file path) })

def pipe (s : State) : (ℕ × ℕ) × State :=
  let fds := s.fds.add (.readEnd s.pipeCount)
  ((s.fds.lowest,fds.lowest),
    { s with fds := fds.add (.writeEnd s.pipeCount), pipeCount := s.pipeCount + 1 })

end State

/-- How a function leaves: it returns, the shell is killed in it, or an array
overflows and nothing is known. -/
inductive Exit
  | returned (ok : Bool)
  | killed
  | undefined
  deriving DecidableEq, Repr

structure Result where
  exit : Exit
  state : State

/-- An early `return 0` carries the state of the shell at that point. -/
def Result.ofExcept {β : Type*} (r : Except State β) (k : β → Result) : Result :=
  match r with
  | .error s => ⟨.returned false,s⟩
  | .ok b => k b

/-! ## Announcing jobs -/

/-- The group of a job is that of its first process. -/
def pgidOf (forks : List (Option Pid)) : ℕ := pidOf (forks.head?.getD none)

def procsOf (forks : List (Option Pid)) (names : List CString) : List (ℕ × CString) :=
  (forks.map pidOf).zip names

def disp (fullCmd name : CString) : CString := if fullCmd = [] then name else fullCmd

/-- The end of the three background launches, from the `close` of the read end
of the synchronization pipe on. -/
def announce (a : Answers) (jobId : ℕ) (forks : List (Option Pid)) (names : List CString)
    (fullCmd : CString) (sync : ℕ × ℕ) (s : State) : Result :=
  let s := (s.closeAll [sync.1]).print (.started jobId (pgidOf forks))
  if a.sigpipe then ⟨.killed,s⟩
  else
    let s := s.closeAll [sync.2]
    ⟨.returned true,{ s with
      table := jobsAddPipeline jobId (pgidOf forks) (procsOf forks names) fullCmd s.table
      forked := Function.update s.forked jobId forks }⟩

/-- The end of a foreground launch whose command has stopped. -/
def suspend (forks : List (Option Pid)) (names : List CString) (shown : CString) (s : State) :
    Result :=
  ⟨.returned false,{ s with
    table := jobsAddStopped s.nextJobId (pgidOf forks) (procsOf forks names) shown s.table
    nextJobId := s.nextJobId + 1
    forked := Function.update s.forked s.nextJobId forks
    out := s.out ++ [.stopped s.nextJobId shown] }⟩

/-- The terminal belongs to the group of the command while the shell waits. -/
def await (a : Answers) (forks : List (Option Pid)) (s : State) : State :=
  { s with calls := s.calls ++ (if a.isatty then [.tcsetpgrp (pgidOf forks)] else []) ++
      forks.map (fun f => .waitpid (pidOf f)) ++
      (if a.isatty then [.tcsetpgrp a.getpgrp] else []) }

/-- The synchronization pipe; a failure closes what the launch holds so far. -/
def openSync (a : Answers) (held : List ℕ) (s : State) : Except State ((ℕ × ℕ) × State) :=
  if a.syncPipe then .ok s.pipe else .error ((s.print .pipeFailed).closeAll held)

/-! ## Single commands -/

/-- Every input file is opened once to see that it can be. -/
def checkInputs (a : Answers) : ℕ → TokenList → State → Except State State
  | _, [], s => .ok s
  | i, t :: rest, s =>
    if a.openInput i then
      let r := s.openFile (t.text.getD [])
      checkInputs a (i + 1) rest (r.2.closeAll [r.1])
    else .error (s.print .noSuchFile)

def openOutputs (a : Answers) : ℕ → List (Token × Bool) → List ℕ → State →
    Except State (List ℕ × State)
  | _, [], outFds, s => .ok (outFds,s)
  | i, t :: rest, outFds, s =>
    if a.openOutput i then
      let r := s.openFile (t.1.text.getD [])
      openOutputs a (i + 1) rest (outFds ++ [r.1]) r.2
    else .error ((s.print .unableToCreate).closeAll outFds)

def launchForeground (a : Answers) (cmdName fullCmd : CString) (outFds : List ℕ) (s : State) :
    Result :=
  match a.fork 0 with
  | none => ⟨.returned false,(s.print .forkFailed).closeAll outFds⟩
  | some pid =>
    let s := await a [some pid] ((s.call (.setpgid pid pid)).closeAll outFds)
    if a.stopped 0 then suspend [some pid] [cmdName] (disp fullCmd cmdName) s
    else ⟨.returned true,s⟩

/-- A command in the background, or a built-in, which has no output files. -/
def launchBackground (a : Answers) (jobId : ℕ) (cmdName fullCmd : CString) (outFds : List ℕ)
    (s : State) : Result :=
  .ofExcept (openSync a outFds s) fun r =>
    match a.fork 0 with
    | none => ⟨.returned false,((r.2.print .forkFailed).closeAll outFds).closeAll [r.1.1,r.1.2]⟩
    | some pid =>
      announce a jobId [some pid] [cmdName] fullCmd r.1
        ((r.2.call (.setpgid pid pid)).closeAll outFds)

def skipPercent : CString → CString
  | '%' :: rest => rest
  | text => text

/-- From the opens on, with the arrays filled. `job` holds the number and the
name that a background command is recorded with. -/
def launchSplit (a : Answers) (split : Split) (cmdName : CString) (job : Option (ℕ × CString))
    (fullCmd : CString) (s : State) : Result :=
  .ofExcept ((checkInputs a 0 split.inputFiles s).bind (openOutputs a 0 split.outputFiles []))
    fun r =>
      if a.found then
        match job with
        | none => launchForeground a cmdName fullCmd r.1 r.2
        | some j => launchBackground a j.1 j.2 fullCmd r.1 r.2
      else ⟨.returned false,(r.2.print (.commandNotFound cmdName)).closeAll r.1⟩

def executeCmdInternal (a : Answers) (list : TokenList) (job : Option (ℕ × CString))
    (fullCmd : CString) (s : State) : Result :=
  if list = [] then ⟨.returned true,s⟩
  else
    let r := splitLoop (beforeSeparator list) Split.start
    -- The loop writes past the end of an array before it can find anything else wrong.
    if arraySize < r.1.inputFiles.length ∨ arraySize < r.1.outputFiles.length then
      ⟨.undefined,s⟩
    else if r.2 then
      match r.1.argv with
      | [] => ⟨.returned true,s⟩
      | cmd :: _ => launchSplit a r.1 (skipPercent (cmd.text.getD [])) job fullCmd s
    else ⟨.returned false,s.print .invalidSyntax⟩

/-! ## Pipelines -/

def hasInputRedir (stage : TokenList) : Bool := stage.any (fun t => t.type == opLt)

def hasOutputRedir (stage : TokenList) : Bool :=
  stage.any (fun t => t.type == opGt || t.type == opGtgt)

/-- The order in which the closing loops go through the pipes. -/
def ends (pipes : List (ℕ × ℕ)) : List ℕ := pipes.flatMap (fun p => [p.1,p.2])

/-- A failure returns at once and leaves the earlier pipes open. -/
def openPipes (a : Answers) : ℕ → ℕ → List (ℕ × ℕ) → State → Except State (List (ℕ × ℕ) × State)
  | _, 0, pipes, s => .ok (pipes,s)
  | i, n + 1, pipes, s =>
    if a.pipe i then
      let r := s.pipe
      openPipes a (i + 1) n (pipes ++ [r.1]) r.2
    else .error (s.print .pipeFailed)

/-- Only the background has a synchronization pipe. -/
def closeSync (fds : Table Handle) : Option (ℕ × ℕ) → Table Handle
  | some e => (fds.close e.2).close e.1
  | none => fds

/-- The descriptors of stage `i` of `n` when it enters `execute_stage_child`,
given those that it inherits. -/
def stageTable (sync : Option (ℕ × ℕ)) (pipes : List (ℕ × ℕ)) (n i : ℕ) (stage : TokenList)
    (fds : Table Handle) : Table Handle :=
  let fds := closeSync fds sync
  let fds := if !hasInputRedir stage && 0 < i then
      fds.dup2 (pipes.getD (i - 1) (0,0)).1 0 else fds
  let fds := if !hasOutputRedir stage && i < n - 1 then
      fds.dup2 (pipes.getD i (0,0)).2 1 else fds
  fds.closeAll (ends pipes)

/-- The shell after the forks, with what each fork returned and the descriptors
with which the forked stages enter `execute_stage_child`. -/
structure Started where
  state : State
  forks : List (Option Pid)
  children : List (Option (Table Handle))

/-- The loop does not look at what `fork` returns in the shell. -/
def forkLoop (a : Answers) (sync : Option (ℕ × ℕ)) (pipes : List (ℕ × ℕ)) (n : ℕ) :
    ℕ → List TokenList → Started → Started
  | _, [], p => p
  | i, stage :: rest, p =>
    let forks := p.forks ++ [a.fork i]
    forkLoop a sync pipes n (i + 1) rest
      { state := p.state.call (.setpgid (pidOf (a.fork i)) (pgidOf forks))
        forks := forks
        children := p.children ++
          [(a.fork i).map fun _ => stageTable sync pipes n i stage p.state.fds] }

/-- The fork loop and the closing loop of the shell. -/
def forkStages (a : Answers) (sync : Option (ℕ × ℕ)) (pipes : List (ℕ × ℕ))
    (stages : List TokenList) (s : State) : Started :=
  let p := forkLoop a sync pipes stages.length 0 stages ⟨s,[],[]⟩
  { p with state := p.state.closeAll (ends pipes) }

def stageTokens (list : TokenList) : List TokenList := (stagesOf list).map (Stage.tokens list)

/-- The checks on the stages and the pipes between them. -/
def preparePipeline (a : Answers) (list : TokenList) (s : State) :
    Except State (List (ℕ × ℕ) × State) :=
  if (stageTokens list).length < numStages list ∨ (stagesOf list).any (fun p => p.count == 0) then
    .error (s.print .invalidSyntax)
  else openPipes a 0 ((stageTokens list).length - 1) [] s

/-- `execute_pipeline_fg` on several stages, up to its closing loop. -/
def startFg (a : Answers) (list : TokenList) (s : State) : Except State Started :=
  (preparePipeline a list s).map fun r => forkStages a none r.1 (stageTokens list) r.2

/-- `execute_pipeline_bg` on several stages, up to its closing loop, with the
synchronization pipe. -/
def startBg (a : Answers) (list : TokenList) (s : State) : Except State ((ℕ × ℕ) × Started) :=
  (preparePipeline a list s).bind fun r => (openSync a (ends r.1) r.2).map fun q =>
    (q.1,forkStages a (some q.1) r.1 (stageTokens list) q.2)

def stageCmd (stage : TokenList) : CString := (stage.head?.bind Token.text).getD []

def stageCmds (list : TokenList) : List CString := (stageTokens list).map stageCmd

/-- The built-in named by the first word. -/
def builtinAt (list : TokenList) : Option Executor.Builtin :=
  match list with
  | [] => none
  | t :: _ => if t.type = opWord then t.text.bind builtinOf else none

/-- A built-in closes each file or directory before it opens the next. -/
def visitFiles (visits : List Bool) (s : State) : State :=
  visits.foldl (fun s ok => if ok then
    let r := s.openFile []
    r.2.closeAll [r.1] else s) s

def executePipelineFg (a : Answers) (list : TokenList) (fullCmd : CString) (s : State) : Result :=
  if list = [] then ⟨.returned true,s⟩
  else if numStages list = 1 then
    match builtinAt list with
    | some _ => ⟨.returned true,visitFiles a.visits s⟩
    | none => executeCmdInternal a list none fullCmd s
  else
    .ofExcept (startFg a list s) fun p =>
      let s := await a p.forks p.state
      if (List.range p.forks.length).any a.stopped then
        suspend p.forks (stageCmds list) (disp fullCmd ((stageCmds list).headD [])) s
      else ⟨.returned true,s⟩

/-- The first word without `%` and without the path before its last slash. -/
def bgCmdName (list : TokenList) : CString :=
  let rawCmd := skipPercent (((wordsOf list).head?.bind Token.text).getD [])
  (rawCmd.reverse.takeWhile (· ≠ '/')).reverse

def executePipelineBg (a : Answers) (list : TokenList) (jobId : ℕ) (fullCmd : CString) (s : State) :
    Result :=
  if list = [] then ⟨.returned true,s⟩
  else if numStages list = 1 then
    match builtinAt list with
    | some _ => launchBackground a jobId (bgCmdName list) fullCmd [] s
    | none => executeCmdInternal a list (some (jobId,bgCmdName list)) fullCmd s
  else
    .ofExcept (startBg a list s) fun r =>
      announce a jobId r.2.forks (stageCmds list) (disp fullCmd ((stageCmds list).headD [])) r.1
        r.2.state

end CShellXv6.Launch
