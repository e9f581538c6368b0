import CShellXv6.Shell.Builtins

/-! # The dispatchers and launch paths of the executor

The functions below follow `execute.c` from the token list to the point where a
program or a built-in has been given its arguments. What the operating system
answers on the way is an `Outcome`, so a statement about every outcome covers
every path.
-/
namespace CShellXv6.Executor
open Lexer TokenCategory

/-- The answers of the operating system that steer one launch: which opens
succeed, whether the command search finds a file, and whether a foreground
pipeline is reported stopped. -/
structure Outcome where
  openInput : ℕ → Bool
  openOutput : ℕ → Bool
  found : Bool
  anyStopped : Bool
  deriving Inhabited

/-- The check that every input file can be opened; false when one cannot. -/
def openInputs (o : Outcome) : ℕ → TokenList → Trace × Bool
  | _, [] => ([],true)
  | i, t :: rest =>
    if o.openInput i then
      let r := openInputs o (i + 1) rest
      (.deref t :: r.1,r.2)
    else ([.deref t],false)

/-- The opening of the output files into `out_fds`. -/
def openOutputs (o : Outcome) : ℕ → List (Token × Bool) → Trace × Bool
  | _, [] => ([],true)
  | i, t :: rest =>
    if o.openOutput i then
      let r := openOutputs o (i + 1) rest
      (.deref t.1 :: .store .outFds i :: r.1,r.2)
    else ([.deref t.1,.store .outFds i],false)

/-- From the arrays to `execv`: the files, the command search, the argument
vector. The list is what the splitting loop left. -/
def launch (o : Outcome) (s : Split) : Trace :=
  .store .argv s.argv.length :: (match s.argv with
    | [] => []
    | cmd :: _ =>
      let inputs := openInputs o 0 s.inputFiles
      let outputs := openOutputs o 0 s.outputFiles
      inputs.1 ++ (if inputs.2 then outputs.1 ++ (if outputs.2 then
        .deref cmd :: (if o.found then
          s.inputFiles.map .deref ++ s.argv.map .deref else []) else []) else []))

/-- The splitting loop followed by the launch when it did not leave early. -/
def splitAndLaunch (o : Outcome) (list : TokenList) : Trace :=
  let r := splitLoop list Split.start
  r.1.trace ++ (if r.2 then launch o r.1 else [])

def executeCmdInternal (o : Outcome) (list : TokenList) : Trace :=
  if list = [] then [] else splitAndLaunch o (beforeSeparator list)

/-- The dispatch on the first word, shared by the three dispatchers. -/
def dispatch (o : Outcome) (list : TokenList) (external : Trace) : Trace :=
  match list with
  | [] => external
  | t :: _ =>
    if t.type = opWord then
      readText t fun cmdName =>
        match builtinOf cmdName with
        | some b => runBuiltin o.found b list
        | none => external
    else external

def executeStageChild (o : Outcome) (list : TokenList) : Trace :=
  if list = [] then [] else dispatch o list (splitAndLaunch o list)

/-- The stage array, the pipes, the forks and every child of a pipeline, up to
the names that are collected for the job table when `register` holds. -/
def runStages (o : Outcome) (list : TokenList) (register : Bool) : Trace :=
  let stages := stagesOf list
  (List.range stages.length).map (.store .stages) ++
  (if stages.length < numStages list then [.invalidSyntax]
  else if stages.any (fun s => s.count == 0) then [.invalidSyntax]
  else
    (List.range (stages.length - 1)).map (.store .pipes) ++
    (List.range stages.length).map (.store .pids) ++
    stages.flatMap (fun s => executeStageChild o (s.tokens list)) ++
    (if register then
      (List.range stages.length).map (.store .stageCmds) ++
      stages.flatMap (fun s => ((s.tokens list).take 1).map .deref) else []))

def executePipelineFg (o : Outcome) (list : TokenList) : Trace :=
  if list = [] then []
  else if numStages list = 1 then dispatch o list (executeCmdInternal o list)
  else runStages o list o.anyStopped

/-- The first word is read for the name shown in the job table. -/
def executePipelineBg (o : Outcome) (list : TokenList) : Trace :=
  if list = [] then []
  else
    ((wordsOf list).take 1).map .deref ++
    (if numStages list = 1 then dispatch o list (executeCmdInternal o list)
    else runStages o list true)

/-- The texts read by `reconstruct_cmd_str`, which checks words for NULL. -/
def reconstructCmdStr (list : TokenList) : Trace :=
  ((wordsOf list).filter (fun t => t.text.isSome)).map .deref

/-- The body of the loop of `execute_command_line` for one group. -/
def executeGroup (o : Outcome) (group : TokenList × Bool) : Trace :=
  reconstructCmdStr group.1 ++
  (if group.2 then executePipelineBg o group.1 else executePipelineFg o group.1)

end CShellXv6.Executor
