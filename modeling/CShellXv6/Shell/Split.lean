import CShellXv6.Shell.Token
import Mathlib.Data.List.Basic

/-! # How the executor cuts a token list

`execute_command_line` cuts a line into command groups, the pipeline functions
cut a group into stages, and two copies of one loop sort the tokens of a stage
into arguments and redirections. All three work by counters into fixed arrays,
so the traces below record every array index that is written, every token text
that is read and every exit with `invalid syntax`.
-/
namespace CShellXv6.Executor
open Lexer TokenCategory

/-- The fixed-size arrays of `execute.c` that are filled by index. -/
inductive Buffer
  | argv
  | inputFiles
  | outputFiles
  | outFds
  | stages
  | pipes
  | pids
  | stageCmds
  deriving DecidableEq, Repr

/-- The observable uses of tokens and arrays. `deref t` is a read through the
text pointer of `t`, so `deref` of a token without text is a NULL dereference. -/
inductive Action
  | store (buffer : Buffer) (index : ℕ)
  | deref (token : Token)
  | invalidSyntax
  deriving DecidableEq, Repr

abbrev Trace := List Action

/-- The declared length of every array in `Buffer`. -/
def arraySize : ℕ := 256

def isSeparator (t : Token) : Bool := t.type == opSemi || t.type == opAmp

def isPipe (t : Token) : Bool := t.type == opPipe

/-! ## Sorting the tokens of one command -/

structure Split where
  argv : TokenList
  inputFiles : TokenList
  outputFiles : List (Token × Bool)
  trace : Trace

def Split.start : Split := ⟨[],[],[],[]⟩

def Split.pushArg (s : Split) (t : Token) : Split :=
  { s with argv := s.argv ++ [t], trace := s.trace ++ [.store .argv s.argv.length] }

def Split.pushInput (s : Split) (t : Token) : Split :=
  { s with
    inputFiles := s.inputFiles ++ [t]
    trace := s.trace ++ [.store .inputFiles s.inputFiles.length] }

def Split.pushOutput (isAppend : Bool) (s : Split) (t : Token) : Split :=
  { s with
    outputFiles := s.outputFiles ++ [(t,isAppend)]
    trace := s.trace ++ [.store .outputFiles s.outputFiles.length] }

@[simp] theorem Split.pushArg_inputFiles (s : Split) (t : Token) :
    (s.pushArg t).inputFiles = s.inputFiles := rfl

@[simp] theorem Split.pushArg_outputFiles (s : Split) (t : Token) :
    (s.pushArg t).outputFiles = s.outputFiles := rfl

@[simp] theorem Split.pushInput_inputFiles (s : Split) (t : Token) :
    (s.pushInput t).inputFiles = s.inputFiles ++ [t] := rfl

@[simp] theorem Split.pushInput_outputFiles (s : Split) (t : Token) :
    (s.pushInput t).outputFiles = s.outputFiles := rfl

@[simp] theorem Split.pushOutput_inputFiles (s : Split) (isAppend : Bool) (t : Token) :
    (Split.pushOutput isAppend s t).inputFiles = s.inputFiles := rfl

@[simp] theorem Split.pushOutput_outputFiles (s : Split) (isAppend : Bool) (t : Token) :
    (Split.pushOutput isAppend s t).outputFiles = s.outputFiles ++ [(t,isAppend)] := rfl

/-- What the three redirection branches do with the word after the operator. -/
def redirection : TokenCategory → Option (Split → Token → Split)
  | opLt => some Split.pushInput
  | opGt => some (Split.pushOutput false)
  | opGtgt => some (Split.pushOutput true)
  | _ => none

/-- The splitting loop of `execute_cmd_internal` and `execute_stage_child`. The
flag is false when the loop left through an `invalid syntax` exit. -/
def splitLoop : TokenList → Split → Split × Bool
  | [], s => (s,true)
  | t :: rest, s =>
    match redirection t.type with
    | some push =>
      match rest with
      | [] => ({ s with trace := s.trace ++ [.invalidSyntax] },false)
      | u :: rest' =>
        if u.type = opWord then splitLoop rest' (push s u)
        else ({ s with trace := s.trace ++ [.invalidSyntax] },false)
    | none =>
      if t.type = opWord ∧ s.argv.length < 255 then splitLoop rest (s.pushArg t)
      else splitLoop rest s

/-- The tokens before the first separator, as `group_count` delimits them. -/
def beforeSeparator (list : TokenList) : TokenList := list.takeWhile (fun t => !isSeparator t)

/-! ## Stages of a group -/

/-- The stage count computed before any splitting. -/
def numStages (list : TokenList) : ℕ := (beforeSeparator list).countP isPipe + 1

/-- A stage is a slice of the token array. -/
structure Stage where
  startIdx : ℕ
  count : ℕ
  deriving DecidableEq, Repr

def Stage.tokens (list : TokenList) (s : Stage) : TokenList := (list.drop s.startIdx).take s.count

def pushStage (stages : List Stage) (s : Stage) : List Stage :=
  if stages.length < arraySize then stages ++ [s] else stages

/-- The stage loop: the tokens from index `i` on, the start of the open stage
and the stages stored so far. -/
def stageLoop : TokenList → ℕ → ℕ → List Stage → ℕ × List Stage
  | [], _, startIdx, stages => (startIdx,stages)
  | t :: rest, i, startIdx, stages =>
    if isSeparator t then
      (startIdx,if startIdx < i then pushStage stages ⟨startIdx,i - startIdx⟩ else stages)
    else if isPipe t then
      stageLoop rest (i + 1) (i + 1) (pushStage stages ⟨startIdx,i - startIdx⟩)
    else stageLoop rest (i + 1) startIdx stages

/-- The stages array after the loop and the final push. -/
def stagesOf (list : TokenList) : List Stage :=
  let r := stageLoop list 0 0 []
  match list[r.1]? with
  | some t => if isSeparator t then r.2 else pushStage r.2 ⟨r.1,list.length - r.1⟩
  | none => r.2

/-! ## Groups of a line -/

/-- The groups that `execute_command_line` hands over, each with its background
flag: `cur` holds the tokens since the last separator. -/
def groupLoop : TokenList → TokenList → List (TokenList × Bool)
  | [], cur => if cur = [] then [] else [(cur,false)]
  | t :: rest, cur =>
    if isSeparator t then
      if cur = [] then groupLoop rest [] else (cur,t.type == opAmp) :: groupLoop rest []
    else groupLoop rest (cur ++ [t])

def groups (list : TokenList) : List (TokenList × Bool) := groupLoop list []

end CShellXv6.Executor
