import CShellXv6.Shell.Token
import Mathlib.Data.List.Chain
import Mathlib.Order.Basic

/-! # The recursive-descent recognizer

The five procedures share one cursor into the token array. Each is shown to
decide one shape of the tokens left, and to leave nothing unread when it
accepts.
-/
namespace CShellXv6.Recognizer
open Lexer TokenCategory

structure Parser where
  toks : TokenList
  pos : ℕ

def Parser.n (p : Parser) : ℕ := p.toks.length

def Parser.next (p : Parser) : Parser := { p with pos := p.pos + 1 }

def atEnd (p : Parser) : Bool := p.pos ≥ p.n

/-- The type read at the cursor. Every caller checks `atEnd` first. -/
def tokenTypeParser (p : Parser) : Option TokenCategory := p.toks[p.pos]?.map Token.type

theorem pos_lt_of_not_atEnd {p : Parser} (h : ¬ atEnd p = true) : p.pos < p.n := by
  simpa [atEnd] using h

mutual

def cmd (p : Parser) : Bool × Parser :=
  if atEnd p then (false,p)
  else if tokenTypeParser p ≠ some opWord then (false,p)
  else arg p.next
termination_by 2*(p.n - p.pos)
decreasing_by
  have hlt := pos_lt_of_not_atEnd ‹_›
  simp only [Parser.next, Parser.n] at hlt ⊢
  omega

def tgt (p : Parser) : Bool × Parser :=
  if atEnd p then (false,p)
  else if tokenTypeParser p ≠ some opWord then (false,p)
  else arg p.next
termination_by 2*(p.n - p.pos)
decreasing_by
  have hlt := pos_lt_of_not_atEnd ‹_›
  simp only [Parser.next, Parser.n] at hlt ⊢
  omega

def bg (p : Parser) : Bool × Parser :=
  if atEnd p then (true,p) else cmd p
termination_by 2*(p.n - p.pos) + 1

def arg (p : Parser) : Bool × Parser :=
  if atEnd p then (true,p)
  else
    match tokenTypeParser p with
    | some opWord => arg p.next
    | some opLt => tgt p.next
    | some opGt => tgt p.next
    | some opGtgt => tgt p.next
    | some opPipe => cmd p.next
    | some opSemi => cmd p.next
    | some opAmp => bg p.next
    | none => (false,p)
termination_by 2*(p.n - p.pos)
decreasing_by
  all_goals
    have hlt := pos_lt_of_not_atEnd ‹_›
    simp only [Parser.next, Parser.n] at hlt ⊢
    omega

end

def line (p : Parser) : Bool × Parser :=
  if atEnd p then (true,p)
  else if tokenTypeParser p ≠ some opWord then (false,p)
  else arg p.next

/-- The parser state that `parse_tokens` starts from. -/
def start (list : TokenList) : Parser := ⟨list,0⟩

def parseTokens (list : TokenList) : Bool := (line (start list)).1

/-- The tokens not yet consumed. -/
def Parser.rest (p : Parser) : TokenList := p.toks.drop p.pos

theorem Parser.next_rest (p : Parser) : p.next.rest = p.rest.tail := by
  simp [Parser.next,Parser.rest,List.tail_drop]

theorem atEnd_of_rest_nil {p : Parser} (h : p.rest = []) : atEnd p = true := by
  simpa [atEnd,Parser.n,Parser.rest] using h

theorem atEnd_of_rest_cons {p : Parser} {t : Token} {ts : TokenList} (h : p.rest = t :: ts) :
    atEnd p = false := by
  have hne : p.rest ≠ [] := by simp [h]
  simpa [atEnd,Parser.n,Parser.rest] using hne

theorem tokenTypeParser_of_rest_cons {p : Parser} {t : Token} {ts : TokenList}
    (h : p.rest = t :: ts) : tokenTypeParser p = some t.type := by
  have hh : p.toks[p.pos]? = some t := by
    rw [← List.head?_drop]
    exact congrArg List.head? h
  simp [tokenTypeParser,hh]

/-- Everything consumed, with the token array untouched. -/
def Parser.finished (p : Parser) : Parser := ⟨p.toks,p.toks.length⟩

/-- What may stand after the first word of a line. -/
def argShape : List TokenCategory → Bool
  | [] => true
  | t :: ts =>
    if t = opWord then argShape ts
    else
      match ts with
      | [] => t == opAmp
      | u :: us => u == opWord && argShape us

theorem argShape_nil : argShape [] = true := by rw [argShape]

theorem argShape_word (ts : List TokenCategory) : argShape (opWord :: ts) = argShape ts := by
  rw [argShape.eq_def]
  simp

theorem argShape_last {t : TokenCategory} (ht : t ≠ opWord) : argShape [t] = (t == opAmp) := by
  rw [argShape.eq_def]
  simp [ht]

theorem argShape_operator {t : TokenCategory} (ht : t ≠ opWord) (u : TokenCategory)
    (us : List TokenCategory) : argShape (t :: u :: us) = (u == opWord && argShape us) := by
  rw [argShape.eq_def]
  simp [ht]

/-- A result of one procedure: the verdict, and full consumption when it is positive. -/
def Decides (r : Bool × Parser) (p : Parser) (verdict : Bool) : Prop :=
  r.1 = verdict ∧ (verdict = true → r.2 = p.finished)

theorem Decides.of_next {r : Bool × Parser} {p : Parser} {verdict : Bool}
    (h : Decides r p.next verdict) : Decides r p verdict := h

theorem decides_end {p : Parser} (h : p.rest = []) (hp : p.pos ≤ p.n) :
    Decides (true,p) p true := by
  have hle : p.toks.length ≤ p.pos := by simpa [Parser.rest] using h
  refine ⟨rfl,fun _ => ?_⟩
  rcases p with ⟨toks,pos⟩
  simp only [Parser.finished, Parser.mk.injEq, true_and]
  exact le_antisymm hp hle

theorem Parser.next_pos_le {p : Parser} {t : Token} {ts : TokenList} (h : p.rest = t :: ts) :
    p.next.pos ≤ p.next.n := by
  have hlt := pos_lt_of_not_atEnd (p := p) (by simp [atEnd_of_rest_cons h])
  exact hlt

theorem cmd_decides {p : Parser}
    (harg : ∀ q : Parser, q.rest.length < p.rest.length → q.pos ≤ q.n →
      Decides (arg q) q (argShape (q.rest.map Token.type))) :
    Decides (cmd p) p (match p.rest.map Token.type with
      | [] => false
      | u :: us => u == opWord && argShape us) := by
  rw [cmd]
  cases hr : p.rest with
  | nil => simp [atEnd_of_rest_nil hr,Decides]
  | cons t ts =>
    have hnext : p.next.rest = ts := by simp [Parser.next_rest,hr]
    simp only [atEnd_of_rest_cons hr, tokenTypeParser_of_rest_cons hr, List.map_cons]
    by_cases ht : t.type = opWord
    · have hd := harg p.next (by simp [hnext,hr]) (Parser.next_pos_le hr)
      rw [hnext] at hd
      simpa [ht] using hd.of_next
    · simp [ht,Decides]

theorem tgt_eq_cmd (p : Parser) : tgt p = cmd p := by rw [tgt,cmd]

/-- `ARG` accepts exactly the admissible continuations and consumes them. -/
theorem arg_decides (p : Parser) (hp : p.pos ≤ p.n) :
    Decides (arg p) p (argShape (p.rest.map Token.type)) := by
  induction hk : p.rest.length using Nat.strongRecOn generalizing p with
  | _ k ih =>
    have harg : ∀ q : Parser, q.rest.length < p.rest.length → q.pos ≤ q.n →
        Decides (arg q) q (argShape (q.rest.map Token.type)) :=
      fun q hq hqp => ih _ (hk ▸ hq) q hqp rfl
    rw [arg]
    cases hr : p.rest with
    | nil =>
      simp only [atEnd_of_rest_nil hr, ↓reduceIte, List.map_nil, argShape_nil]
      exact decides_end hr hp
    | cons t ts =>
      have hnext : p.next.rest = ts := by simp [Parser.next_rest,hr]
      have hlt : p.next.rest.length < p.rest.length := by simp [hnext,hr]
      have hle := Parser.next_pos_le hr
      have hcmd := (cmd_decides (p := p.next) (fun q hq => harg q (hq.trans hlt))).of_next
      rw [hnext] at hcmd
      simp only [atEnd_of_rest_cons hr, tokenTypeParser_of_rest_cons hr, List.map_cons,
        Bool.false_eq_true, ↓reduceIte, tgt_eq_cmd]
      cases ht : t.type with
      | opWord =>
        have hd := (harg p.next hlt hle).of_next
        rw [hnext] at hd
        simpa [argShape_word] using hd
      | opAmp =>
        simp only [bg]
        cases ts with
        | nil =>
          simp only [atEnd_of_rest_nil hnext, ↓reduceIte]
          simpa [argShape_last] using (decides_end hnext hle).of_next
        | cons u us => simpa [atEnd_of_rest_cons hnext,argShape_operator] using hcmd
      | opPipe | opSemi | opLt | opGt | opGtgt =>
        cases ts with
        | nil =>
          rw [List.map_nil, argShape_last (by decide)]
          exact hcmd
        | cons u us => simpa [argShape_operator] using hcmd

theorem line_decides (list : TokenList) :
    Decides (line (start list)) (start list) (match list.map Token.type with
      | [] => true
      | u :: us => u == opWord && argShape us) := by
  have hrest : (start list).rest = list := by simp [start,Parser.rest]
  unfold line
  cases list with
  | nil =>
    simp only [atEnd_of_rest_nil hrest, ↓reduceIte, List.map_nil]
    exact decides_end hrest (le_refl 0)
  | cons t ts =>
    have hnext : (start (t :: ts)).next.rest = ts := by simp [Parser.next_rest,hrest]
    simp only [atEnd_of_rest_cons hrest, tokenTypeParser_of_rest_cons hrest, List.map_cons]
    by_cases ht : t.type = opWord
    · have hd := (arg_decides _ (Parser.next_pos_le hrest)).of_next
      rw [hnext] at hd
      simpa [ht] using hd
    · simp [ht,Decides]

end CShellXv6.Recognizer
