import CShellXv6.Shell.Parser
import CShellXv6.Library.RightLinear

/-! # The documented grammar

An accepted token sequence is described by the procedures of the recognizer, by
the grammar in the comment above them, and by which tokens may stand next to
each other. The three descriptions are the same.
-/
namespace CShellXv6.Recognizer
open Lexer TokenCategory RightLinear

inductive Nonterminal
  | LINE
  | ARG
  | CMD
  | TGT
  | BG
  deriving DecidableEq

def empty (A : Nonterminal) : ContextFreeRule TokenCategory Nonterminal := ⟨A,[]⟩

def production (A : Nonterminal) (a : TokenCategory) (B : Nonterminal) :
    ContextFreeRule TokenCategory Nonterminal := ⟨A,[.terminal a,.nonterminal B]⟩

open Nonterminal in
/-- The rules written in the comment of `parser.c`. -/
def documentedRules : Finset (ContextFreeRule TokenCategory Nonterminal) :=
  {empty LINE,production LINE opWord ARG,
    empty ARG,production ARG opWord ARG,production ARG opLt TGT,production ARG opGt TGT,
    production ARG opGtgt TGT,production ARG opPipe CMD,production ARG opSemi CMD,
    production ARG opAmp BG,
    production CMD opWord ARG,
    production TGT opWord ARG,
    empty BG,production BG opWord ARG}

def documentedGrammar : ContextFreeGrammar TokenCategory := ⟨Nonterminal,.LINE,documentedRules⟩

/-- The nonterminal that each documented rule continues with. -/
inductive Continues : Nonterminal → TokenCategory → Nonterminal → Prop
  | word (A : Nonterminal) : Continues A opWord .ARG
  | target {a : TokenCategory} : a = opLt ∨ a = opGt ∨ a = opGtgt → Continues .ARG a .TGT
  | command {a : TokenCategory} : a = opPipe ∨ a = opSemi → Continues .ARG a .CMD
  | background : Continues .ARG opAmp .BG

theorem rule_cases {r : ContextFreeRule TokenCategory Nonterminal}
    (h : r ∈ documentedRules) :
    (r.output = [] ∧ (r.input = .LINE ∨ r.input = .ARG ∨ r.input = .BG)) ∨
      ∃ a B, Continues r.input a B ∧ r.output = [.terminal a,.nonterminal B] := by
  simp only [documentedRules, Finset.mem_insert, Finset.mem_singleton] at h
  rcases h with rfl | rfl | rfl | rfl | rfl | rfl | rfl | rfl | rfl | rfl | rfl | rfl | rfl | rfl
  · exact Or.inl ⟨rfl,by simp [empty]⟩
  · exact Or.inr ⟨_,_,.word _,rfl⟩
  · exact Or.inl ⟨rfl,by simp [empty]⟩
  · exact Or.inr ⟨_,_,.word _,rfl⟩
  · exact Or.inr ⟨_,_,.target (by simp),rfl⟩
  · exact Or.inr ⟨_,_,.target (by simp),rfl⟩
  · exact Or.inr ⟨_,_,.target (by simp),rfl⟩
  · exact Or.inr ⟨_,_,.command (by simp),rfl⟩
  · exact Or.inr ⟨_,_,.command (by simp),rfl⟩
  · exact Or.inr ⟨_,_,.background,rfl⟩
  · exact Or.inr ⟨_,_,.word _,rfl⟩
  · exact Or.inr ⟨_,_,.word _,rfl⟩
  · exact Or.inl ⟨rfl,by simp [empty]⟩
  · exact Or.inr ⟨_,_,.word _,rfl⟩

theorem rule_mem {A B : Nonterminal} {a : TokenCategory} (h : Continues A a B) :
    production A a B ∈ documentedRules := by
  cases h with
  | word => cases A <;> decide
  | target ha => rcases ha with rfl | rfl | rfl <;> decide
  | command ha => rcases ha with rfl | rfl <;> decide
  | background => decide

theorem documentedGrammar_rightLinear : IsRightLinear documentedGrammar := by
  intro r hr
  rcases rule_cases hr with ⟨ho,_⟩ | ⟨a,B,_,ho⟩
  · exact Or.inl ⟨[],ho⟩
  · exact Or.inr ⟨[a],B,ho⟩

/-- Which token sequences each nonterminal writes, in terms of `argShape`. -/
def shape : Nonterminal → List TokenCategory → Bool
  | .LINE, [] => true
  | .BG, [] => true
  | .ARG, ts => argShape ts
  | _, [] => false
  | _, u :: us => u == opWord && argShape us

theorem shape_word (A : Nonterminal) (ts : List TokenCategory) :
    shape A (opWord :: ts) = argShape ts := by
  cases A <;> simp [shape,argShape_word]

theorem shape_continues {A B : Nonterminal} {a : TokenCategory} {ts : List TokenCategory}
    (hc : Continues A a B) (h : shape B ts = true) : shape A (a :: ts) = true := by
  cases hc with
  | word => rw [shape_word]; exact h
  | target ha | command ha =>
    have hne : a ≠ opWord := by rintro rfl; simp at ha
    cases ts with
    | nil => cases h
    | cons u us => exact (argShape_operator hne u us).trans h
  | background =>
    cases ts with
    | nil => decide
    | cons u us => exact (argShape_operator (by decide) u us).trans h

theorem continues_of_operator {t : TokenCategory} (ht : t ≠ opWord) :
    ∃ B, Continues .ARG t B ∧ (B = .CMD ∨ B = .TGT ∨ B = .BG) := by
  cases t with
  | opWord => exact absurd rfl ht
  | opPipe | opSemi => exact ⟨.CMD,.command (by simp),Or.inl rfl⟩
  | opLt | opGt | opGtgt => exact ⟨.TGT,.target (by simp),Or.inr (Or.inl rfl)⟩
  | opAmp => exact ⟨.BG,.background,Or.inr (Or.inr rfl)⟩

theorem rule_stop {A : Nonterminal} {w : List TokenCategory}
    (hr : ⟨A,w.map Symbol.terminal⟩ ∈ documentedRules) :
    w = [] ∧ (A = .LINE ∨ A = .ARG ∨ A = .BG) := by
  rcases rule_cases hr with ⟨ho,hA⟩ | ⟨a,B,_,ho⟩
  · exact ⟨List.map_eq_nil_iff.mp ho,hA⟩
  · have hm : Symbol.nonterminal B ∈ w.map (Symbol.terminal : _ → Symbol _ Nonterminal) := by
      dsimp only at ho
      rw [ho]
      simp
    simp at hm

theorem rule_step {A B : Nonterminal} {w : List TokenCategory}
    (hr : ⟨A,w.map Symbol.terminal ++ [Symbol.nonterminal B]⟩ ∈ documentedRules) :
    ∃ a, w = [a] ∧ Continues A a B := by
  rcases rule_cases hr with ⟨ho,_⟩ | ⟨a,C,hc,ho⟩
  · simp at ho
  · rcases w with _ | ⟨x,_ | ⟨y,w⟩⟩
    · simp at ho
    · simp only [List.map_cons, List.map_nil, List.cons_append, List.nil_append, List.cons.injEq,
        Symbol.terminal.injEq, Symbol.nonterminal.injEq, and_true] at ho
      obtain ⟨rfl,rfl⟩ := ho
      exact ⟨x,rfl,hc⟩
    · simp at ho

theorem walk_shape {A : documentedGrammar.NT} {ts : List TokenCategory}
    (h : Walk documentedGrammar A ts) : shape A ts = true := by
  induction h with
  | @stop A w hr =>
    obtain ⟨rfl,hA⟩ := rule_stop (A := A) hr
    rcases hA with rfl | rfl | rfl
    · rfl
    · exact argShape_nil
    · rfl
  | @step A B w v hr _ ih =>
    obtain ⟨a,rfl,hc⟩ := rule_step (A := A) (B := B) hr
    exact shape_continues hc ih

theorem walk_of_continues {A B : Nonterminal} {a : TokenCategory} {ts : List TokenCategory}
    (hc : Continues A a B) (h : Walk documentedGrammar B ts) :
    Walk documentedGrammar A (a :: ts) :=
  Walk.step (g := documentedGrammar) (A := A) (B := B) (w := [a]) (rule_mem hc) h

theorem walk_empty {A : Nonterminal} (h : A = .LINE ∨ A = .ARG ∨ A = .BG) :
    Walk documentedGrammar A [] := by
  have hr : empty A ∈ documentedRules := by rcases h with rfl | rfl | rfl <;> decide
  exact Walk.stop (g := documentedGrammar) (A := A) (w := []) hr

/-- `argShape` follows the rules of `ARG`, two tokens at a time after an operator. -/
theorem walk_arg {ts : List TokenCategory} (h : argShape ts = true) :
    Walk documentedGrammar Nonterminal.ARG ts := by
  fun_induction argShape ts with
  | case1 => exact walk_empty (by simp)
  | case2 ts ih => exact walk_of_continues (.word _) (ih h)
  | case3 t ht =>
    obtain rfl : t = opAmp := by simpa using h
    exact walk_of_continues .background (walk_empty (by simp))
  | case4 t ht u us ih =>
    simp only [Bool.and_eq_true, beq_iff_eq] at h
    obtain ⟨rfl,hus⟩ := h
    obtain ⟨B,hB,_⟩ := continues_of_operator ht
    exact walk_of_continues hB (walk_of_continues (.word B) (ih hus))

theorem walk_line_iff (ts : List TokenCategory) :
    Walk documentedGrammar Nonterminal.LINE ts ↔ shape .LINE ts = true := by
  refine ⟨walk_shape,fun h => ?_⟩
  cases ts with
  | nil => exact walk_empty (by simp)
  | cons u us =>
    simp only [shape, Bool.and_eq_true, beq_iff_eq] at h
    obtain ⟨rfl,hus⟩ := h
    exact walk_of_continues (.word _) (walk_arg hus)

theorem mem_documentedGrammar_iff (ts : List TokenCategory) :
    ts ∈ documentedGrammar.language ↔ shape .LINE ts = true := by
  rw [mem_language_iff_walk documentedGrammar_rightLinear]
  exact walk_line_iff ts

theorem parseTokens_eq_shape (list : TokenList) :
    parseTokens list = shape .LINE (list.map Token.type) := by
  have h := (line_decides list).1
  unfold parseTokens
  cases list with
  | nil => exact h
  | cons t ts => exact h

/-- An operator is followed by a word. -/
def Allowed (a b : TokenCategory) : Prop := a ≠ opWord → b = opWord

theorem argShape_iff_chain (ts : List TokenCategory) :
    argShape ts = true ↔ (opWord :: ts).IsChain Allowed ∧
      ((opWord :: ts).getLast? = some opWord ∨ (opWord :: ts).getLast? = some opAmp) := by
  fun_induction argShape ts with
  | case1 => simp
  | case2 ts ih =>
    rw [ih, List.isChain_cons_cons (l := ts)]
    simp [Allowed]
  | case3 t ht => simp [Allowed,ht]
  | case4 t ht u us ih =>
    rw [Bool.and_eq_true, beq_iff_eq, ih]
    simp only [List.isChain_cons_cons (a := opWord), List.isChain_cons_cons (a := t)]
    by_cases hu : u = opWord
    · subst hu
      simp [Allowed]
    · simp [Allowed,ht,hu]

/-- The neighbour condition on an accepted sequence of token types. -/
def Neighbourly (ts : List TokenCategory) : Prop :=
  ts = [] ∨ (ts.head? = some opWord ∧
    (ts.getLast? = some opWord ∨ ts.getLast? = some opAmp) ∧
    ∀ i t, ts[i]? = some t → t ≠ opWord → ¬ (t = opAmp ∧ i + 1 = ts.length) →
      ts[i+1]? = some opWord)

theorem neighbourly_word_cons_iff (ts : List TokenCategory) :
    Neighbourly (opWord :: ts) ↔ (opWord :: ts).IsChain Allowed ∧
      ((opWord :: ts).getLast? = some opWord ∨ (opWord :: ts).getLast? = some opAmp) := by
  rw [List.isChain_iff_getElem]
  constructor
  · rintro (hnil | ⟨_,hlast,hnext⟩)
    · cases hnil
    · refine ⟨fun i hi ha => ?_,hlast⟩
      have hget := hnext i _ (List.getElem?_eq_getElem (by omega)) ha (fun hend => by omega)
      rw [List.getElem?_eq_getElem hi] at hget
      exact Option.some.inj hget
  · rintro ⟨hchain,hlast⟩
    refine Or.inr ⟨rfl,hlast,fun i t hi ht hend => ?_⟩
    obtain ⟨hlt,rfl⟩ := List.getElem?_eq_some_iff.mp hi
    by_cases hsucc : i + 1 < (opWord :: ts).length
    · rw [List.getElem?_eq_getElem hsucc]
      exact congrArg some (hchain i hsucc ht)
    · have hlen : i + 1 = (opWord :: ts).length := by omega
      have hi' : (opWord :: ts).length - 1 = i := by omega
      rw [List.getLast?_eq_getElem?, hi', hi] at hlast
      rcases hlast with hw | ha
      · exact absurd (Option.some.inj hw) ht
      · exact absurd ⟨Option.some.inj ha,hlen⟩ hend

theorem shape_line_iff_neighbourly (ts : List TokenCategory) :
    shape .LINE ts = true ↔ Neighbourly ts := by
  cases ts with
  | nil => simp [shape,Neighbourly]
  | cons t ts =>
    by_cases ht : t = opWord
    · subst ht
      rw [shape_word, argShape_iff_chain, neighbourly_word_cons_iff]
    · simp [shape,Neighbourly,ht]

/-- `parse_tokens` accepts exactly the language of its documented grammar,
equivalently the neighbourly sequences, and leaves no token unread. -/
theorem parseTokens_iff_documentedGrammar (list : TokenList) :
    (parseTokens list = true ↔ list.map Token.type ∈ documentedGrammar.language) ∧
    (parseTokens list = true ↔ Neighbourly (list.map Token.type)) ∧
    (parseTokens list = true → (line (start list)).2.pos = list.length) := by
  refine ⟨?_,?_,fun h => ?_⟩
  · rw [parseTokens_eq_shape, mem_documentedGrammar_iff]
  · rw [parseTokens_eq_shape, shape_line_iff_neighbourly]
  · have hd := line_decides list
    have hfin := hd.2 (hd.1 ▸ h)
    rw [hfin]
    rfl

end CShellXv6.Recognizer
