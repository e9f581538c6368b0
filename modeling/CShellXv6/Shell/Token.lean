/-! # Tokens of the shell's command language

A C string is the list of its characters before the terminating NUL, and a
pointer to one is an option, `none` standing for NULL. The code compares
characters with ASCII constants only, so a byte is modelled by `Char`.
-/
namespace CShellXv6.Lexer

abbrev CString := List Char

inductive TokenCategory
  | opPipe
  | opAmp
  | opSemi
  | opLt
  | opGt
  | opGtgt
  | opWord
  deriving DecidableEq, Repr

structure Token where
  type : TokenCategory
  text : Option CString
  deriving DecidableEq, Repr

abbrev TokenList := List Token

/-- The token that `tv_push(&vec, OP_WORD, text)` stores. -/
def Token.word (text : CString) : Token := ⟨.opWord,some text⟩

/-- The token that `tv_push(&vec, op, NULL)` stores. -/
def Token.operator (op : TokenCategory) : Token := ⟨op,none⟩

@[simp] theorem Token.word_type (text : CString) : (Token.word text).type = .opWord := rfl
@[simp] theorem Token.word_text (text : CString) : (Token.word text).text = some text := rfl
@[simp] theorem Token.operator_type (op : TokenCategory) : (Token.operator op).type = op := rfl
@[simp] theorem Token.operator_text (op : TokenCategory) : (Token.operator op).text = none := rfl

/-- Words carry a text and operators carry NULL. -/
def Token.Tagged (t : Token) : Prop := t.type = .opWord ↔ t.text.isSome

theorem Token.word_tagged (text : CString) : (Token.word text).Tagged := by simp [Token.Tagged]

theorem Token.operator_tagged {op : TokenCategory} (h : op ≠ .opWord) :
    (Token.operator op).Tagged := by simp [Token.Tagged,h]

/-- A word whose text may be read. -/
def Token.IsWord (t : Token) : Prop := t.type = .opWord ∧ t.text.isSome

theorem Token.Tagged.isWord {t : Token} (h : t.Tagged) (ht : t.type = .opWord) : t.IsWord :=
  ⟨ht,h.mp ht⟩

end CShellXv6.Lexer
