import CShellXv6.Shell.Limits

/-! # Words and operators on an accepted line

Most readers of tokens look at the token type or at the text pointer first.
`snoop_cmd`, `ping_cmd` and `resume_cmd` each have one read that relies on the
position alone, and a redirection in that position is read through NULL.
-/
namespace CShellXv6.Executor
open Lexer TokenCategory Recognizer

theorem Simple.deref_cases {s : TokenList} (h : Simple s) (htag : ∀ t ∈ s, t.Tagged) {o : Outcome}
    {t : Token} (ht : .deref t ∈ executeStageChild o s) :
    t.IsWord ∨ ∃ b, commandBuiltin s = some b ∧ Misreads b s := by
  obtain ⟨u,hu,heq⟩ := h.executeStageChild_eq htag o
  rw [heq] at ht
  rcases List.mem_cons.mp ht with heq | ht
  · cases heq
    exact Or.inl hu
  cases hb : commandBuiltin s with
  | some b =>
    rw [hb] at ht
    rcases runBuiltin_cases htag ht with ⟨v,hv,heq⟩ | ⟨_,hmis⟩
    · cases heq
      rw [mem_wordsOf] at hv
      exact Or.inl ((htag t hv.1).isWord hv.2)
    · exact Or.inr ⟨b,rfl,hmis⟩
  | none =>
    rw [hb] at ht
    rcases splitAndLaunch_cases h.followed htag o ht with hh | ⟨_,_,heq⟩ | ⟨_,_,_,heq⟩
    · exact Or.inl hh
    · cases heq
    · cases heq

theorem Simple.deref_misread {s : TokenList} (h : Simple s) (htag : ∀ t ∈ s, t.Tagged) (o : Outcome)
    {b : Builtin} (hb : commandBuiltin s = some b) (hmis : Misreads b s) :
    ∃ t, t.type ≠ opWord ∧ .deref t ∈ executeStageChild o s := by
  obtain ⟨u,_,heq⟩ := h.executeStageChild_eq htag o
  obtain ⟨t,hop,ht⟩ := hmis.deref o.found
  rw [heq, hb]
  exact ⟨t,hop,List.mem_cons_of_mem _ ht⟩

/-- Operators carry NULL, and every text that is read on any path belongs to a
word, exactly when no command of the line is a built-in on arguments that it
misreads. -/
theorem AcceptedLine.reads_words_iff (l : AcceptedLine) :
    ((∀ t ∈ l.tokens, t.type ≠ opWord → t.text = none) ∧
      ∀ g ∈ groups l.tokens, ∀ o t, .deref t ∈ executeGroup o g →
        t.type = opWord ∧ t.text.isSome) ↔
      ∀ g ∈ groups l.tokens, ∀ s ∈ units g.1, ∀ b, commandBuiltin s = some b → ¬Misreads b s := by
  constructor
  · rintro ⟨_,hall⟩ g hg s hs b hb hmis
    obtain ⟨hsimple,htag⟩ := l.unit hg hs
    obtain ⟨t,hop,ht⟩ := hsimple.deref_misread htag default hb hmis
    exact hop (hall g hg _ t ((l.command hg).executeGroup_unit (l.tagged hg) hs ht)).1
  · intro hok
    constructor
    · intro t ht hop
      have htag := lexLine_tagged l.lexed t ht
      simpa [Token.Tagged,hop] using htag
    · intro g hg o t ht
      rcases (l.command hg).executeGroup_cases (l.tagged hg) ht with hh | ⟨heq,_⟩ | ⟨s,hs,ht⟩
      · exact hh
      · cases heq
      · obtain ⟨hsimple,htag⟩ := l.unit hg hs
        rcases hsimple.deref_cases htag ht with hw | ⟨b,hb,hmis⟩
        · exact hw
        · exact absurd hmis (hok g hg s hs b hb)

def snoopRedirection : AcceptedLine where
  line := "snoop < f".toList
  tokens := [Token.word "snoop".toList,Token.operator opLt,Token.word "f".toList]
  lexed := by decide +kernel
  parsed := by decide +kernel

/-- `snoop < f` compares the text of `<` with `-p`. -/
theorem snoopRedirection_reads_operator :
    ∃ g ∈ groups snoopRedirection.tokens, ∃ o, .deref (Token.operator opLt) ∈ executeGroup o g ∧
      (Token.operator opLt).type ≠ opWord ∧ (Token.operator opLt).text = none := by
  refine ⟨(snoopRedirection.tokens,false),?_,default,?_,?_,rfl⟩ <;> decide +kernel

end CShellXv6.Executor
