import CShellXv6.Shell.Lexer

/-! # Quoted renderings of token lists

A word may be written with any mixture of the three quotings. The relation
`Renders` lists every such writing of a token list, and the lexer inverts it:
segments are undone inside one word, words and operators inside one line.
-/
namespace CShellXv6.Lexer

/-- One piece of a written word. A single-quoted run holds no quote and a plain
character needs no quoting. -/
inductive Segment
  | singleQuoted (run : CString) (h : '\'' ∉ run)
  | doubleQuoted (run : CString)
  | escaped (c : Char)
  | plain (c : Char) (h : isPlain c = true)

/-- A double-quoted run with every `"` and `\` preceded by `\`. -/
def escapeDouble (run : CString) : List Char :=
  run.flatMap (fun c => if c = '"' ∨ c = '\\' then ['\\',c] else [c])

def Segment.text : Segment → CString
  | singleQuoted run _ => run
  | doubleQuoted run => run
  | escaped c => [c]
  | plain c _ => [c]

def Segment.written : Segment → List Char
  | singleQuoted run _ => '\'' :: (run ++ ['\''])
  | doubleQuoted run => '"' :: (escapeDouble run ++ ['"'])
  | escaped c => ['\\',c]
  | plain c _ => [c]

/-- A token and one way to write it. -/
inductive RendersToken : Token → List Char → Prop
  | word (segments : List Segment) (h : segments ≠ []) :
      RendersToken (Token.word (segments.flatMap Segment.text)) (segments.flatMap Segment.written)
  | operator (op : TokenCategory) (h : op ≠ .opWord) :
      RendersToken (Token.operator op) (symbol op)

/-- Tokens written in order with one or more blanks between neighbours. -/
inductive Renders : TokenList → List Char → Prop
  | nil : Renders [] []
  | last {t : Token} {written : List Char} : RendersToken t written → Renders [t] written
  | cons {t u : Token} {ts : TokenList} {written blanks rest : List Char} :
      RendersToken t written → blanks ≠ [] → (∀ c ∈ blanks, isSpaceChar c = true) →
      Renders (u :: ts) rest → Renders (t :: u :: ts) (written ++ (blanks ++ rest))

/-- A word of plain characters may be written as it is. -/
theorem rendersToken_plain {text : CString} (hne : text ≠ []) (h : text.all isPlain = true) :
    RendersToken (Token.word text) text := by
  rw [List.all_eq_true] at h
  have hsegments : ∃ pieces : List Segment,
      pieces.flatMap Segment.text = text ∧ pieces.flatMap Segment.written = text := by
    clear hne
    induction text with
    | nil => exact ⟨[],rfl,rfl⟩
    | cons c text ih =>
      obtain ⟨pieces,htext,hwritten⟩ := ih (fun d hd => h d (List.mem_cons_of_mem _ hd))
      refine ⟨.plain c (h c List.mem_cons_self) :: pieces,?_,?_⟩
      · rw [List.flatMap_cons, htext]
        rfl
      · rw [List.flatMap_cons, hwritten]
        rfl
  obtain ⟨pieces,htext,hwritten⟩ := hsegments
  have hrenders := RendersToken.word pieces (by
    rintro rfl
    exact hne htext.symm)
  rwa [htext, hwritten] at hrenders

theorem lexSingle_run {run : CString} (h : '\'' ∉ run) (rest : List Char) (word : CString) :
    lexSingle (run ++ '\'' :: rest) word = some (word ++ run,rest) := by
  induction run generalizing word with
  | nil => simp [lexSingle]
  | cons c run ih =>
    have hc : c ≠ '\'' := fun he => h (by simp [he])
    have hrun : '\'' ∉ run := fun hm => h (List.mem_cons_of_mem _ hm)
    simp only [List.cons_append, lexSingle, hc, ↓reduceIte]
    rw [ih hrun, List.append_assoc, List.singleton_append]

theorem lexDouble_run (run : CString) (rest : List Char) (word : CString) :
    lexDouble (escapeDouble run ++ '"' :: rest) word = some (word ++ run,rest) := by
  induction run generalizing word with
  | nil => simp [escapeDouble,lexDouble.eq_def]
  | cons c run ih =>
    have ih' := ih (word ++ [c])
    rw [List.append_assoc, List.singleton_append] at ih'
    unfold escapeDouble at ih' ⊢
    rw [List.flatMap_cons, List.append_assoc]
    by_cases hc : c = '"' ∨ c = '\\'
    · simp only [hc, ↓reduceIte, List.cons_append, List.nil_append]
      rw [lexDouble.eq_def]
      simpa [hc] using ih'
    · obtain ⟨hq,he⟩ := not_or.mp hc
      simp only [hc, ↓reduceIte, List.cons_append, List.nil_append]
      rw [lexDouble.eq_def]
      simpa [hq,he] using ih'

theorem lexWordLoop_segment (segment : Segment) (rest : List Char) (word : CString) :
    lexWordLoop (segment.written ++ rest) word = lexWordLoop rest (word ++ segment.text) := by
  cases segment with
  | singleQuoted run h =>
    simp only [Segment.written, Segment.text, List.cons_append, List.append_assoc, List.nil_append]
    rw [lexWordLoop_single, lexSingle_run h]
    rfl
  | doubleQuoted run =>
    simp only [Segment.written, Segment.text, List.cons_append, List.append_assoc, List.nil_append]
    rw [lexWordLoop_double, lexDouble_run]
    rfl
  | escaped c => exact lexWordLoop_escape c rest word
  | plain c h => exact lexWordLoop_plain rest word h

theorem lexWordLoop_segments (segments : List Segment) (rest : List Char) (word : CString) :
    lexWordLoop (segments.flatMap Segment.written ++ rest) word =
      lexWordLoop rest (word ++ segments.flatMap Segment.text) := by
  induction segments generalizing word with
  | nil => simp
  | cons segment segments ih =>
    rw [List.flatMap_cons, List.append_assoc, lexWordLoop_segment, ih, List.flatMap_cons,
      List.append_assoc]

/-- Where a written token ends: at the end of the line or before a blank. -/
def Boundary (rest : List Char) : Prop := ∀ c ∈ rest.head?, isSpaceChar c = true

theorem lexWordLoop_boundary {rest : List Char} (h : Boundary rest) (word : CString) :
    lexWordLoop rest word = some (word,rest) := by
  cases rest with
  | nil => exact lexWordLoop_nil word
  | cons c rest =>
    have hc : isSpaceChar c = true := h c rfl
    exact lexWordLoop_stop rest word (by simp [hc])

theorem Segment.written_head (segment : Segment) :
    ∃ c cs, segment.written = c :: cs ∧ (isSpaceChar c || isSpecial c) = false := by
  cases segment with
  | singleQuoted run h => exact ⟨_,_,rfl,by decide⟩
  | doubleQuoted run => exact ⟨_,_,rfl,by decide⟩
  | escaped c => exact ⟨_,_,rfl,by decide⟩
  | plain c h =>
    refine ⟨c,[],rfl,?_⟩
    simp only [isPlain, Bool.and_eq_true, Bool.not_eq_true'] at h
    exact h.1.1.1

/-- One written token is read as that token, up to the blank that ends it. -/
theorem lexLineLoop_token {t : Token} {written rest : List Char} (ht : RendersToken t written)
    (hrest : Boundary rest) (vec : TokenList) :
    lexLineLoop (written ++ rest) vec = lexLineLoop rest (vec ++ [t]) := by
  cases ht with
  | operator op hop =>
    apply lexLineLoop_operator vec hop
    intro _ hgt
    have hspace := hrest '>' hgt
    simp [isSpaceChar] at hspace
  | word segments hne =>
    have hlex : lexWord (segments.flatMap Segment.written ++ rest) =
        some (segments.flatMap Segment.text,rest) := by
      unfold lexWord
      rw [lexWordLoop_segments, List.nil_append, lexWordLoop_boundary hrest]
    cases segments with
    | nil => exact absurd rfl hne
    | cons segment segments =>
      obtain ⟨c,cs,hw,hc⟩ := segment.written_head
      rw [List.flatMap_cons, hw, List.cons_append, List.cons_append] at hlex ⊢
      exact lexLineLoop_word vec hc hlex

theorem lexLineLoop_blanks {blanks : List Char} (h : ∀ c ∈ blanks, isSpaceChar c = true)
    (rest : List Char) (vec : TokenList) :
    lexLineLoop (blanks ++ rest) vec = lexLineLoop rest vec := by
  induction blanks with
  | nil => rfl
  | cons c blanks ih =>
    rw [List.cons_append, lexLineLoop_space _ _ (h c List.mem_cons_self)]
    exact ih (fun d hd => h d (List.mem_cons_of_mem _ hd))

theorem boundary_blanks {blanks : List Char} (hne : blanks ≠ [])
    (h : ∀ c ∈ blanks, isSpaceChar c = true) (rest : List Char) : Boundary (blanks ++ rest) := by
  cases blanks with
  | nil => exact absurd rfl hne
  | cons c blanks =>
    intro d hd
    cases hd
    exact h c List.mem_cons_self

theorem lexLineLoop_renders {ts : TokenList} {line : List Char} (h : Renders ts line)
    (vec : TokenList) : lexLineLoop line vec = some (vec ++ ts) := by
  induction h generalizing vec with
  | nil => simp [lexLineLoop_nil]
  | last ht =>
    have hnil : Boundary [] := by simp [Boundary]
    have hend := lexLineLoop_token ht hnil vec
    rw [List.append_nil] at hend
    rw [hend, lexLineLoop_nil]
  | cons ht hne hblank _ ih =>
    rw [lexLineLoop_token ht (boundary_blanks hne hblank _), lexLineLoop_blanks hblank, ih,
      List.append_assoc, List.singleton_append]

/-- Lexing undoes quoting on every written token list. -/
theorem lexLine_undoes_quoting {ts : TokenList} {line : CString} (h : Renders ts line) :
    lexLine line = some ts := lexLineLoop_renders h []

/-- The line `echo a' '"\\"\| >> ''`. -/
theorem lexLine_undoes_quoting_mixed :
    lexLine (['e','c','h','o'] ++ ([' '] ++ ((['a'] ++ ['\'',' ','\''] ++ ['"','\\','\\','"'] ++
      ['\\','|']) ++ ([' '] ++ (['>','>'] ++ (['\t',' '] ++ ['\'','\''])))))) =
      some [Token.word ['e','c','h','o'],Token.word ['a',' ','\\','|'],Token.operator .opGtgt,
        Token.word []] := by
  refine lexLine_undoes_quoting (.cons (.word [.plain 'e' (by decide),.plain 'c' (by decide),
      .plain 'h' (by decide),.plain 'o' (by decide)] (by simp)) (by simp) (by simp [isSpaceChar]) ?_)
  refine .cons (.word [.plain 'a' (by decide),.singleQuoted [' '] (by decide),
      .doubleQuoted ['\\'],.escaped '|'] (by simp)) (by simp) (by simp [isSpaceChar]) ?_
  refine .cons (.operator .opGtgt (by decide)) (by simp) (by simp [isSpaceChar]) ?_
  exact .last (.word [.singleQuoted [] (by simp)] (by simp))

end CShellXv6.Lexer
