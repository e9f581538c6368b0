import CShellXv6.Shell.Token

/-! # The lexer

`lex_line` and `lex_word` scan a line with a position. Here the position is the
suffix of the line still to be read, and `none` is the return with `*error` set.
-/
namespace CShellXv6.Lexer

def isSpecial (c : Char) : Bool := c == '<' || c == '>' || c == ';' || c == '|' || c == '&'

def isSpaceChar (c : Char) : Bool := c == ' ' || c == '\t' || c == '\n'

/-- The loop of `lex_word` inside double quotes, entered after the opening one. -/
def lexDouble : List Char → CString → Option (CString × List Char)
  | [], _ => none
  | dc :: rest, word =>
    if dc = '"' then some (word,rest)
    else if dc = '\\' then
      match rest with
      | [] => none
      | nc :: rest' =>
        if nc = '"' ∨ nc = '\\' then lexDouble rest' (word ++ [nc])
        else lexDouble rest' (word ++ ['\\'] ++ [nc])
    else lexDouble rest (word ++ [dc])

/-- The loop of `lex_word` inside single quotes, entered after the opening one. -/
def lexSingle : List Char → CString → Option (CString × List Char)
  | [], _ => none
  | sc :: rest, word =>
    if sc = '\'' then some (word,rest) else lexSingle rest (word ++ [sc])

theorem lexDouble_length {cs : List Char} {word word' : CString} {rest : List Char}
    (h : lexDouble cs word = some (word',rest)) : rest.length < cs.length := by
  fun_induction lexDouble cs word with
  | case1 => cases h
  | case2 =>
    cases h
    simp
  | case3 => cases h
  | case4 _ _ _ _ _ ih | case5 _ _ _ _ _ ih | case6 _ _ _ _ _ ih =>
    have hlt := ih h
    simp only [List.length_cons]
    omega

theorem lexSingle_length {cs : List Char} {word word' : CString} {rest : List Char}
    (h : lexSingle cs word = some (word',rest)) : rest.length < cs.length := by
  fun_induction lexSingle cs word with
  | case1 => cases h
  | case2 =>
    cases h
    simp
  | case3 _ _ _ _ ih =>
    have hlt := ih h
    simp only [List.length_cons]
    omega

/-- The main loop of `lex_word`, with the word built so far. -/
def lexWordLoop (cs : List Char) (word : CString) : Option (CString × List Char) :=
  match cs with
  | [] => some (word,[])
  | c :: rest =>
    if isSpaceChar c || isSpecial c then some (word,c :: rest)
    else if c = '\\' then
      match rest with
      | [] => none
      | nc :: rest' => lexWordLoop rest' (word ++ [nc])
    else if c = '"' then
      match _h : lexDouble rest word with
      | none => none
      | some (word',rest') => lexWordLoop rest' word'
    else if c = '\'' then
      match _h : lexSingle rest word with
      | none => none
      | some (word',rest') => lexWordLoop rest' word'
    else lexWordLoop rest (word ++ [c])
termination_by cs.length
decreasing_by
  · simp only [List.length_cons]
    omega
  · have hlt := lexDouble_length _h
    simp only [List.length_cons]
    omega
  · have hlt := lexSingle_length _h
    simp only [List.length_cons]
    omega
  · simp

def lexWord (cs : List Char) : Option (CString × List Char) := lexWordLoop cs []

theorem lexWordLoop_nil (word : CString) : lexWordLoop [] word = some (word,[]) := by
  unfold lexWordLoop
  rfl

theorem lexWordLoop_stop {c : Char} (rest : List Char) (word : CString)
    (hc : (isSpaceChar c || isSpecial c) = true) :
    lexWordLoop (c :: rest) word = some (word,c :: rest) := by
  unfold lexWordLoop
  simp only [hc, ↓reduceIte]

theorem lexWordLoop_escape (c : Char) (rest : List Char) (word : CString) :
    lexWordLoop ('\\' :: c :: rest) word = lexWordLoop rest (word ++ [c]) := by
  rw [lexWordLoop.eq_def]
  simp [isSpaceChar,isSpecial]

theorem lexWordLoop_double (rest : List Char) (word : CString) :
    lexWordLoop ('"' :: rest) word =
      (lexDouble rest word).bind (fun p => lexWordLoop p.2 p.1) := by
  rw [lexWordLoop.eq_def]
  simp only [isSpaceChar,isSpecial]
  cases h : lexDouble rest word <;> simp

theorem lexWordLoop_single (rest : List Char) (word : CString) :
    lexWordLoop ('\'' :: rest) word =
      (lexSingle rest word).bind (fun p => lexWordLoop p.2 p.1) := by
  rw [lexWordLoop.eq_def]
  simp only [isSpaceChar,isSpecial]
  cases h : lexSingle rest word <;> simp

/-- The characters that `lex_word` copies as they stand outside quotes. -/
def isPlain (c : Char) : Bool :=
  !(isSpaceChar c || isSpecial c) && c != '\\' && c != '"' && c != '\''

theorem lexWordLoop_plain {c : Char} (rest : List Char) (word : CString) (hc : isPlain c = true) :
    lexWordLoop (c :: rest) word = lexWordLoop rest (word ++ [c]) := by
  simp only [isPlain, Bool.and_eq_true, Bool.not_eq_true', bne_iff_ne, ne_eq] at hc
  obtain ⟨⟨⟨hs,he⟩,hd⟩,hq⟩ := hc
  rw [lexWordLoop.eq_def]
  simp only [hs,he,hd,hq, Bool.false_eq_true, ↓reduceIte]

/-- The first character of a word is plain or opens one of the three quotings. -/
theorem word_start_cases {c : Char} (hc : (isSpaceChar c || isSpecial c) = false) :
    c = '\\' ∨ c = '"' ∨ c = '\'' ∨ isPlain c = true := by
  by_cases he : c = '\\'
  · exact Or.inl he
  · by_cases hd : c = '"'
    · exact Or.inr (Or.inl hd)
    · by_cases hq : c = '\''
      · exact Or.inr (Or.inr (Or.inl hq))
      · simp [isPlain,hc,he,hd,hq]

theorem lexWordLoop_length_le {cs : List Char} {word word' : CString} {rest : List Char}
    (h : lexWordLoop cs word = some (word',rest)) : rest.length ≤ cs.length := by
  fun_induction lexWordLoop cs word with
  | case1 | case2 =>
    cases h
    exact Nat.le_refl _
  | case3 | case5 | case7 => cases h
  | case4 _ _ _ _ ih | case9 _ _ _ _ _ _ _ ih =>
    have hle := ih h
    simp only [List.length_cons]
    omega
  | case6 _ _ _ _ hd _ _ ih =>
    have hlt := lexDouble_length hd
    have hle := ih h
    simp only [List.length_cons]
    omega
  | case8 _ _ _ _ hs _ _ _ ih =>
    have hlt := lexSingle_length hs
    have hle := ih h
    simp only [List.length_cons]
    omega

theorem lexWord_length_lt {c : Char} {cs : List Char} {text : CString} {rest : List Char}
    (hc : (isSpaceChar c || isSpecial c) = false) (h : lexWord (c :: cs) = some (text,rest)) :
    rest.length < (c :: cs).length := by
  unfold lexWord at h
  simp only [List.length_cons]
  rcases word_start_cases hc with rfl | rfl | rfl | hp
  · cases cs with
    | nil => simp [lexWordLoop,isSpaceChar,isSpecial] at h
    | cons nc cs =>
      rw [lexWordLoop_escape] at h
      have hle := lexWordLoop_length_le h
      simp only [List.length_cons]
      omega
  · rw [lexWordLoop_double] at h
    obtain ⟨⟨word,cs'⟩,hd,h⟩ := Option.bind_eq_some_iff.mp h
    have hlt := lexDouble_length hd
    have hle := lexWordLoop_length_le h
    dsimp only at hle
    omega
  · rw [lexWordLoop_single] at h
    obtain ⟨⟨word,cs'⟩,hs,h⟩ := Option.bind_eq_some_iff.mp h
    have hlt := lexSingle_length hs
    have hle := lexWordLoop_length_le h
    dsimp only at hle
    omega
  · rw [lexWordLoop_plain _ _ hp] at h
    have hle := lexWordLoop_length_le h
    omega

/-- The loop of `lex_line`, with the tokens pushed so far. -/
def lexLineLoop (cs : List Char) (vec : TokenList) : Option TokenList :=
  match cs with
  | [] => some vec
  | c :: rest =>
    if isSpaceChar c then lexLineLoop rest vec
    else if c = '|' then lexLineLoop rest (vec ++ [Token.operator .opPipe])
    else if c = '&' then lexLineLoop rest (vec ++ [Token.operator .opAmp])
    else if c = ';' then lexLineLoop rest (vec ++ [Token.operator .opSemi])
    else if c = '<' then lexLineLoop rest (vec ++ [Token.operator .opLt])
    else if c = '>' then
      if rest.head? = some '>' then lexLineLoop rest.tail (vec ++ [Token.operator .opGtgt])
      else lexLineLoop rest (vec ++ [Token.operator .opGt])
    else
      match _h : lexWord (c :: rest) with
      | none => none
      | some (text,rest') => lexLineLoop rest' (vec ++ [Token.word text])
termination_by cs.length
decreasing_by
  any_goals
    simp only [List.length_cons, List.length_tail]
    omega
  exact lexWord_length_lt (by simp_all [isSpecial]) _h

def lexLine (line : CString) : Option TokenList := lexLineLoop line []

theorem lexLineLoop_nil (vec : TokenList) : lexLineLoop [] vec = some vec := by
  unfold lexLineLoop
  rfl

theorem lexLineLoop_space {c : Char} (rest : List Char) (vec : TokenList)
    (hc : isSpaceChar c = true) : lexLineLoop (c :: rest) vec = lexLineLoop rest vec := by
  rw [lexLineLoop.eq_def]
  simp only [hc, ↓reduceIte]

theorem lexLineLoop_word {c : Char} {rest rest' : List Char} {text : CString} (vec : TokenList)
    (hc : (isSpaceChar c || isSpecial c) = false) (h : lexWord (c :: rest) = some (text,rest')) :
    lexLineLoop (c :: rest) vec = lexLineLoop rest' (vec ++ [Token.word text]) := by
  rw [lexLineLoop.eq_def]
  simp only [isSpecial, Bool.or_eq_false_iff, beq_eq_false_iff_ne, ne_eq] at hc
  obtain ⟨hs,⟨⟨⟨hlt,hgt⟩,hsemi⟩,hpipe⟩,hamp⟩ := hc
  simp only [hs,hlt,hgt,hsemi,hpipe,hamp, Bool.false_eq_true, ↓reduceIte]
  split
  · next hn => rw [h] at hn; cases hn
  · next hs => rw [h] at hs; cases hs; rfl

/-- The symbol that an operator is written with. -/
def symbol : TokenCategory → CString
  | .opPipe => ['|']
  | .opAmp => ['&']
  | .opSemi => [';']
  | .opLt => ['<']
  | .opGt => ['>']
  | .opGtgt => ['>','>']
  | .opWord => []

/-- Every operator symbol is read back as its token when no `>` follows it. -/
theorem lexLineLoop_operator {op : TokenCategory} {rest : List Char} (vec : TokenList)
    (hop : op ≠ .opWord) (hrest : op = .opGt → rest.head? ≠ some '>') :
    lexLineLoop (symbol op ++ rest) vec = lexLineLoop rest (vec ++ [Token.operator op]) := by
  rw [lexLineLoop.eq_def]
  cases op with
  | opWord => exact absurd rfl hop
  | opGt => simp [symbol,isSpaceChar,hrest rfl]
  | opPipe | opAmp | opSemi | opLt | opGtgt => simp [symbol,isSpaceChar]

/-- Every token that `lex_line` returns has a text exactly when it is a word. -/
theorem lexLineLoop_tagged {cs : List Char} {vec ts : TokenList}
    (hvec : ∀ t ∈ vec, t.Tagged) (h : lexLineLoop cs vec = some ts) : ∀ t ∈ ts, t.Tagged := by
  have hpush : ∀ {vec : TokenList} {t : Token}, (∀ t ∈ vec, t.Tagged) → t.Tagged →
      ∀ u ∈ vec ++ [t], u.Tagged := by
    intro vec t hvec ht u hu
    rcases List.mem_append.mp hu with hu | hu
    · exact hvec u hu
    · exact (List.mem_singleton.mp hu) ▸ ht
  fun_induction lexLineLoop cs vec with
  | case1 =>
    cases h
    exact hvec
  | case2 _ _ _ _ ih => exact ih hvec h
  | case9 => cases h
  | case10 _ _ _ _ _ _ _ _ _ _ _ _ ih => exact ih (hpush hvec (Token.word_tagged _)) h
  | case3 _ _ _ ih | case4 _ _ _ _ ih | case5 _ _ _ _ _ ih | case6 _ _ _ _ _ _ ih
  | case7 _ _ _ _ _ _ _ _ ih | case8 _ _ _ _ _ _ _ _ ih =>
    exact ih (hpush hvec (Token.operator_tagged (by decide))) h

theorem lexLine_tagged {line : CString} {ts : TokenList} (h : lexLine line = some ts) :
    ∀ t ∈ ts, t.Tagged := lexLineLoop_tagged (by simp) h

end CShellXv6.Lexer
