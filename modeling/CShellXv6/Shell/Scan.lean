import CShellXv6.Shell.Quoting
import Mathlib.Data.Nat.Notation

/-! # The scan of a line

The loops of the lexer share one position. Here they are written with that
position and with reads that can miss the line, and shown to be the lexer on
suffixes. An automaton of five states tells which lines are rejected, and an
accepted line is tiled by blanks, operators and words. A blank outside quotes
finds the automaton in its first state again, so lexing can be cut there.
-/
namespace CShellXv6.Lexer

/-! ## Positions -/

/-- A read past the length of the line, or a return with `*error` set. -/
inductive Fault
  | outOfRange
  | unfinished
  deriving DecidableEq, Repr

def charAt (line : CString) (pos : ℕ) : Except Fault Char :=
  match (line)[pos]? with
  | some c => .ok c
  | none => .error .outOfRange

def scanDouble (line : CString) (pos : ℕ) (word : CString) : Except Fault (CString × ℕ) :=
  if pos < line.length then do
    let dc ← charAt line pos
    if dc = '"' then .ok (word,pos + 1)
    else if dc = '\\' then
      if line.length ≤ pos + 1 then .error .unfinished
      else do
        let nc ← charAt line (pos + 1)
        if nc = '"' ∨ nc = '\\' then scanDouble line (pos + 2) (word ++ [nc])
        else scanDouble line (pos + 2) (word ++ ['\\'] ++ [nc])
    else scanDouble line (pos + 1) (word ++ [dc])
  else .error .unfinished
termination_by line.length - pos

def scanSingle (line : CString) (pos : ℕ) (word : CString) : Except Fault (CString × ℕ) :=
  if pos < line.length then do
    let sc ← charAt line pos
    if sc = '\'' then .ok (word,pos + 1) else scanSingle line (pos + 1) (word ++ [sc])
  else .error .unfinished
termination_by line.length - pos

/-- A scan by positions gives what the lexer gives on the suffixes of the line. -/
inductive Follows {β : Type} (line : CString) :
    Except Fault (β × ℕ) → Option (β × List Char) → Prop
  | failed : Follows line (.error .unfinished) none
  | stands {b : β} {pos : ℕ} : pos ≤ line.length →
      Follows line (.ok (b,pos)) (some (b,line.drop pos))

section Positions
variable {line cs : CString} {pos : ℕ}

theorem charAt_eq {c : Char} (h : line.drop pos = c :: cs) : charAt line pos = .ok c := by
  have hget : (line)[pos]? = some c := by rw [← List.head?_drop, h, List.head?_cons]
  rw [charAt, hget]

theorem pos_lt {c : Char} (h : line.drop pos = c :: cs) : pos < line.length := by
  refine Nat.lt_of_not_le (fun hge => ?_)
  rw [List.drop_eq_nil_of_le hge] at h
  cases h

theorem drop_next {c : Char} (h : line.drop pos = c :: cs) : line.drop (pos + 1) = cs := by
  rw [← List.tail_drop, h, List.tail_cons]

theorem not_pos_lt (h : line.drop pos = []) : ¬pos < line.length :=
  Nat.not_lt_of_le (List.drop_eq_nil_iff.mp h)

theorem scanDouble_follows (word : CString) (h : line.drop pos = cs) :
    Follows line (scanDouble line pos word) (lexDouble cs word) := by
  fun_induction lexDouble cs word generalizing pos with
  | case1 word =>
    rw [scanDouble, if_neg (not_pos_lt h)]
    exact .failed
  | case2 rest word =>
    rw [scanDouble, if_pos (pos_lt h), charAt_eq h, ← drop_next h]
    exact .stands (pos_lt h)
  | case3 word hquote =>
    have hend : line.length ≤ pos + 1 := Nat.le_of_not_lt (not_pos_lt (drop_next h))
    rw [scanDouble, if_pos (pos_lt h), charAt_eq h]
    simp only [bind, Except.bind, hquote, hend, ↓reduceIte]
    exact .failed
  | case4 word nc rest hnc hquote ih =>
    have hmore := pos_lt (drop_next h)
    rw [scanDouble, if_pos (pos_lt h), charAt_eq h]
    simp only [bind, Except.bind, hquote, Nat.not_le_of_lt hmore, ↓reduceIte,
      charAt_eq (drop_next h), hnc]
    exact ih (drop_next (drop_next h))
  | case5 word nc rest hnc hquote ih =>
    have hmore := pos_lt (drop_next h)
    rw [scanDouble, if_pos (pos_lt h), charAt_eq h]
    simp only [bind, Except.bind, hquote, Nat.not_le_of_lt hmore, ↓reduceIte,
      charAt_eq (drop_next h), hnc]
    exact ih (drop_next (drop_next h))
  | case6 dc rest word hquote hescape ih =>
    rw [scanDouble, if_pos (pos_lt h), charAt_eq h]
    simp only [bind, Except.bind, hquote, hescape, ↓reduceIte]
    exact ih (drop_next h)

theorem scanSingle_follows (word : CString) (h : line.drop pos = cs) :
    Follows line (scanSingle line pos word) (lexSingle cs word) := by
  fun_induction lexSingle cs word generalizing pos with
  | case1 word =>
    rw [scanSingle, if_neg (not_pos_lt h)]
    exact .failed
  | case2 rest word =>
    rw [scanSingle, if_pos (pos_lt h), charAt_eq h, ← drop_next h]
    exact .stands (pos_lt h)
  | case3 sc rest word hquote ih =>
    rw [scanSingle, if_pos (pos_lt h), charAt_eq h]
    simp only [bind, Except.bind, hquote, ↓reduceIte]
    exact ih (drop_next h)

theorem Follows.ok {β : Type} {b : β} {q : Option (β × List Char)}
    (h : Follows line (.ok (b,pos)) q) : q = some (b,line.drop pos) ∧ pos ≤ line.length := by
  cases h with
  | stands hle => exact ⟨rfl,hle⟩

theorem Follows.of_none {β : Type} {r : Except Fault (β × ℕ)} (h : Follows line r none) :
    r = .error .unfinished := by
  cases h with
  | failed => rfl

theorem Follows.of_some {β : Type} {r : Except Fault (β × ℕ)} {b : β} {rest : List Char}
    (h : Follows line r (some (b,rest))) :
    ∃ pos, r = .ok (b,pos) ∧ line.drop pos = rest ∧ pos ≤ line.length := by
  cases h with
  | stands hle => exact ⟨_,rfl,rfl,hle⟩

theorem pos_lt_of_length {pos' : ℕ} (h : (line.drop pos').length < (line.drop pos).length) :
    pos < pos' := by
  simp only [List.length_drop] at h
  omega

theorem scanDouble_lt {word word' : CString} {pos' : ℕ}
    (h : scanDouble line pos word = .ok (word',pos')) : pos < pos' := by
  have hfollows : Follows line (scanDouble line pos word) (lexDouble (line.drop pos) word) :=
    scanDouble_follows word rfl
  rw [h] at hfollows
  exact pos_lt_of_length (lexDouble_length hfollows.ok.1)

theorem scanSingle_lt {word word' : CString} {pos' : ℕ}
    (h : scanSingle line pos word = .ok (word',pos')) : pos < pos' := by
  have hfollows : Follows line (scanSingle line pos word) (lexSingle (line.drop pos) word) :=
    scanSingle_follows word rfl
  rw [h] at hfollows
  exact pos_lt_of_length (lexSingle_length hfollows.ok.1)

end Positions

def scanWordLoop (line : CString) (pos : ℕ) (word : CString) : Except Fault (CString × ℕ) :=
  if pos < line.length then do
    let c ← charAt line pos
    if isSpaceChar c || isSpecial c then .ok (word,pos)
    else if c = '\\' then
      if line.length ≤ pos + 1 then .error .unfinished
      else do
        let nc ← charAt line (pos + 1)
        scanWordLoop line (pos + 2) (word ++ [nc])
    else if c = '"' then
      match _h : scanDouble line (pos + 1) word with
      | .error e => .error e
      | .ok (word',pos') => scanWordLoop line pos' word'
    else if c = '\'' then
      match _h : scanSingle line (pos + 1) word with
      | .error e => .error e
      | .ok (word',pos') => scanWordLoop line pos' word'
    else scanWordLoop line (pos + 1) (word ++ [c])
  else .ok (word,pos)
termination_by line.length - pos
decreasing_by
  · omega
  · have hlt := scanDouble_lt _h
    omega
  · have hlt := scanSingle_lt _h
    omega
  · omega

def scanWord (line : CString) (pos : ℕ) : Except Fault (CString × ℕ) := scanWordLoop line pos []

theorem scanWordLoop_double {line rest : CString} {pos : ℕ} (word : CString)
    (h : line.drop pos = '"' :: rest) :
    scanWordLoop line pos word =
      (scanDouble line (pos + 1) word).bind (fun p => scanWordLoop line p.2 p.1) := by
  rw [scanWordLoop, if_pos (pos_lt h), charAt_eq h]
  cases hd : scanDouble line (pos + 1) word <;> simp [bind,Except.bind,isSpaceChar,isSpecial]

theorem scanWordLoop_single {line rest : CString} {pos : ℕ} (word : CString)
    (h : line.drop pos = '\'' :: rest) :
    scanWordLoop line pos word =
      (scanSingle line (pos + 1) word).bind (fun p => scanWordLoop line p.2 p.1) := by
  rw [scanWordLoop, if_pos (pos_lt h), charAt_eq h]
  cases hs : scanSingle line (pos + 1) word <;> simp [bind,Except.bind,isSpaceChar,isSpecial]

theorem scanWordLoop_follows {line cs : CString} {pos : ℕ} (word : CString)
    (h : line.drop pos = cs) (hpos : pos ≤ line.length) :
    Follows line (scanWordLoop line pos word) (lexWordLoop cs word) := by
  fun_induction lexWordLoop cs word generalizing pos with
  | case1 word =>
    rw [scanWordLoop, if_neg (not_pos_lt h), ← h]
    exact .stands hpos
  | case2 word c rest hstop =>
    rw [scanWordLoop, if_pos (pos_lt h), charAt_eq h, ← h]
    simp only [bind, Except.bind, hstop, ↓reduceIte]
    exact .stands hpos
  | case3 word hstop =>
    have hend : line.length ≤ pos + 1 := Nat.le_of_not_lt (not_pos_lt (drop_next h))
    rw [scanWordLoop, if_pos (pos_lt h), charAt_eq h]
    simp only [bind, Except.bind, hstop, hend, ↓reduceIte]
    exact .failed
  | case4 word nc rest hstop ih =>
    have hmore := pos_lt (drop_next h)
    rw [scanWordLoop, if_pos (pos_lt h), charAt_eq h]
    simp only [bind, Except.bind, hstop, Nat.not_le_of_lt hmore, ↓reduceIte,
      charAt_eq (drop_next h)]
    exact ih (drop_next (drop_next h)) hmore
  | case5 word rest hd hstop hescape =>
    have hfollows := scanDouble_follows word (drop_next h)
    rw [hd] at hfollows
    rw [scanWordLoop_double word h, hfollows.of_none]
    exact .failed
  | case6 word rest word' rest' hd hstop hescape ih =>
    have hfollows := scanDouble_follows word (drop_next h)
    rw [hd] at hfollows
    obtain ⟨pos',hscan,hdrop,hle⟩ := hfollows.of_some
    rw [scanWordLoop_double word h, hscan]
    exact ih hdrop hle
  | case7 word rest hs hstop hescape hdouble =>
    have hfollows := scanSingle_follows word (drop_next h)
    rw [hs] at hfollows
    rw [scanWordLoop_single word h, hfollows.of_none]
    exact .failed
  | case8 word rest word' rest' hs hstop hescape hdouble ih =>
    have hfollows := scanSingle_follows word (drop_next h)
    rw [hs] at hfollows
    obtain ⟨pos',hscan,hdrop,hle⟩ := hfollows.of_some
    rw [scanWordLoop_single word h, hscan]
    exact ih hdrop hle
  | case9 word c rest hstop hescape hdouble hsingle ih =>
    rw [scanWordLoop, if_pos (pos_lt h), charAt_eq h]
    simp only [bind, Except.bind, hstop, hescape, hdouble, hsingle, ↓reduceIte]
    exact ih (drop_next h) (pos_lt h)

theorem scanWord_follows {line cs : CString} {pos : ℕ} (h : line.drop pos = cs)
    (hpos : pos ≤ line.length) : Follows line (scanWord line pos) (lexWord cs) :=
  scanWordLoop_follows [] h hpos

theorem scanWord_lt {line rest : CString} {pos pos' : ℕ} {c : Char} {text : CString}
    (h : line.drop pos = c :: rest) (hc : (isSpaceChar c || isSpecial c) = false)
    (hscan : scanWord line pos = .ok (text,pos')) : pos < pos' := by
  have hfollows := scanWord_follows h (Nat.le_of_lt (pos_lt h))
  rw [hscan] at hfollows
  apply pos_lt_of_length
  rw [h]
  exact lexWord_length_lt hc hfollows.ok.1

theorem charAt_drop {line : CString} {pos : ℕ} {c : Char} (h : charAt line pos = .ok c) :
    line.drop pos = c :: line.drop (pos + 1) := by
  unfold charAt at h
  split at h
  · next hget =>
    cases h
    rw [List.drop_eq_getElem_cons (List.getElem?_eq_some_iff.mp hget).1]
    rw [(List.getElem?_eq_some_iff.mp hget).2]
  · cases h

/-- The loop of `lex_line` with its position, which is returned with the tokens. -/
def scanLineLoop (line : CString) (pos : ℕ) (vec : TokenList) : Except Fault (TokenList × ℕ) :=
  if pos < line.length then
    match _hc : charAt line pos with
    | .error e => .error e
    | .ok c =>
      if isSpaceChar c then scanLineLoop line (pos + 1) vec
      else if c = '|' then scanLineLoop line (pos + 1) (vec ++ [Token.operator .opPipe])
      else if c = '&' then scanLineLoop line (pos + 1) (vec ++ [Token.operator .opAmp])
      else if c = ';' then scanLineLoop line (pos + 1) (vec ++ [Token.operator .opSemi])
      else if c = '<' then scanLineLoop line (pos + 1) (vec ++ [Token.operator .opLt])
      else if c = '>' then
        if pos + 1 < line.length then do
          let nc ← charAt line (pos + 1)
          if nc = '>' then scanLineLoop line (pos + 2) (vec ++ [Token.operator .opGtgt])
          else scanLineLoop line (pos + 1) (vec ++ [Token.operator .opGt])
        else scanLineLoop line (pos + 1) (vec ++ [Token.operator .opGt])
      else
        match _h : scanWord line pos with
        | .error e => .error e
        | .ok (text,pos') => scanLineLoop line pos' (vec ++ [Token.word text])
  else .ok (vec,pos)
termination_by line.length - pos
decreasing_by
  any_goals omega
  have hlt := scanWord_lt (charAt_drop _hc) (by simp_all [isSpecial]) _h
  omega

def scanLine (line : CString) : Except Fault (TokenList × ℕ) := scanLineLoop line 0 []

theorem scanLineLoop_word {line rest : CString} {pos : ℕ} {c : Char} (vec : TokenList)
    (h : line.drop pos = c :: rest) (hc : (isSpaceChar c || isSpecial c) = false) :
    scanLineLoop line pos vec =
      (scanWord line pos).bind (fun p => scanLineLoop line p.2 (vec ++ [Token.word p.1])) := by
  simp only [isSpecial, Bool.or_eq_false_iff, beq_eq_false_iff_ne, ne_eq] at hc
  obtain ⟨hs,⟨⟨⟨hlt,hgt⟩,hsemi⟩,hpipe⟩,hamp⟩ := hc
  rw [scanLineLoop, if_pos (pos_lt h), charAt_eq h]
  simp only [hs, hlt, hgt, hsemi, hpipe, hamp, Bool.false_eq_true, ↓reduceIte]
  cases scanWord line pos <;> rfl

/-- A `>` that no other follows; the second read is only made inside the line. -/
theorem scanLineLoop_gt {line rest : CString} {pos : ℕ} (vec : TokenList)
    (h : line.drop pos = '>' :: rest) (hgt : rest.head? ≠ some '>') :
    scanLineLoop line pos vec = scanLineLoop line (pos + 1) (vec ++ [Token.operator .opGt]) := by
  rw [scanLineLoop, if_pos (pos_lt h), charAt_eq h]
  simp only [isSpaceChar, Char.reduceEq, Char.reduceBEq, Bool.or_self, Bool.false_eq_true,
    ↓reduceIte]
  cases hrest : rest with
  | nil => rw [if_neg (not_pos_lt ((drop_next h).trans hrest))]
  | cons nc rest' =>
    have hnext := (drop_next h).trans hrest
    have hne : nc ≠ '>' := fun heq => hgt (by rw [hrest, heq, List.head?_cons])
    rw [if_pos (pos_lt hnext), charAt_eq hnext]
    simp only [bind, Except.bind, hne, ↓reduceIte]

theorem scanLineLoop_follows {line cs : CString} {pos : ℕ} (vec : TokenList)
    (h : line.drop pos = cs) (hpos : pos ≤ line.length) :
    scanLineLoop line pos vec = match lexLineLoop cs vec with
      | some ts => .ok (ts,line.length)
      | none => .error .unfinished := by
  fun_induction lexLineLoop cs vec generalizing pos with
  | case1 vec =>
    have hend : pos = line.length := Nat.le_antisymm hpos (List.drop_eq_nil_iff.mp h)
    rw [scanLineLoop, if_neg (not_pos_lt h), hend]
  | case2 vec c rest hspace ih =>
    rw [scanLineLoop, if_pos (pos_lt h), charAt_eq h]
    simp only [hspace, ↓reduceIte]
    exact ih (drop_next h) (pos_lt h)
  | case3 vec rest hspace ih =>
    rw [scanLineLoop, if_pos (pos_lt h), charAt_eq h]
    simp only [hspace, ↓reduceIte]
    exact ih (drop_next h) (pos_lt h)
  | case4 vec rest hspace hpipe ih =>
    rw [scanLineLoop, if_pos (pos_lt h), charAt_eq h]
    simp only [hspace, hpipe, ↓reduceIte]
    exact ih (drop_next h) (pos_lt h)
  | case5 vec rest hspace hpipe hamp ih =>
    rw [scanLineLoop, if_pos (pos_lt h), charAt_eq h]
    simp only [hspace, hpipe, hamp, ↓reduceIte]
    exact ih (drop_next h) (pos_lt h)
  | case6 vec rest hspace hpipe hamp hsemi ih =>
    rw [scanLineLoop, if_pos (pos_lt h), charAt_eq h]
    simp only [hspace, hpipe, hamp, hsemi, ↓reduceIte]
    exact ih (drop_next h) (pos_lt h)
  | case7 vec rest hgt hspace hpipe hamp hsemi hlt ih =>
    obtain ⟨rest',hrest⟩ := List.head?_eq_some_iff.mp hgt
    have hnext := (drop_next h).trans hrest
    rw [scanLineLoop, if_pos (pos_lt h), charAt_eq h]
    simp only [hspace, hpipe, hamp, hsemi, hlt, ↓reduceIte, pos_lt hnext, charAt_eq hnext]
    refine ih ?_ (pos_lt hnext)
    rw [hrest, List.tail_cons]
    exact drop_next hnext
  | case8 vec rest hgt hspace hpipe hamp hsemi hlt ih =>
    rw [scanLineLoop_gt vec h hgt]
    exact ih (drop_next h) (pos_lt h)
  | case9 vec c rest hspace hpipe hamp hsemi hlt hgt hword =>
    rw [scanLineLoop_word vec h (by simp [hspace,isSpecial,hpipe,hamp,hsemi,hlt,hgt])]
    have hfollows := scanWord_follows h hpos
    rw [hword] at hfollows
    rw [hfollows.of_none]
    rfl
  | case10 vec c rest hspace hpipe hamp hsemi hlt hgt text rest' hword ih =>
    rw [scanLineLoop_word vec h (by simp [hspace,isSpecial,hpipe,hamp,hsemi,hlt,hgt])]
    have hfollows := scanWord_follows h hpos
    rw [hword] at hfollows
    obtain ⟨pos',hscan,hdrop,hle⟩ := hfollows.of_some
    rw [hscan]
    exact ih hdrop hle

/-- The loops of the lexer stay within the line and, unless they find it unfinished,
leave at its end. -/
theorem scanLine_eq (line : CString) : scanLine line = match lexLine line with
    | some ts => .ok (ts,line.length)
    | none => .error .unfinished := scanLineLoop_follows [] rfl (Nat.zero_le _)

/-! ## The states of the scan -/

/-- Outside quotes and in each kind of quotes, and after a backslash where one takes
the next character. -/
inductive Mode
  | outside
  | escape
  | single
  | double
  | doubleEscape
  deriving DecidableEq, Repr

def Mode.next : Mode → Char → Mode
  | .outside, c =>
    if c = '\\' then .escape else if c = '"' then .double else if c = '\'' then .single
    else .outside
  | .escape, _ => .outside
  | .single, c => if c = '\'' then .outside else .single
  | .double, c => if c = '"' then .outside else if c = '\\' then .doubleEscape else .double
  | .doubleEscape, _ => .double

def Mode.after (m : Mode) (cs : List Char) : Mode := cs.foldl Mode.next m

@[simp] theorem Mode.after_nil (m : Mode) : m.after [] = m := rfl

@[simp] theorem Mode.after_cons (m : Mode) (c : Char) (cs : List Char) :
    m.after (c :: cs) = (m.next c).after cs := rfl

theorem Mode.next_plain {c : Char} (hescape : c ≠ '\\') (hdouble : c ≠ '"') (hsingle : c ≠ '\'') :
    Mode.outside.next c = .outside := by
  simp [Mode.next,hescape,hdouble,hsingle]

/-- What a loop leaves unread is where the scan goes on outside quotes, and a loop
that fails does not come back there. -/
def Resumes {β : Type} (m : Mode) : Option (β × List Char) → Prop
  | some (_,rest) => m = Mode.outside.after rest
  | none => m ≠ .outside

theorem lexDouble_resumes (cs : List Char) (word : CString) :
    Resumes (Mode.double.after cs) (lexDouble cs word) := by
  fun_induction lexDouble cs word with
  | case1 => simp [Resumes]
  | case2 => simp [Resumes,Mode.next]
  | case3 word hquote => simp [Resumes,Mode.next]
  | case4 word nc rest hnc hquote ih => simpa [Mode.next] using ih
  | case5 word nc rest hnc hquote ih => simpa [Mode.next] using ih
  | case6 dc rest word hquote hescape ih => simpa [Mode.next,hquote,hescape] using ih

theorem lexSingle_resumes (cs : List Char) (word : CString) :
    Resumes (Mode.single.after cs) (lexSingle cs word) := by
  fun_induction lexSingle cs word with
  | case1 => simp [Resumes]
  | case2 => simp [Resumes,Mode.next]
  | case3 sc rest word hquote ih => simpa [Mode.next,hquote] using ih

theorem lexWordLoop_resumes (cs : List Char) (word : CString) :
    Resumes (Mode.outside.after cs) (lexWordLoop cs word) := by
  fun_induction lexWordLoop cs word with
  | case1 => simp [Resumes]
  | case2 => simp [Resumes]
  | case3 word hstop => simp [Resumes,Mode.next]
  | case4 word nc rest hstop ih => simpa [Mode.next] using ih
  | case5 word rest hd hstop hescape =>
    have hquote := lexDouble_resumes rest word
    rw [hd] at hquote
    simpa [Mode.next] using hquote
  | case6 word rest word' rest' hd hstop hescape ih =>
    have hquote := lexDouble_resumes rest word
    rw [hd] at hquote
    have hback : Mode.outside.after ('"' :: rest) = Mode.outside.after rest' := by
      simpa [Mode.next,Resumes] using hquote
    rw [hback]
    exact ih
  | case7 word rest hs hstop hescape hdouble =>
    have hquote := lexSingle_resumes rest word
    rw [hs] at hquote
    simpa [Mode.next] using hquote
  | case8 word rest word' rest' hs hstop hescape hdouble ih =>
    have hquote := lexSingle_resumes rest word
    rw [hs] at hquote
    have hback : Mode.outside.after ('\'' :: rest) = Mode.outside.after rest' := by
      simpa [Mode.next,Resumes] using hquote
    rw [hback]
    exact ih
  | case9 word c rest hstop hescape hdouble hsingle ih =>
    rw [Mode.after_cons, Mode.next_plain hescape hdouble hsingle]
    exact ih

theorem lexLineLoop_eq_none_iff (cs : List Char) (vec : TokenList) :
    lexLineLoop cs vec = none ↔ Mode.outside.after cs ≠ .outside := by
  fun_induction lexLineLoop cs vec with
  | case1 => simp
  | case2 vec c rest hspace ih =>
    have hplain : Mode.outside.next c = .outside := by
      simp only [isSpaceChar, Bool.or_eq_true, beq_iff_eq] at hspace
      rcases hspace with (rfl | rfl) | rfl <;> rfl
    rw [Mode.after_cons, hplain]
    exact ih
  | case3 vec rest hspace ih => exact ih
  | case4 vec rest hspace hpipe ih => exact ih
  | case5 vec rest hspace hpipe hamp ih => exact ih
  | case6 vec rest hspace hpipe hamp hsemi ih => exact ih
  | case7 vec rest hgt hspace hpipe hamp hsemi hlt ih =>
    obtain ⟨rest',rfl⟩ := List.head?_eq_some_iff.mp hgt
    exact ih
  | case8 vec rest hgt hspace hpipe hamp hsemi hlt ih => exact ih
  | case9 vec c rest hspace hpipe hamp hsemi hlt hgt hword =>
    have hresumes := lexWordLoop_resumes (c :: rest) []
    rw [← lexWord, hword] at hresumes
    exact iff_of_true rfl hresumes
  | case10 vec c rest hspace hpipe hamp hsemi hlt hgt text rest' hword ih =>
    have hresumes := lexWordLoop_resumes (c :: rest) []
    rw [← lexWord, hword] at hresumes
    rw [show Mode.outside.after (c :: rest) = _ from hresumes]
    exact ih

/-! ## What an accepted line is made of -/

/-- Where a word ends: at the end of the line or before a blank or an operator. -/
def Stops (rest : List Char) : Prop := ∀ c ∈ rest.head?, (isSpaceChar c || isSpecial c) = true

theorem stops_nil : Stops [] := fun _ h => by cases h

theorem Boundary.stops {rest : List Char} (h : Boundary rest) : Stops rest := by
  intro c hc
  rw [h c hc, Bool.true_or]

theorem Stops.append {rest more : List Char} (h : Stops rest) (hmore : Stops more) :
    Stops (rest ++ more) := by
  cases rest with
  | nil => exact hmore
  | cons c rest => exact h

theorem lexWordLoop_stops {rest : List Char} (h : Stops rest) (word : CString) :
    lexWordLoop rest word = some (word,rest) := by
  cases rest with
  | nil => exact lexWordLoop_nil word
  | cons c rest => exact lexWordLoop_stop rest word (h c rfl)

/-- A quoted part is read in the same way before any other characters. -/
theorem lexDouble_written {cs rest : List Char} {word word' : CString}
    (h : lexDouble cs word = some (word',rest)) :
    ∃ written, cs = written ++ rest ∧
      ∀ more, lexDouble (written ++ more) word = some (word',more) := by
  fun_induction lexDouble cs word with
  | case1 => cases h
  | case2 rest word =>
    cases h
    exact ⟨['"'],rfl,fun more => by rw [List.singleton_append, lexDouble.eq_def]; rfl⟩
  | case3 => cases h
  | case4 word nc rest hnc hquote ih =>
    obtain ⟨written,rfl,hwritten⟩ := ih h
    refine ⟨'\\' :: nc :: written,rfl,fun more => ?_⟩
    rw [List.cons_append, List.cons_append, lexDouble.eq_def]
    simp only [hquote, hnc, ↓reduceIte]
    exact hwritten more
  | case5 word nc rest hnc hquote ih =>
    obtain ⟨written,rfl,hwritten⟩ := ih h
    refine ⟨'\\' :: nc :: written,rfl,fun more => ?_⟩
    rw [List.cons_append, List.cons_append, lexDouble.eq_def]
    simp only [hquote, hnc, ↓reduceIte]
    exact hwritten more
  | case6 dc rest word hquote hescape ih =>
    obtain ⟨written,rfl,hwritten⟩ := ih h
    refine ⟨dc :: written,rfl,fun more => ?_⟩
    rw [List.cons_append, lexDouble.eq_def]
    simp only [hquote, hescape, ↓reduceIte]
    exact hwritten more

theorem lexSingle_written {cs rest : List Char} {word word' : CString}
    (h : lexSingle cs word = some (word',rest)) :
    ∃ written, cs = written ++ rest ∧
      ∀ more, lexSingle (written ++ more) word = some (word',more) := by
  fun_induction lexSingle cs word with
  | case1 => cases h
  | case2 rest word =>
    cases h
    exact ⟨['\''],rfl,fun more => by simp [lexSingle]⟩
  | case3 sc rest word hquote ih =>
    obtain ⟨written,rfl,hwritten⟩ := ih h
    refine ⟨sc :: written,rfl,fun more => ?_⟩
    rw [List.cons_append, lexSingle, if_neg hquote]
    exact hwritten more

/-- A word is read in the same way wherever it can end. -/
theorem lexWordLoop_written {cs rest : List Char} {word word' : CString}
    (h : lexWordLoop cs word = some (word',rest)) :
    ∃ written, cs = written ++ rest ∧ Stops rest ∧
      ∀ more, Stops more → lexWordLoop (written ++ more) word = some (word',more) := by
  fun_induction lexWordLoop cs word with
  | case1 word =>
    cases h
    exact ⟨[],rfl,stops_nil,fun more hmore => lexWordLoop_stops hmore _⟩
  | case2 word c rest hstop =>
    cases h
    refine ⟨[],rfl,fun d hd => ?_,fun more hmore => lexWordLoop_stops hmore _⟩
    cases hd
    exact hstop
  | case3 => cases h
  | case4 word nc rest hstop ih =>
    obtain ⟨written,rfl,hrest,hwritten⟩ := ih h
    refine ⟨'\\' :: nc :: written,rfl,hrest,fun more hmore => ?_⟩
    rw [List.cons_append, List.cons_append, lexWordLoop_escape]
    exact hwritten more hmore
  | case5 => cases h
  | case6 word rest word'' rest'' hd hstop hescape ih =>
    obtain ⟨quoted,rfl,hquoted⟩ := lexDouble_written hd
    obtain ⟨written,rfl,hrest,hwritten⟩ := ih h
    refine ⟨'"' :: (quoted ++ written),by simp,hrest,fun more hmore => ?_⟩
    rw [List.cons_append, lexWordLoop_double, List.append_assoc, hquoted]
    exact hwritten more hmore
  | case7 => cases h
  | case8 word rest word'' rest'' hs hstop hescape hdouble ih =>
    obtain ⟨quoted,rfl,hquoted⟩ := lexSingle_written hs
    obtain ⟨written,rfl,hrest,hwritten⟩ := ih h
    refine ⟨'\'' :: (quoted ++ written),by simp,hrest,fun more hmore => ?_⟩
    rw [List.cons_append, lexWordLoop_single, List.append_assoc, hquoted]
    exact hwritten more hmore
  | case9 word c rest hstop hescape hdouble hsingle ih =>
    obtain ⟨written,rfl,hrest,hwritten⟩ := ih h
    have hplain : isPlain c = true := by simp_all [isPlain]
    refine ⟨c :: written,rfl,hrest,fun more hmore => ?_⟩
    rw [List.cons_append, lexWordLoop_plain _ _ hplain]
    exact hwritten more hmore

/-- The characters of a line one after the other: a blank, an operator, or a word that
goes on as far as it can. A `>` before another one is no operator by itself. -/
inductive Tiles : List Char → TokenList → Prop
  | nil : Tiles [] []
  | blank {c : Char} {rest : List Char} {ts : TokenList} : isSpaceChar c = true → Tiles rest ts →
      Tiles (c :: rest) ts
  | operator (op : TokenCategory) {rest : List Char} {ts : TokenList} : op ≠ .opWord →
      (op = .opGt → rest.head? ≠ some '>') → Tiles rest ts →
      Tiles (symbol op ++ rest) (Token.operator op :: ts)
  | word {written rest : List Char} {text : CString} {ts : TokenList} : written ≠ [] →
      lexWord written = some (text,[]) → Stops rest → Tiles rest ts →
      Tiles (written ++ rest) (Token.word text :: ts)

theorem lexLineLoop_tiles {cs : List Char} {vec ts : TokenList}
    (h : lexLineLoop cs vec = some ts) : ∃ us, ts = vec ++ us ∧ Tiles cs us := by
  have hpush : ∀ {vec ts : TokenList} {t : Token} {rest cs : List Char},
      (∃ us, ts = (vec ++ [t]) ++ us ∧ Tiles rest us) →
      (∀ us, Tiles rest us → Tiles cs (t :: us)) → ∃ us, ts = vec ++ us ∧ Tiles cs us := by
    rintro vec ts t rest cs ⟨us,rfl,hus⟩ htile
    exact ⟨t :: us,by simp,htile us hus⟩
  fun_induction lexLineLoop cs vec with
  | case1 vec =>
    cases h
    exact ⟨[],by simp,.nil⟩
  | case2 vec c rest hspace ih =>
    obtain ⟨us,hts,hus⟩ := ih h
    exact ⟨us,hts,.blank hspace hus⟩
  | case3 vec rest hspace ih =>
    exact hpush (ih h) (fun _ hus => .operator .opPipe (by decide) (by simp) hus)
  | case4 vec rest hspace hpipe ih =>
    exact hpush (ih h) (fun _ hus => .operator .opAmp (by decide) (by simp) hus)
  | case5 vec rest hspace hpipe hamp ih =>
    exact hpush (ih h) (fun _ hus => .operator .opSemi (by decide) (by simp) hus)
  | case6 vec rest hspace hpipe hamp hsemi ih =>
    exact hpush (ih h) (fun _ hus => .operator .opLt (by decide) (by simp) hus)
  | case7 vec rest hgt hspace hpipe hamp hsemi hlt ih =>
    obtain ⟨rest',rfl⟩ := List.head?_eq_some_iff.mp hgt
    exact hpush (ih h) (fun _ hus => .operator .opGtgt (by decide) (by simp) hus)
  | case8 vec rest hgt hspace hpipe hamp hsemi hlt ih =>
    exact hpush (ih h) (fun _ hus => .operator .opGt (by decide) (fun _ => hgt) hus)
  | case9 => cases h
  | case10 vec c rest hspace hpipe hamp hsemi hlt hgt text rest' hword ih =>
    obtain ⟨written,heq,hrest,hwritten⟩ := lexWordLoop_written hword
    have hne : written ≠ [] := by
      rintro rfl
      have hstop := hrest c (by rw [← List.nil_append rest', ← heq, List.head?_cons]; rfl)
      simp [hspace,isSpecial,hpipe,hamp,hsemi,hlt,hgt] at hstop
    have halone : lexWord written = some (text,[]) := by
      simpa [lexWord] using hwritten [] stops_nil
    rw [heq]
    exact hpush (ih h) (fun _ hus => .word hne halone hrest hus)

/-- The lexer never reads past the length of the line. It reports an error exactly when
the scan ends in a quote or after a backslash that still takes a character; otherwise
it leaves at the end of the line, which blanks, operators and words make up. -/
theorem lexLine_error_or_tiles (line : CString) :
    (scanLine line = .error .unfinished ∧ lexLine line = none ∧
        Mode.outside.after line ≠ .outside) ∨
      ∃ ts, scanLine line = .ok (ts,line.length) ∧ lexLine line = some ts ∧
        Mode.outside.after line = .outside ∧ Tiles line ts := by
  have hiff := lexLineLoop_eq_none_iff line []
  rw [← lexLine] at hiff
  rw [scanLine_eq]
  cases hlex : lexLine line with
  | none =>
    rw [hlex] at hiff
    exact Or.inl ⟨rfl,rfl,hiff.mp rfl⟩
  | some ts =>
    rw [hlex] at hiff
    obtain ⟨us,hus,htiles⟩ := lexLineLoop_tiles hlex
    rw [List.nil_append] at hus
    refine Or.inr ⟨ts,rfl,rfl,?_,hus ▸ htiles⟩
    by_cases hend : Mode.outside.after line = .outside
    · exact hend
    · cases hiff.mpr hend

/-! ## Cutting a line at blanks -/

theorem lexWord_start {c : Char} {cs : List Char} {text : CString}
    (h : lexWord (c :: cs) = some (text,[])) : (isSpaceChar c || isSpecial c) = false := by
  cases hc : isSpaceChar c || isSpecial c with
  | false => rfl
  | true =>
    rw [lexWord, lexWordLoop_stop cs [] hc] at h
    cases h

/-- What the lexer read before a blank it reads again with more characters after it. -/
theorem Tiles.lexLineLoop_append {cs more : List Char} {ts : TokenList} (h : Tiles cs ts)
    (hmore : Boundary more) (vec : TokenList) :
    lexLineLoop (cs ++ more) vec = lexLineLoop more (vec ++ ts) := by
  induction h generalizing vec with
  | nil => rw [List.nil_append, List.append_nil]
  | blank hc _ ih => rw [List.cons_append, lexLineLoop_space _ _ hc, ih]
  | @operator op rest ts hop hgt _ ih =>
    have hrest : op = .opGt → (rest ++ more).head? ≠ some '>' := by
      intro heq
      cases rest with
      | nil => exact fun hhead => absurd (hmore '>' hhead) (by decide)
      | cons c rest => exact hgt heq
    rw [List.append_assoc, lexLineLoop_operator vec hop hrest, ih, List.append_assoc,
      List.singleton_append]
  | @word written rest text ts hne hword hrest _ ih =>
    cases written with
    | nil => exact absurd rfl hne
    | cons c written =>
      obtain ⟨read,heq,_,hread⟩ := lexWordLoop_written hword
      rw [List.append_nil] at heq
      subst heq
      have hlong := hread (rest ++ more) (hrest.append hmore.stops)
      rw [List.append_assoc, List.cons_append] at *
      rw [lexLineLoop_word vec (lexWord_start hword) hlong, ih, List.append_assoc,
        List.singleton_append]

/-- The tokens pushed before only stand before those that come. -/
theorem lexLineLoop_vec (cs : List Char) (vec : TokenList) :
    lexLineLoop cs vec = (lexLine cs).map (vec ++ ·) := by
  cases hlex : lexLine cs with
  | none =>
    rw [lexLine, lexLineLoop_eq_none_iff] at hlex
    rw [Option.map_none, lexLineLoop_eq_none_iff]
    exact hlex
  | some ts =>
    obtain ⟨us,hus,htiles⟩ := lexLineLoop_tiles hlex
    rw [List.nil_append] at hus
    have hnil : Boundary [] := by simp [Boundary]
    have hloop := htiles.lexLineLoop_append hnil vec
    rw [List.append_nil] at hloop
    rw [hloop, hus, lexLineLoop_nil, Option.map_some]

/-- An accepted line followed by blanks leaves the lexer where a new line would. -/
theorem lexLine_blanks_append {a s : CString} {ts : TokenList} (ha : lexLine a = some ts)
    (hne : s ≠ []) (hs : ∀ c ∈ s, isSpaceChar c = true) (b : CString) :
    (lexLine (a ++ s ++ b) = none ↔ lexLine b = none) ∧
      ∀ us, lexLine b = some us → lexLine (a ++ s ++ b) = some (ts ++ us) := by
  obtain ⟨ts',hts,htiles⟩ := lexLineLoop_tiles ha
  rw [List.nil_append] at hts
  have hcut : lexLine (a ++ s ++ b) = (lexLine b).map (ts ++ ·) := by
    rw [List.append_assoc, lexLine, htiles.lexLineLoop_append (boundary_blanks hne hs b),
      lexLineLoop_blanks hs, lexLineLoop_vec, hts, List.nil_append]
  rw [hcut]
  exact ⟨Option.map_eq_none_iff,fun us hus => by rw [hus]; rfl⟩

/-- A blank in quotes before the cut is none, and after it an open quote is an error. -/
theorem lexLine_blanks_append_quoted :
    (lexLine (['\'','a',' ','\''] ++ [' ','\t'] ++ ['b']) =
        some [Token.word ['a',' '],Token.word ['b']]) ∧
      lexLine (['\'','a',' ','\''] ++ [' ','\t'] ++ ['>','"']) = none := by
  have hleft : lexLine ['\'','a',' ','\''] = some [Token.word ['a',' ']] :=
    lexLineLoop_renders (.last (.word [.singleQuoted ['a',' '] (by decide)] (by decide))) []
  have hright : lexLine ['b'] = some [Token.word ['b']] :=
    lexLineLoop_renders (.last (.word [.plain 'b' (by decide)] (by decide))) []
  have hopen : lexLine ['>','"'] = none := (lexLineLoop_eq_none_iff _ _).mpr (by decide)
  have hblank : ∀ c ∈ [' ','\t'], isSpaceChar c = true := by simp [isSpaceChar]
  exact ⟨(lexLine_blanks_append hleft (by decide) hblank ['b']).2 _ hright,
    (lexLine_blanks_append hleft (by decide) hblank ['>','"']).1.mpr hopen⟩

end CShellXv6.Lexer
