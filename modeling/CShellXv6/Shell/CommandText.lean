import CShellXv6.Shell.Commands
import CShellXv6.Shell.Quoting

/-! # The text shown for a command

`reconstruct_cmd_str` writes the tokens of a command into a buffer of the caller. It stays
within the buffer and terminates the string. A token that does not fit is passed over and the
tokens after it are tried as well, so the text need not be the beginning of the command.
-/
namespace CShellXv6.Commands
open Lexer TokenCategory Executor

/-! ## The buffer -/

/-- A store into a buffer; `none` is a store outside of it. -/
def store (buffer : List Char) (i : ℕ) (c : Char) : Option (List Char) :=
  if i < buffer.length then some (buffer.set i c) else none

/-- `strcpy(buffer + i, text)`, the terminator included. -/
def strcpy (buffer : List Char) (i : ℕ) : CString → Option (List Char)
  | [] => store buffer i (Char.ofNat 0)
  | c :: text => (store buffer i c).bind fun buffer => strcpy buffer (i + 1) text

/-- The space between two tokens. -/
def writeSpace (outLen : ℕ) (out : List Char) (cur : ℕ) : Option (List Char × ℕ) :=
  if 0 < cur ∧ cur + 1 < outLen then
    (store out cur ' ').bind fun out =>
      (store out (cur + 1) (Char.ofNat 0)).map fun out => (out,cur + 1)
  else some (out,cur)

def writeText (outLen : ℕ) (out : List Char) (cur : ℕ) (text : CString) :
    Option (List Char × ℕ) :=
  if cur + text.length < outLen then
    (strcpy out cur text).map fun out => (out,cur + text.length)
  else some (out,cur)

/-- The body of the loop, with `out` and `cur`. -/
def writeToken (outLen : ℕ) (s : List Char × ℕ) (text : CString) : Option (List Char × ℕ) :=
  if text = [] then some s
  else (writeSpace outLen s.1 s.2).bind fun s => writeText outLen s.1 s.2 text

def writeCmdStr (list : TokenList) (out : List Char) (outLen : ℕ) : Option (List Char) :=
  (store out 0 (Char.ofNat 0)).bind fun out =>
    ((list.map tokenText).foldlM (writeToken outLen) (out,0)).map Prod.fst

theorem store_at (out : List Char) (c d : Char) (rest : List Char) :
    store (out ++ c :: rest) out.length d = some (out ++ d :: rest) := by
  simp [store]

theorem strcpy_at (out text room : List Char) (h : text.length < room.length) :
    strcpy (out ++ room) out.length text =
      some (out ++ text ++ Char.ofNat 0 :: room.drop (text.length + 1)) := by
  induction text generalizing out room with
  | nil =>
    cases room with
    | nil => cases h
    | cons c room => simpa [strcpy] using store_at out c (Char.ofNat 0) room
  | cons d text ih =>
    cases room with
    | nil => cases h
    | cons c room =>
      have hrest := ih (out ++ [d]) room (Nat.lt_of_succ_lt_succ h)
      rw [List.length_append, List.append_assoc] at hrest
      simpa [strcpy,store_at] using hrest

/-- The buffer has `outLen` bytes and holds a string of length `cur`. -/
structure Holds (outLen : ℕ) (s : List Char × ℕ) (out : CString) : Prop where
  size : s.1.length = outLen
  cur : s.2 = out.length
  terminated : ∃ rest, s.1 = out ++ Char.ofNat 0 :: rest

/-- The text before a token is written, with the space if there is room for it. -/
def spaced (outLen : ℕ) (out : CString) : CString :=
  if 0 < out.length ∧ out.length + 1 < outLen then out ++ [' '] else out

theorem appendText_eq {outLen : ℕ} {out text : CString} (h : text ≠ []) :
    appendText outLen out text = if (spaced outLen out).length + text.length < outLen then
      spaced outLen out ++ text else spaced outLen out := by
  simp only [appendText, h, if_false]
  rfl

theorem writeSpace_holds {outLen : ℕ} {s : List Char × ℕ} {out : CString}
    (h : Holds outLen s out) :
    ∃ s', writeSpace outLen s.1 s.2 = some s' ∧ Holds outLen s' (spaced outLen out) := by
  obtain ⟨buffer,cur⟩ := s
  obtain ⟨hsize,rfl,rest,rfl⟩ := h
  unfold writeSpace spaced
  dsimp only
  split
  · next hroom =>
    cases rest with
    | nil =>
      simp only [List.length_append, List.length_singleton] at hsize
      omega
    | cons c rest =>
      have hnul := store_at (out ++ [' ']) c (Char.ofNat 0) rest
      simp only [List.length_append, List.length_singleton, List.append_assoc,
        List.singleton_append] at hnul
      refine ⟨(out ++ [' '] ++ Char.ofNat 0 :: rest,out.length + 1),?_,?_,by simp,rest,rfl⟩
      · simp [store_at,hnul]
      · simpa using hsize
  · exact ⟨_,rfl,hsize,rfl,rest,rfl⟩

theorem writeText_holds {outLen : ℕ} {s : List Char × ℕ} {out : CString}
    (h : Holds outLen s out) (text : CString) :
    ∃ s', writeText outLen s.1 s.2 text = some s' ∧
      Holds outLen s' (if out.length + text.length < outLen then out ++ text else out) := by
  obtain ⟨buffer,cur⟩ := s
  obtain ⟨hsize,rfl,rest,rfl⟩ := h
  unfold writeText
  dsimp only
  split
  · next hroom =>
    have hlength : text.length < (Char.ofNat 0 :: rest).length := by
      rw [List.length_append] at hsize
      omega
    rw [strcpy_at out text _ hlength]
    refine ⟨_,rfl,?_,by simp,_,rfl⟩
    simp only [List.length_append, List.length_cons, List.length_drop] at hsize hlength ⊢
    omega
  · exact ⟨_,rfl,hsize,rfl,rest,rfl⟩

theorem writeToken_holds {outLen : ℕ} {s : List Char × ℕ} {out : CString}
    (h : Holds outLen s out) (text : CString) :
    ∃ s', writeToken outLen s text = some s' ∧ Holds outLen s' (appendText outLen out text) := by
  unfold writeToken
  by_cases htext : text = []
  · exact ⟨s,if_pos htext,by rwa [appendText, if_pos htext]⟩
  · obtain ⟨s',hs',hspace⟩ := writeSpace_holds h
    obtain ⟨s'',hs'',htoken⟩ := writeText_holds hspace text
    rw [if_neg htext, hs', Option.bind_some, appendText_eq htext]
    exact ⟨s'',hs'',htoken⟩

theorem foldlM_writeToken_holds {outLen : ℕ} (texts : List CString) {s : List Char × ℕ}
    {out : CString} (h : Holds outLen s out) :
    ∃ s', texts.foldlM (writeToken outLen) s = some s' ∧
      Holds outLen s' (texts.foldl (appendText outLen) out) := by
  induction texts generalizing s out with
  | nil => exact ⟨s,rfl,h⟩
  | cons text texts ih =>
    obtain ⟨s',hs',hnext⟩ := writeToken_holds h text
    rw [List.foldlM_cons, hs', List.foldl_cons]
    exact ih hnext

/-- The text that a command leaves in a buffer of `outLen` bytes. -/
def shownText (outLen : ℕ) (list : TokenList) : CString :=
  (list.map tokenText).foldl (appendText outLen) []

/-- No store is outside the buffer, and what the buffer holds is the text. -/
theorem writeCmdStr_eq (list : TokenList) {out : List Char} (h : 1 ≤ out.length) :
    ∃ rest, writeCmdStr list out out.length =
        some (shownText out.length list ++ Char.ofNat 0 :: rest) ∧
      (shownText out.length list ++ Char.ofNat 0 :: rest).length = out.length := by
  cases out with
  | nil => cases h
  | cons c rest =>
    have hstart : Holds (c :: rest).length (Char.ofNat 0 :: rest,0) [] := ⟨rfl,rfl,rest,rfl⟩
    obtain ⟨s,hs,hsize,_,more,hmore⟩ := foldlM_writeToken_holds (list.map tokenText) hstart
    have hfirst := store_at [] c (Char.ofNat 0) rest
    simp only [List.nil_append, List.length_nil] at hfirst
    rw [hmore] at hsize
    refine ⟨more,?_,hsize⟩
    rw [writeCmdStr, hfirst, Option.bind_some, hs, Option.map_some, hmore]
    rfl

/-! ## The joined text -/

/-- The texts of the tokens with a space between any two, empty ones left out. -/
def shownTexts (list : TokenList) : List CString := (list.map tokenText).filter (· ≠ [])

def join (texts : List CString) : CString := [' '].intercalate texts

theorem join_concat (texts : List CString) (text : CString) :
    join (texts ++ [text]) = if texts = [] then text else join texts ++ ' ' :: text := by
  induction texts with
  | nil => exact List.intercalate_singleton
  | cons first texts ih =>
    unfold join at ih ⊢
    cases texts with
    | nil => simp [List.intercalate_cons_cons]
    | cons second texts =>
      simp only [List.cons_append, List.intercalate_cons_cons, reduceCtorEq, if_false] at ih ⊢
      rw [ih]
      simp

theorem join_append (texts more : List CString) : join texts <+: join (texts ++ more) := by
  induction more using List.reverseRecOn with
  | nil => rw [List.append_nil]
  | append_singleton more text ih =>
    rw [← List.append_assoc, join_concat]
    split
    · next hnil =>
      rw [(List.append_eq_nil_iff.mp hnil).1]
      exact List.nil_prefix
    · exact ih.trans (List.prefix_append _ _)

theorem join_eq_nil {texts : List CString} (hne : ∀ text ∈ texts, text ≠ [])
    (h : join texts = []) : texts = [] := by
  induction texts using List.reverseRecOn with
  | nil => rfl
  | append_singleton texts text ih =>
    have htext := hne text (by simp)
    rw [join_concat] at h
    split at h
    · exact absurd h htext
    · cases (List.append_eq_nil_iff.mp h).2

theorem foldl_appendText_filter (outLen : ℕ) (texts : List CString) (out : CString) :
    (texts.filter (· ≠ [])).foldl (appendText outLen) out =
      texts.foldl (appendText outLen) out := by
  induction texts generalizing out with
  | nil => rfl
  | cons text texts ih =>
    by_cases htext : text = []
    · simp only [htext, ne_eq, not_true_eq_false, decide_false, Bool.false_eq_true,
        not_false_eq_true, List.filter_cons_of_neg, List.foldl_cons]
      rw [appendText, if_pos rfl]
      exact ih out
    · rw [List.filter_cons_of_pos (by simpa using htext), List.foldl_cons, List.foldl_cons]
      exact ih _

theorem shownText_eq (outLen : ℕ) (list : TokenList) :
    shownText outLen list = (shownTexts list).foldl (appendText outLen) [] :=
  (foldl_appendText_filter outLen _ []).symm

/-- The separator of the next text. -/
def separator (texts : List CString) : CString := if texts = [] then [] else [' ']

theorem join_concat_eq (texts : List CString) (text : CString) :
    join (texts ++ [text]) = join texts ++ separator texts ++ text := by
  rw [join_concat, separator]
  split
  · next hnil =>
    rw [hnil]
    rfl
  · simp

theorem spaced_join {outLen : ℕ} {texts : List CString} (hne : ∀ text ∈ texts, text ≠ [])
    (h : (join texts).length + 1 < outLen) :
    spaced outLen (join texts) = join texts ++ separator texts := by
  unfold spaced separator
  by_cases hnil : texts = []
  · rw [hnil]
    rfl
  · have hpos : 0 < (join texts).length :=
      List.length_pos_iff.mpr fun hjoin => hnil (join_eq_nil hne hjoin)
    rw [if_pos ⟨hpos,h⟩, if_neg hnil]

/-- Texts that fit are all shown. -/
theorem foldl_appendText_join {outLen : ℕ} {texts : List CString}
    (hne : ∀ text ∈ texts, text ≠ []) (h : (join texts).length < outLen) :
    texts.foldl (appendText outLen) [] = join texts := by
  induction texts using List.reverseRecOn with
  | nil => rfl
  | append_singleton texts text ih =>
    have hbefore : ∀ text ∈ texts, text ≠ [] := fun t ht => hne t (List.mem_append_left _ ht)
    have htext := hne text (by simp)
    have hlength : 0 < text.length := List.length_pos_iff.mpr htext
    have hshorter := (join_append texts [text]).length_le
    rw [List.foldl_concat, ih hbefore (Nat.lt_of_le_of_lt hshorter h), appendText_eq htext]
    rw [join_concat_eq] at h ⊢
    have hspaced : spaced outLen (join texts) = join texts ++ separator texts := by
      by_cases hnil : texts = []
      · rw [hnil]
        rfl
      · apply spaced_join hbefore
        simp only [List.length_append, separator, if_neg hnil, List.length_singleton] at h
        omega
    rw [hspaced, if_pos (by rwa [← List.length_append])]

/-! ## What is shown of a command that does not fit -/

/-- The text is the beginning of the line, possibly followed by one space. -/
def Begins (text line : CString) : Prop :=
  ∃ start, start <+: line ∧ (text = start ∨ text = start ++ [' '])

theorem begins_iff (text line : CString) :
    Begins text line ↔ text <+: line ∨ text.getLast? = some ' ' ∧ text.dropLast <+: line := by
  constructor
  · rintro ⟨start,hstart,rfl | rfl⟩
    · exact Or.inl hstart
    · refine Or.inr ⟨by simp,by simpa using hstart⟩
  · rintro (hstart | ⟨hlast,hstart⟩)
    · exact ⟨text,hstart,Or.inl rfl⟩
    · exact ⟨_,hstart,Or.inr (List.dropLast_append_getLast? _ hlast).symm⟩

instance (text line : CString) : Decidable (Begins text line) :=
  decidable_of_iff _ (begins_iff text line).symm

theorem begins_append_left (start text line : CString) :
    Begins (start ++ text) (start ++ line) ↔ Begins text line := by
  constructor
  · rintro ⟨before,hbefore,heq | heq⟩
    · rw [← heq] at hbefore
      exact ⟨text,(List.prefix_append_right_inj start).mp hbefore,Or.inl rfl⟩
    · rcases List.eq_nil_or_concat' text with rfl | ⟨init,last,rfl⟩
      · exact ⟨[],List.nil_prefix,Or.inl rfl⟩
      · rw [← List.append_assoc] at heq
        obtain ⟨hinit,hlast⟩ := List.append_inj' heq rfl
        rw [← hinit] at hbefore
        rw [hlast]
        exact ⟨init,(List.prefix_append_right_inj start).mp hbefore,Or.inr rfl⟩
  · rintro ⟨before,hbefore,rfl | rfl⟩
    · exact ⟨_,(List.prefix_append_right_inj start).mpr hbefore,Or.inl rfl⟩
    · exact ⟨_,(List.prefix_append_right_inj start).mpr hbefore,
        Or.inr (List.append_assoc _ _ _).symm⟩

/-- Only as much of the line is looked at as the text is long. -/
theorem begins_append_right {text line : CString} (h : text.length ≤ line.length)
    (more : CString) : Begins text (line ++ more) ↔ Begins text line := by
  have hline := List.prefix_append line more
  constructor
  · rintro ⟨before,hbefore,rfl | rfl⟩
    · exact ⟨text,List.prefix_of_prefix_length_le hbefore hline h,Or.inl rfl⟩
    · rw [List.length_append] at h
      exact ⟨before,List.prefix_of_prefix_length_le hbefore hline (by omega),Or.inr rfl⟩
  · rintro ⟨before,hbefore,htext⟩
    exact ⟨before,hbefore.trans hline,htext⟩

theorem appendText_begins (outLen : ℕ) (out text : CString) :
    out <+: appendText outLen out text := by
  have hspaced : out <+: spaced outLen out := by
    unfold spaced
    split
    · exact List.prefix_append _ _
    · exact List.prefix_rfl
  by_cases htext : text = []
  · rw [appendText, if_pos htext]
  · rw [appendText_eq htext]
    split
    · exact hspaced.trans (List.prefix_append _ _)
    · exact hspaced

theorem appendText_length {outLen : ℕ} {out : CString} (h : out.length < outLen)
    (text : CString) : (appendText outLen out text).length < outLen := by
  have hspaced : (spaced outLen out).length < outLen := by
    unfold spaced
    split
    · next hroom =>
      rw [List.length_append]
      exact hroom.2
    · exact h
  by_cases htext : text = []
  · rwa [appendText, if_pos htext]
  · rw [appendText_eq htext]
    split
    · next hfits => rwa [List.length_append]
    · exact hspaced

/-- What more texts add to a text. -/
def added (outLen : ℕ) (out : CString) (texts : List CString) : CString :=
  (texts.foldl (appendText outLen) out).drop out.length

theorem foldl_appendText_eq (outLen : ℕ) (out : CString) (texts : List CString) :
    texts.foldl (appendText outLen) out = out ++ added outLen out texts := by
  have hbegins : out <+: texts.foldl (appendText outLen) out := by
    induction texts generalizing out with
    | nil => exact List.prefix_rfl
    | cons text texts ih => exact (appendText_begins outLen out text).trans (ih _)
  exact (List.prefix_iff_eq_append.mp hbegins).symm

theorem foldl_appendText_length {outLen : ℕ} (out : CString) (h : out.length < outLen)
    (texts : List CString) : (texts.foldl (appendText outLen) out).length < outLen := by
  induction texts generalizing out with
  | nil => exact h
  | cons text texts ih => exact ih _ (appendText_length h text)

/-- The texts up to `text` are the first that do not fit. -/
structure Overflows (outLen : ℕ) (before : List CString) (text : CString) : Prop where
  fits : (join before).length < outLen
  full : outLen ≤ (join (before ++ [text])).length

/-- Whatever the texts add after the first one that does not fit is its beginning. -/
def CutsOff (outLen : ℕ) (texts : List CString) : Prop :=
  ∀ before text after, texts = before ++ text :: after → Overflows outLen before text →
    Begins (added outLen (spaced outLen (join before)) after) text

theorem exists_overflows {outLen : ℕ} (hlen : 1 ≤ outLen) {texts : List CString}
    (h : outLen ≤ (join texts).length) :
    ∃ before text after, texts = before ++ text :: after ∧ Overflows outLen before text := by
  induction texts using List.reverseRecOn with
  | nil => exact absurd (hlen.trans h) (by decide)
  | append_singleton texts text ih =>
    by_cases hfits : (join texts).length < outLen
    · exact ⟨texts,text,[],rfl,hfits,h⟩
    · obtain ⟨before,first,after,rfl,hover⟩ := ih (Nat.le_of_not_lt hfits)
      exact ⟨before,first,after ++ [text],by simp,hover⟩

theorem join_append_cons (before : List CString) (text : CString) (after : List CString) :
    ∃ more, join (before ++ text :: after) = join before ++ separator before ++ (text ++ more) := by
  obtain ⟨more,hmore⟩ := join_append (before ++ [text]) after
  refine ⟨more,?_⟩
  rw [List.append_assoc, List.singleton_append, join_concat_eq] at hmore
  rw [← hmore, List.append_assoc (_ ++ _)]

section Overflow
variable {outLen : ℕ} {before : List CString} {text : CString} (h : Overflows outLen before text)
  (hne : ∀ t ∈ before ++ [text], t ≠ [])
include h hne

/-- The text at the end of the loop when one does not fit. -/
theorem Overflows.foldl (after : List CString) :
    (before ++ text :: after).foldl (appendText outLen) [] =
      spaced outLen (join before) ++ added outLen (spaced outLen (join before)) after := by
  have hbefore : ∀ t ∈ before, t ≠ [] := fun t ht => hne t (List.mem_append_left _ ht)
  have htext : text ≠ [] := hne text (by simp)
  have hpass : appendText outLen (join before) text = spaced outLen (join before) := by
    have hfull := h.full
    have hfits := h.fits
    have hlength : 0 < text.length := List.length_pos_iff.mpr htext
    rw [appendText_eq htext, if_neg]
    rw [join_concat_eq, List.length_append] at hfull
    by_cases hroom : (join before).length + 1 < outLen
    · rw [spaced_join hbefore hroom]
      omega
    · rw [spaced, if_neg (fun hboth => hroom hboth.2)]
      omega
  rw [List.foldl_append, foldl_appendText_join hbefore h.fits, List.foldl_cons, hpass,
    foldl_appendText_eq]

theorem Overflows.begins_iff (after : List CString) :
    Begins ((before ++ text :: after).foldl (appendText outLen) [])
        (join (before ++ text :: after)) ↔
      Begins (added outLen (spaced outLen (join before)) after) text := by
  have hbefore : ∀ t ∈ before, t ≠ [] := fun t ht => hne t (List.mem_append_left _ ht)
  have hfits := h.fits
  have hfull := h.full
  rw [h.foldl hne after]
  obtain ⟨more,hmore⟩ := join_append_cons before text after
  have hlength : (spaced outLen (join before)).length +
      (added outLen (spaced outLen (join before)) after).length < outLen := by
    have hend := foldl_appendText_length [] (Nat.lt_of_le_of_lt (Nat.zero_le _) hfits)
      (before ++ text :: after)
    rwa [h.foldl hne after, List.length_append] at hend
  rw [join_concat_eq, List.length_append] at hfull
  by_cases hroom : (join before).length + 1 < outLen
  · -- the space is there: what is added stands where the text should
    rw [spaced_join hbefore hroom] at hlength ⊢
    rw [hmore, begins_append_left, begins_append_right]
    omega
  · -- no byte is left for the space or for anything else
    have hspaced : spaced outLen (join before) = join before := if_neg fun hboth => hroom hboth.2
    rw [hspaced] at hlength ⊢
    have hadded : added outLen (join before) after = [] := by
      rw [← List.length_eq_zero_iff]
      omega
    rw [hadded, List.append_nil]
    exact iff_of_true ⟨_,join_append _ _,Or.inl rfl⟩ ⟨[],List.nil_prefix,Or.inl rfl⟩

end Overflow

theorem foldl_begins_iff {outLen : ℕ} (hlen : 1 ≤ outLen) {texts : List CString}
    (hne : ∀ text ∈ texts, text ≠ []) :
    Begins (texts.foldl (appendText outLen) []) (join texts) ↔ CutsOff outLen texts := by
  have hpart : ∀ before text after, texts = before ++ text :: after →
      ∀ t ∈ before ++ [text], t ≠ [] := by
    rintro before text after rfl t ht
    apply hne t
    rw [List.append_cons]
    exact List.mem_append_left _ ht
  constructor
  · rintro hbegins before text after rfl hover
    exact (hover.begins_iff (hpart _ _ _ rfl) after).mp hbegins
  · intro hcuts
    by_cases hfits : (join texts).length < outLen
    · rw [foldl_appendText_join hne hfits]
      exact ⟨_,List.prefix_rfl,Or.inl rfl⟩
    · obtain ⟨before,text,after,rfl,hover⟩ := exists_overflows hlen (Nat.le_of_not_lt hfits)
      exact (hover.begins_iff (hpart _ _ _ rfl) after).mpr (hcuts _ _ _ rfl hover)

/-! ## Reading the text back -/

/-- A token that is written as it is: a non-empty word of plain characters, or an operator that
stands within a command. -/
structure Legible (t : Token) : Prop where
  tagged : t.Tagged
  separator : isSeparator t = false
  plain : t.type = opWord → tokenText t ≠ [] ∧ (tokenText t).all isPlain = true

theorem Legible.word {t : Token} (h : Legible t) (ht : t.type = opWord) :
    t = Token.word (tokenText t) := by
  obtain ⟨type,text⟩ := t
  cases ht
  obtain ⟨text,rfl⟩ := Option.isSome_iff_exists.mp (h.tagged.mp rfl)
  rfl

theorem Legible.operator {t : Token} (h : Legible t) (ht : t.type ≠ opWord) :
    t = Token.operator t.type ∧ tokenText t = symbol t.type ∧ tokenText t ≠ [] := by
  obtain ⟨type,text⟩ := t
  have hnone : text = none := by
    have hsome := mt h.tagged.mpr ht
    simpa using hsome
  have hseparator := h.separator
  subst hnone
  cases type with
  | opWord => exact absurd rfl ht
  | opSemi | opAmp => cases hseparator
  | _ => exact ⟨rfl,rfl,List.cons_ne_nil _ _⟩

theorem Legible.renders {t : Token} (h : Legible t) : RendersToken t (tokenText t) := by
  by_cases ht : t.type = opWord
  · obtain ⟨hne,hplain⟩ := h.plain ht
    have hrenders := rendersToken_plain hne hplain
    rwa [← h.word ht] at hrenders
  · obtain ⟨htoken,htext,_⟩ := h.operator ht
    have hrenders := RendersToken.operator t.type ht
    rwa [← htoken, ← htext] at hrenders

theorem Legible.text_ne_nil {t : Token} (h : Legible t) : tokenText t ≠ [] := by
  by_cases ht : t.type = opWord
  · exact (h.plain ht).1
  · exact (h.operator ht).2.2

theorem renders_join {list : TokenList} (h : ∀ t ∈ list, Legible t) :
    Renders list (join (list.map tokenText)) := by
  induction list with
  | nil => exact .nil
  | cons t list ih =>
    obtain ⟨ht,hlist⟩ := List.forall_mem_cons.mp h
    cases list with
    | nil =>
      rw [List.map_singleton, join, List.intercalate_singleton]
      exact .last ht.renders
    | cons u list =>
      have hrest := ih hlist
      unfold join at hrest ⊢
      rw [List.map_cons, List.map_cons, List.intercalate_cons_cons, List.append_assoc]
      exact .cons ht.renders (List.cons_ne_nil _ _) (by simp [isSpaceChar]) hrest

theorem lexLine_join {list : TokenList} (h : ∀ t ∈ list, Legible t) :
    lexLine (join (shownTexts list)) = some list := by
  have hall : shownTexts list = list.map tokenText := by
    apply List.filter_eq_self.mpr
    intro text htext
    obtain ⟨t,ht,rfl⟩ := List.mem_map.mp htext
    simpa using (h t ht).text_ne_nil
  rw [hall]
  exact lexLineLoop_renders (renders_join h) []

/-- The words `echo`, 507 times `x`, and `b`. -/
def longCommand : TokenList :=
  [Token.word ['e','c','h','o'],Token.word (List.replicate 507 'x'),Token.word ['b']]

end CShellXv6.Commands
