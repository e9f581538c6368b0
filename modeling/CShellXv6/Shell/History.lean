import CShellXv6.Shell.MainLoop
import CShellXv6.Shell.Resolve
import Mathlib.Data.List.DropRight

/-! # The history file of `hop`

`save_history` writes one line per entry, with the two numbers before the path,
and `load_history` reads the lines back with `fgets`, `sscanf` and loops that skip
over the numbers. The file is taken to open.
-/
namespace CShellXv6.History
open Lexer
open MainLoop (cstring)
open Resolve (pathMax)

def maxEntries : ℕ := 256

structure Entry where
  path : CString
  frequency : ℤ
  lastAccess : ℤ
  deriving DecidableEq, Repr

/-! ## Writing -/

/-- The conversions `%d` and `%ld` of `fprintf`. -/
def printInt (i : ℤ) : CString :=
  if i < 0 then '-' :: Nat.toDigits 10 i.natAbs else Nat.toDigits 10 i.natAbs

def Entry.text (e : Entry) : CString :=
  printInt e.frequency ++ ' ' :: (printInt e.lastAccess ++ ' ' :: e.path)

def saveHistory (db : List Entry) : CString := db.flatMap (fun e => e.text ++ ['\n'])

/-! ## Reading -/

/-- One call of `fgets` for at most `n` characters, with what is left of the file. -/
def fgets : ℕ → CString → CString × CString
  | 0, file => ([],file)
  | _ + 1, [] => ([],[])
  | n + 1, c :: file =>
    if c = '\n' then ([c],file)
    else
      let r := fgets n file
      (c :: r.1,r.2)

def isSpace (c : Char) : Bool := c ∈ [' ','\t','\n','\x0b','\x0c','\r']

def isBlank (c : Char) : Bool := c = ' ' || c = '\t'

def isEol (c : Char) : Bool := c = '\n' || c = '\r'

/-- The sign that a number may begin with. -/
def scanSign : CString → ℤ × CString
  | '-' :: rest => (-1,rest)
  | '+' :: rest => (1,rest)
  | text => (1,text)

/-- The digits that `sscanf` converts, with what follows them. -/
def scanInteger (text : CString) : Option (ℤ × CString) :=
  let s := scanSign (text.dropWhile isSpace)
  let digits := s.2.takeWhile Char.isDigit
  if digits = [] then none
  else some (s.1 * Nat.ofDigitChars 10 digits 0,s.2.dropWhile Char.isDigit)

def longMin : ℤ := -9223372036854775808

def longMax : ℤ := 9223372036854775807

def intMax : ℤ := 2147483647

/-- A number that is out of range for a `long` becomes the nearest one. -/
def toLong (i : ℤ) : ℤ := max longMin (min longMax i)

/-- The conversion of a `long` to an `int`. -/
def toInt (i : ℤ) : ℤ := i.bmod 4294967296

/-- The call `sscanf(line, "%d %ld", &freq, &last_acc)`, when it returns 2. -/
def scanNumbers (line : CString) : Option (ℤ × ℤ) := do
  let freq ← scanInteger line
  let last ← scanInteger freq.2
  return (toInt (toLong freq.1),toLong last.1)

/-- The pointer after the loops that skip the numbers and the blanks. -/
def pathField (line : CString) : CString :=
  let p := (line.dropWhile isBlank).dropWhile Char.isDigit
  let p := (p.dropWhile isBlank).dropWhile (fun c => c.isDigit || c = '-')
  p.dropWhile isBlank

def parseLine (buffer : CString) : Option Entry :=
  let line := cstring buffer
  match scanNumbers line with
  | none => none
  | some n =>
    let path := (pathField line).rdropWhile isEol
    if path = [] then none else some ⟨path.take (pathMax - 1),n.1,n.2⟩

/-- The loop of `load_history`. Every round takes at least one character from the
file, so there are never more rounds than characters. -/
def loadLoop : ℕ → CString → List Entry → List Entry
  | 0, _, db => db
  | rounds + 1, file, db =>
    if db.length < maxEntries ∧ file ≠ [] then
      let r := fgets (pathMax + 127) file
      loadLoop rounds r.2 (db ++ (parseLine r.1).toList)
    else db

def loadHistory (file : CString) : List Entry := loadLoop file.length file []

/-! ## Numbers -/

theorem isDigit_toDigits {n : ℕ} {c : Char} (h : c ∈ Nat.toDigits 10 n) : c.isDigit = true :=
  Nat.isDigit_of_mem_toDigits (by decide) (by decide) h

theorem not_isDigit_space : ' '.isDigit = false := rfl

theorem takeWhile_digits (n : ℕ) (rest : CString) :
    (Nat.toDigits 10 n ++ ' ' :: rest).takeWhile Char.isDigit = Nat.toDigits 10 n := by
  rw [List.takeWhile_append_of_pos (fun _ => isDigit_toDigits), List.takeWhile_cons,
    not_isDigit_space]
  simp

theorem dropWhile_digits (n : ℕ) (rest : CString) :
    (Nat.toDigits 10 n ++ ' ' :: rest).dropWhile Char.isDigit = ' ' :: rest := by
  rw [List.dropWhile_append_of_pos (fun _ => isDigit_toDigits), List.dropWhile_cons,
    not_isDigit_space]
  simp

/-- A number in decimal begins with a digit. -/
theorem toDigits_cons (n : ℕ) :
    ∃ c rest, Nat.toDigits 10 n = c :: rest ∧ c.isDigit = true := by
  cases h : Nat.toDigits 10 n with
  | nil => exact absurd h Nat.toDigits_ne_nil
  | cons c rest =>
    refine ⟨c,rest,rfl,isDigit_toDigits (n := n) ?_⟩
    rw [h]
    exact List.mem_cons_self

theorem not_isSpace_of_isDigit {c : Char} (h : c.isDigit = true) : isSpace c = false := by
  cases hs : isSpace c with
  | false => rfl
  | true =>
    simp only [isSpace, List.mem_cons, List.not_mem_nil, or_false, decide_eq_true_eq] at hs
    rcases hs with rfl | rfl | rfl | rfl | rfl | rfl <;> cases h

theorem scanSign_digit {c : Char} (h : c.isDigit = true) (rest : CString) :
    scanSign (c :: rest) = (1,c :: rest) := by
  unfold scanSign
  split
  · next heq =>
    cases heq
    cases h
  · next heq =>
    cases heq
    cases h
  · rfl

theorem scanInteger_digits (n : ℕ) (rest : CString) :
    scanInteger (Nat.toDigits 10 n ++ ' ' :: rest) = some ((n : ℤ),' ' :: rest) := by
  obtain ⟨c,tail,hcons,hdigit⟩ := toDigits_cons n
  have hspace : (Nat.toDigits 10 n ++ ' ' :: rest).dropWhile isSpace =
      Nat.toDigits 10 n ++ ' ' :: rest := by
    rw [hcons, List.cons_append, List.dropWhile_cons, not_isSpace_of_isDigit hdigit]
    simp
  have hsign : scanSign (Nat.toDigits 10 n ++ ' ' :: rest) =
      (1,Nat.toDigits 10 n ++ ' ' :: rest) := by
    rw [hcons, List.cons_append, scanSign_digit hdigit]
  have hvalue : Nat.ofDigitChars 10 (Nat.toDigits 10 n) 0 = n :=
    Nat.ofDigitChars_toDigits (by decide) (by decide)
  simp only [scanInteger, hspace, hsign, takeWhile_digits, dropWhile_digits, hvalue,
    Nat.toDigits_ne_nil, ↓reduceIte, Int.one_mul]

/-- What `fprintf` writes, `sscanf` reads. -/
theorem scanInteger_printInt (i : ℤ) (rest : CString) :
    scanInteger (printInt i ++ ' ' :: rest) = some (i,' ' :: rest) := by
  unfold printInt
  split
  · next hneg =>
    have habs : -(i.natAbs : ℤ) = i := by omega
    have hvalue : Nat.ofDigitChars 10 (Nat.toDigits 10 i.natAbs) 0 = i.natAbs :=
      Nat.ofDigitChars_toDigits (by decide) (by decide)
    have hspace : ('-' :: (Nat.toDigits 10 i.natAbs ++ ' ' :: rest)).dropWhile isSpace =
        '-' :: (Nat.toDigits 10 i.natAbs ++ ' ' :: rest) := rfl
    rw [List.cons_append]
    simp only [scanInteger, hspace, scanSign, takeWhile_digits, dropWhile_digits, hvalue,
      Nat.toDigits_ne_nil, ↓reduceIte, Int.neg_mul, Int.one_mul, habs]
  · next hneg =>
    have habs : (i.natAbs : ℤ) = i := by omega
    rw [scanInteger_digits, habs]

theorem scanInteger_space (text : CString) : scanInteger (' ' :: text) = scanInteger text := by
  have hspace : isSpace ' ' = true := by decide
  simp only [scanInteger, List.dropWhile_cons, hspace, ↓reduceIte]

/-! ## Lines -/

/-- An entry that a successful `hop` can leave in the table. -/
structure Entry.Storable (e : Entry) : Prop where
  frequency : 1 ≤ e.frequency ∧ e.frequency ≤ intMax
  lastAccess : longMin ≤ e.lastAccess ∧ e.lastAccess ≤ longMax
  absolute : e.path.head? = some '/'
  fits : e.path.length ≤ pathMax - 1
  nul : Char.ofNat 0 ∉ e.path

theorem toLong_of_range {i : ℤ} (h : longMin ≤ i ∧ i ≤ longMax) : toLong i = i := by
  unfold toLong
  omega

theorem toInt_of_range {i : ℤ} (h : 1 ≤ i ∧ i ≤ intMax) : toInt i = i := by
  unfold intMax at h
  exact Int.bmod_eq_of_le (by omega) (by omega)

theorem scanNumbers_text {e : Entry} (h : e.Storable) (rest : CString) :
    scanNumbers (e.text ++ rest) = some (e.frequency,e.lastAccess) := by
  have hfirst : scanInteger (e.text ++ rest) =
      some (e.frequency,' ' :: (printInt e.lastAccess ++ ' ' :: (e.path ++ rest))) := by
    rw [Entry.text, List.append_assoc, List.cons_append, List.append_assoc, List.cons_append]
    exact scanInteger_printInt _ _
  have hlong : longMin ≤ e.frequency ∧ e.frequency ≤ longMax := by
    have hrange := h.frequency
    unfold intMax at hrange
    unfold longMin longMax
    omega
  simp only [scanNumbers, hfirst, Option.bind_eq_bind, Option.bind_some, scanInteger_space,
    scanInteger_printInt, toLong_of_range hlong, toInt_of_range h.frequency,
    toLong_of_range h.lastAccess, Option.pure_def]

/-- The characters of a printed number are digits, after a sign. -/
theorem mem_printInt {i : ℤ} {c : Char} (h : c ∈ printInt i) : c.isDigit = true ∨ c = '-' := by
  unfold printInt at h
  split at h
  · rcases List.mem_cons.mp h with rfl | h
    · exact Or.inr rfl
    · exact Or.inl (isDigit_toDigits h)
  · exact Or.inl (isDigit_toDigits h)

theorem printInt_pos {i : ℤ} (h : 1 ≤ i) : printInt i = Nat.toDigits 10 i.natAbs :=
  if_neg (by omega)

theorem dropWhile_blank_of_head {c : Char} (h : isBlank c = false) (rest : CString) :
    (c :: rest).dropWhile isBlank = c :: rest := by
  rw [List.dropWhile_cons, h]
  simp

theorem dropWhile_blank_space {c : Char} (h : isBlank c = false) (rest : CString) :
    (' ' :: c :: rest).dropWhile isBlank = c :: rest := by
  have hspace : isBlank ' ' = true := by decide
  rw [List.dropWhile_cons, hspace, if_pos rfl, dropWhile_blank_of_head h]

theorem isBlank_of_isDigit {c : Char} (h : c.isDigit = true ∨ c = '-') : isBlank c = false := by
  rcases h with h | rfl
  · cases hb : isBlank c with
    | false => rfl
    | true =>
      simp only [isBlank, Bool.or_eq_true, decide_eq_true_eq] at hb
      rcases hb with rfl | rfl <;> cases h
  · decide

theorem printInt_cons (i : ℤ) : ∃ c rest, printInt i = c :: rest ∧ isBlank c = false := by
  cases h : printInt i with
  | nil =>
    unfold printInt at h
    split at h
    · cases h
    · exact absurd h Nat.toDigits_ne_nil
  | cons c rest =>
    refine ⟨c,rest,rfl,isBlank_of_isDigit (mem_printInt (i := i) ?_)⟩
    rw [h]
    exact List.mem_cons_self

/-- The skipping loops stop at the path. -/
theorem pathField_text {e : Entry} (h : e.Storable) (rest : CString) :
    pathField (e.text ++ rest) = e.path ++ rest := by
  obtain ⟨d,digits,hdigits,hd⟩ := toDigits_cons e.frequency.natAbs
  obtain ⟨c,number,hnumber,hc⟩ := printInt_cons e.lastAccess
  have hpath : ∃ tail, e.path = '/' :: tail := by
    have habs := h.absolute
    cases hp : e.path with
    | nil =>
      rw [hp] at habs
      cases habs
    | cons slash tail =>
      rw [hp] at habs
      cases habs
      exact ⟨tail,rfl⟩
  obtain ⟨tail,htail⟩ := hpath
  have hslash : isBlank '/' = false := by decide
  have htext : e.text ++ rest = Nat.toDigits 10 e.frequency.natAbs ++
      ' ' :: (printInt e.lastAccess ++ ' ' :: (e.path ++ rest)) := by
    rw [Entry.text, printInt_pos h.frequency.1, List.append_assoc, List.cons_append,
      List.append_assoc, List.cons_append]
  have hstart : (e.text ++ rest).dropWhile isBlank = e.text ++ rest := by
    rw [htext, hdigits, List.cons_append, dropWhile_blank_of_head (isBlank_of_isDigit (Or.inl hd))]
  have hfirst : (e.text ++ rest).dropWhile Char.isDigit =
      ' ' :: (printInt e.lastAccess ++ ' ' :: (e.path ++ rest)) := by
    rw [htext, dropWhile_digits]
  have hgap : (' ' :: (printInt e.lastAccess ++ ' ' :: (e.path ++ rest))).dropWhile isBlank =
      printInt e.lastAccess ++ ' ' :: (e.path ++ rest) := by
    rw [hnumber, List.cons_append, dropWhile_blank_space hc]
  have hsecond : (printInt e.lastAccess ++ ' ' :: (e.path ++ rest)).dropWhile
      (fun c => c.isDigit || c = '-') = ' ' :: (e.path ++ rest) := by
    rw [List.dropWhile_append_of_pos]
    · rfl
    · intro a ha
      simpa using mem_printInt ha
  have hlast : (' ' :: (e.path ++ rest)).dropWhile isBlank = e.path ++ rest := by
    rw [htail, List.cons_append, dropWhile_blank_space hslash]
  simp only [pathField, hstart, hfirst, hgap, hsecond, hlast]

theorem mem_text {e : Entry} {c : Char} (h : c ∈ e.text) :
    c.isDigit = true ∨ c = '-' ∨ c = ' ' ∨ c ∈ e.path := by
  simp only [Entry.text, List.mem_append, List.mem_cons] at h
  rcases h with h | rfl | h | rfl | h
  · exact (mem_printInt h).imp id Or.inl
  · exact Or.inr (Or.inr (Or.inl rfl))
  · exact (mem_printInt h).imp id Or.inl
  · exact Or.inr (Or.inr (Or.inl rfl))
  · exact Or.inr (Or.inr (Or.inr h))

theorem cstring_text {e : Entry} (h : e.Storable) :
    cstring (e.text ++ ['\n']) = e.text ++ ['\n'] := by
  refine List.takeWhile_eq_self_iff.mpr (fun c hc => ?_)
  rw [decide_eq_true_eq]
  rintro rfl
  rcases List.mem_append.mp hc with hc | hc
  · rcases mem_text hc with hc | hc | hc | hc
    · cases hc
    · cases hc
    · cases hc
    · exact h.nul hc
  · exact absurd (List.mem_singleton.mp hc) (by decide)

/-- The end of line that is stripped may take characters of the path with it. -/
def Entry.stripped (e : Entry) : Entry := { e with path := e.path.rdropWhile isEol }

theorem stripped_path_ne_nil {e : Entry} (h : e.Storable) : e.path.rdropWhile isEol ≠ [] := by
  intro hnil
  have hslash : '/' ∈ e.path := List.mem_of_mem_head? h.absolute
  have heol := List.rdropWhile_eq_nil_iff.mp hnil '/' hslash
  exact absurd heol (by decide)

/-- A line written for an entry is read back, up to the end of its path. -/
theorem parseLine_text {e : Entry} (h : e.Storable) :
    parseLine (e.text ++ ['\n']) = some e.stripped := by
  have hstrip : (e.path ++ ['\n']).rdropWhile isEol = e.path.rdropWhile isEol :=
    List.rdropWhile_concat_pos isEol e.path '\n' (by decide)
  have hfits : (e.path.rdropWhile isEol).take (pathMax - 1) = e.path.rdropWhile isEol := by
    apply List.take_of_length_le
    exact (List.rdropWhile_prefix isEol e.path).length_le.trans h.fits
  simp only [parseLine, cstring_text h, scanNumbers_text h, pathField_text h, hstrip,
    stripped_path_ne_nil h, ↓reduceIte, hfits]
  rfl

/-! ## Files -/

theorem fgets_line {text : CString} (hline : '\n' ∉ text) (rest : CString) {n : ℕ}
    (hn : text.length < n) : fgets n (text ++ '\n' :: rest) = (text ++ ['\n'],rest) := by
  induction text generalizing n with
  | nil =>
    cases n with
    | zero => exact absurd hn (Nat.not_lt_zero _)
    | succ n => rfl
  | cons c text ih =>
    obtain ⟨hc,htext⟩ := not_or.mp (fun h => hline (List.mem_cons.mpr h))
    cases n with
    | zero => exact absurd hn (Nat.not_lt_zero _)
    | succ n =>
      have hrest := ih htext (Nat.lt_of_succ_lt_succ hn)
      simp only [List.cons_append, fgets, hrest, if_neg (Ne.symm hc)]

theorem length_printInt {i : ℤ} (h : longMin ≤ i ∧ i ≤ longMax) : (printInt i).length ≤ 20 := by
  have hdigits : (Nat.toDigits 10 i.natAbs).length ≤ 19 := by
    unfold longMin longMax at h
    exact (Nat.length_toDigits_le_iff (by decide) (by decide)).mpr (by omega)
  unfold printInt
  split
  · rw [List.length_cons]
    omega
  · omega

/-- The buffer of `load_history` holds a whole line. -/
theorem length_text {e : Entry} (h : e.Storable) : e.text.length < pathMax + 127 := by
  have hlast := length_printInt h.lastAccess
  have hfrequency : (printInt e.frequency).length ≤ 20 := by
    apply length_printInt
    have hrange := h.frequency
    unfold intMax at hrange
    unfold longMin longMax
    omega
  have hfits := h.fits
  simp only [Entry.text, List.length_append, List.length_cons]
  omega

theorem newline_not_mem_text {e : Entry} (h : '\n' ∉ e.path) : '\n' ∉ e.text := by
  intro hmem
  rcases mem_text hmem with hc | hc | hc | hc
  · cases hc
  · cases hc
  · cases hc
  · exact h hc

theorem saveHistory_cons (e : Entry) (db : List Entry) :
    saveHistory (e :: db) = e.text ++ '\n' :: saveHistory db := by
  simp only [saveHistory, List.flatMap_cons, List.append_assoc, List.cons_append, List.nil_append]

/-- When no path holds a newline, every line of the file is one entry. -/
theorem loadLoop_saveHistory {db : List Entry} (hstorable : ∀ e ∈ db, e.Storable)
    (hline : ∀ e ∈ db, '\n' ∉ e.path) {rounds : ℕ} (hrounds : (saveHistory db).length ≤ rounds)
    {loaded : List Entry} (hroom : loaded.length + db.length ≤ maxEntries) :
    loadLoop rounds (saveHistory db) loaded = loaded ++ db.map Entry.stripped := by
  induction db generalizing rounds loaded with
  | nil => cases rounds <;> simp [loadLoop, saveHistory]
  | cons e db ih =>
    obtain ⟨he,hdb⟩ := List.forall_mem_cons.mp hstorable
    obtain ⟨hehead,hlines⟩ := List.forall_mem_cons.mp hline
    rw [List.length_cons] at hroom
    rw [saveHistory_cons, List.length_append, List.length_cons] at hrounds
    cases rounds with
    | zero => omega
    | succ rounds =>
      have hopen : loaded.length < maxEntries ∧ e.text ++ '\n' :: saveHistory db ≠ [] :=
        ⟨by omega,by simp⟩
      have hget := fgets_line (newline_not_mem_text hehead) (saveHistory db) (length_text he)
      rw [saveHistory_cons, loadLoop, if_pos hopen]
      simp only [hget, parseLine_text he, Option.toList_some]
      rw [ih hdb hlines (by omega), List.map_cons, List.append_assoc, List.singleton_append]
      simp only [List.length_append, List.length_singleton]
      omega

/-- Nothing follows a newline. -/
def OneLine (text : CString) : Prop := ∀ a b, text = a ++ '\n' :: b → b = []

theorem OneLine.part {text part : CString} (h : OneLine text) (hpart : part <:+: text) :
    OneLine part := by
  obtain ⟨before,after,rfl⟩ := hpart
  rintro a b rfl
  have hrest : b ++ after = [] := h (before ++ a) (b ++ after) (by simp)
  exact (List.append_eq_nil_iff.mp hrest).1

theorem oneLine_fgets (n : ℕ) (file : CString) : OneLine (fgets n file).1 := by
  induction n generalizing file with
  | zero =>
    intro a b h
    simp [fgets] at h
  | succ n ih =>
    cases file with
    | nil =>
      intro a b h
      simp [fgets] at h
    | cons c file =>
      intro a b h
      unfold fgets at h
      split at h
      · next hc =>
        cases a with
        | nil => simpa using (List.cons.inj h).2.symm
        | cons d a => simp at h
      · next hc =>
        cases a with
        | nil => exact absurd (List.cons.inj h).1 hc
        | cons d a => exact ih file a b (List.cons.inj h).2

theorem pathField_suffix (line : CString) : pathField line <:+ line := by
  unfold pathField
  repeat' first | exact List.suffix_refl _ | apply (List.dropWhile_suffix _).trans

/-- No path that is read holds a newline: one at the end of the line is stripped. -/
theorem newline_not_mem_parseLine {buffer : CString} (h : OneLine buffer) {e : Entry}
    (he : parseLine buffer = some e) : '\n' ∉ e.path := by
  have hfield : pathField (cstring buffer) <:+: buffer :=
    (pathField_suffix _).isInfix.trans (List.takeWhile_prefix _).isInfix
  have hstrip := (h.part hfield).part
    (List.rdropWhile_prefix isEol (pathField (cstring buffer))).isInfix
  have hlast := List.rdropWhile_last_not isEol (pathField (cstring buffer))
  simp only [parseLine] at he
  split at he
  · cases he
  · simp only [Option.ite_none_left_eq_some, Option.some.injEq] at he
    obtain ⟨hne,rfl⟩ := he
    intro hmem
    obtain ⟨a,b,hab⟩ := List.append_of_mem (List.mem_of_mem_take hmem)
    have hend := hstrip a b hab
    subst hend
    apply hlast hne
    simp only [hab, List.getLast_append_singleton]
    decide

theorem newline_not_mem_loadLoop (rounds : ℕ) (file : CString) {loaded : List Entry}
    (h : ∀ e ∈ loaded, '\n' ∉ e.path) : ∀ e ∈ loadLoop rounds file loaded, '\n' ∉ e.path := by
  induction rounds generalizing file loaded with
  | zero => exact h
  | succ rounds ih =>
    unfold loadLoop
    split
    · apply ih
      intro e he
      rcases List.mem_append.mp he with he | he
      · exact h e he
      · exact newline_not_mem_parseLine (oneLine_fgets _ _) (Option.mem_toList.mp he)
    · exact h

theorem newline_not_mem_loadHistory (file : CString) :
    ∀ e ∈ loadHistory file, '\n' ∉ e.path :=
  newline_not_mem_loadLoop _ _ (by simp)

theorem stripped_eq_self_iff {e : Entry} (h : e.Storable) (hline : '\n' ∉ e.path) :
    e.stripped = e ↔ e.path.getLast? ≠ some '\r' := by
  have hpath : e.stripped = e ↔ e.path.rdropWhile isEol = e.path := by
    cases e
    simp [Entry.stripped]
  have hne : e.path ≠ [] := by
    intro hnil
    have habs := h.absolute
    rw [hnil] at habs
    cases habs
  have hnewline : e.path.getLast hne ≠ '\n' := by
    intro heq
    exact hline (heq ▸ List.getLast_mem hne)
  rw [hpath, List.rdropWhile_eq_self_iff, List.getLast?_eq_some_getLast hne]
  simp [isEol, hne, hnewline]

/-- What is saved is what is loaded, unless a path holds a newline or ends in a
carriage return. -/
theorem loadHistory_saveHistory_iff {db : List Entry} (hroom : db.length ≤ maxEntries)
    (hstorable : ∀ e ∈ db, e.Storable) :
    loadHistory (saveHistory db) = db ↔
      ∀ e ∈ db, '\n' ∉ e.path ∧ e.path.getLast? ≠ some '\r' := by
  by_cases hline : ∀ e ∈ db, '\n' ∉ e.path
  · have hload : loadHistory (saveHistory db) = db.map Entry.stripped :=
      loadLoop_saveHistory hstorable hline le_rfl (by simpa using hroom)
    have hmap : db.map Entry.stripped = db ↔ ∀ e ∈ db, e.stripped = e := by
      nth_rewrite 2 [← List.map_id db]
      exact List.map_inj_left
    rw [hload, hmap]
    apply forall₂_congr
    intro e he
    rw [stripped_eq_self_iff (hstorable e he) (hline e he)]
    exact (and_iff_right (hline e he)).symm
  · constructor
    · intro heq
      exact absurd (heq ▸ newline_not_mem_loadHistory (saveHistory db)) hline
    · intro h
      exact absurd (fun e he => (h e he).1) hline

def visits : List Entry :=
  [⟨"/home/user/my docs".toList,3,1700000000⟩,⟨"/".toList,1,-1⟩]

theorem storable_visits : ∀ e ∈ visits, e.Storable := by
  intro e he
  simp only [visits, List.mem_cons, List.not_mem_nil, or_false] at he
  rcases he with rfl | rfl
  · exact ⟨by decide,by decide,by decide,by decide,by decide⟩
  · exact ⟨by decide,by decide,by decide,by decide,by decide⟩

theorem loadHistory_visits : loadHistory (saveHistory visits) = visits :=
  (loadHistory_saveHistory_iff (by decide) storable_visits).mpr (by decide)

def splitVisit : Entry := ⟨"/tmp/a\nb".toList,2,1700000000⟩

/-- The directory `a\nb` comes back as `a`: its line ends inside the name. -/
theorem loadHistory_splitVisit :
    splitVisit.Storable ∧
      loadHistory (saveHistory [splitVisit]) = [{ splitVisit with path := "/tmp/a".toList }] :=
  ⟨⟨by decide,by decide,by decide,by decide,by decide⟩,by decide +kernel⟩

end CShellXv6.History
