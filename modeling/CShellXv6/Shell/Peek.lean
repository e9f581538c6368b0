import CShellXv6.Shell.MainLoop

/-! # `peek`

`process_source` prints the lines of one file or of the standard input. With `-r`
alone a named file is read from its end in chunks; in the other cases the lines are
collected from the beginning. Every `printf` of the source writes one line, so the
output is a list of lines.
-/
namespace CShellXv6.Peek
open Lexer
open MainLoop (cstring)

def chunk : ℕ := 4096

/-- The text of one call of `getline`, its newline included, and the rest. -/
def getline : CString → CString × CString
  | [] => ([],[])
  | c :: file =>
    if c = '\n' then ([c],file)
    else
      let r := getline file
      (c :: r.1,r.2)

/-- The newline at `line[len-1]` is overwritten. -/
def chomp (line : CString) : CString :=
  if line.getLast? = some '\n' then line.dropLast else line

/-- The loop of `read_lines`. Every round takes at least one character, so there are
never more rounds than characters. `strdup` copies up to the first NUL. -/
def readLoop (isTerminal : Bool) : ℕ → CString → List CString
  | 0, _ => []
  | rounds + 1, file =>
    if file = [] then []
    else
      let r := getline file
      let line := cstring (chomp r.1)
      if isTerminal then [line] else line :: readLoop isTerminal rounds r.2

def readLines (isTerminal : Bool) (file : CString) : List CString :=
  readLoop isTerminal file.length file

/-! ## Reading backward -/

/-- The text that was left over, nothing for a null pointer. -/
def leftover (lo : Option CString) : CString := lo.getD []

/-- The loop over one chunk: what lies below `i` is still to be scanned, and `fin`
is where the characters of the current line end. -/
def scanWord (word : CString) :
    ℕ → ℕ → Option CString → List CString → ℕ × Option CString × List CString
  | 0, fin, lo, la => (fin,lo,la)
  | i + 1, fin, lo, la =>
    if word[i]? = some '\n' then
      scanWord word i i none (la ++ [(word.take fin).drop (i + 1) ++ leftover lo])
    else scanWord word i fin lo la

/-- The loop of `read_lines_backward` below the offset `pos`. -/
def backwardLoop (size : ℕ) (file : CString) :
    ℕ → ℕ → Option CString → List CString → Option CString × List CString
  | 0, _, lo, la => (lo,la)
  | rounds + 1, pos, lo, la =>
    if 0 < pos then
      let toread := if size < pos then size else pos
      let word := (file.drop (pos - toread)).take toread
      let s := scanWord word word.length word.length lo la
      let lo := if 0 < s.1 then some (word.take s.1 ++ leftover s.2.1) else s.2.1
      backwardLoop size file rounds (pos - toread) lo s.2.2
    else (lo,la)

def readLinesBackward (size : ℕ) (file : CString) : List CString :=
  let r := backwardLoop size file file.length file.length none []
  r.2 ++ r.1.toList

/-! ## Printing -/

/-- The loops that print while they number, with `++(*running_num)`. -/
def printNumbered : ℕ → List CString → List CString × ℕ
  | num, [] => ([],num)
  | num, line :: rest =>
    if line = [] then
      let r := printNumbered num rest
      ([] :: r.1,r.2)
    else
      let r := printNumbered (num + 1) rest
      ((Nat.toDigits 10 (num + 1) ++ ' ' :: line) :: r.1,r.2)

/-- The array `nums`, with 0 for the empty lines. -/
def lineNumbers : ℕ → List CString → List ℕ × ℕ
  | num, [] => ([],num)
  | num, line :: rest =>
    if line = [] then
      let r := lineNumbers num rest
      (0 :: r.1,r.2)
    else
      let r := lineNumbers (num + 1) rest
      ((num + 1) :: r.1,r.2)

def printWith (num : ℕ) (line : CString) : CString :=
  if line = [] then [] else Nat.toDigits 10 num ++ ' ' :: line

/-- Numbers given from the first line on, and lines printed from the last. -/
def printReversed (num : ℕ) (la : List CString) : List CString × ℕ :=
  let nums := lineNumbers num la
  ((List.zipWith printWith nums.1 la).reverse,nums.2)

/-- The loop that prints the standard input while it reads it. -/
def printStdin (isTerminal nFlag : Bool) : ℕ → CString → ℕ → List CString × ℕ
  | 0, _, num => ([],num)
  | rounds + 1, file, num =>
    if file = [] then ([],num)
    else
      let r := getline file
      let line := cstring (chomp r.1)
      let num := if line = [] then num else if nFlag then num + 1 else num
      let text := if nFlag then printWith num line else line
      if isTerminal then ([text],num)
      else
        let rest := printStdin isTerminal nFlag rounds r.2 num
        (text :: rest.1,rest.2)

inductive Stat
  | missing
  | directory
  | other
  deriving DecidableEq, Repr

/-- What a call finds: the standard input, and the files by name. -/
structure World where
  isTerminal : Bool
  stdin : CString
  stat : CString → Stat
  opens : CString → Bool
  content : CString → CString

structure Report where
  status : ℤ
  printed : List CString
  runningNum : ℕ
  deriving DecidableEq, Repr

def noSuchFile : CString := "peek: no such file or directory".toList

def isDirectory : CString := "peek: is a directory".toList

def processStdin (w : World) (rFlag nFlag : Bool) (num : ℕ) : Report :=
  if rFlag then
    let la := readLines w.isTerminal w.stdin
    if nFlag then
      let r := printReversed num la
      ⟨0,r.1,r.2⟩
    else ⟨0,la.reverse,num⟩
  else
    let r := printStdin w.isTerminal nFlag w.stdin.length w.stdin num
    ⟨0,r.1,r.2⟩

/-- The part of `process_source` after the tests of `stat`. -/
def processFile (opens : Bool) (content : CString) (rFlag nFlag : Bool) (num : ℕ) : Report :=
  if opens then
    if rFlag && !nFlag then ⟨0,(readLinesBackward chunk content).map cstring,num⟩
    else
      let la := readLines false content
      if rFlag then
        let r := printReversed num la
        ⟨0,r.1,r.2⟩
      else if nFlag then
        let r := printNumbered num la
        ⟨0,r.1,r.2⟩
      else ⟨0,la,num⟩
  else ⟨-1,[noSuchFile],num⟩

def processSource (w : World) (filename : Option CString) (rFlag nFlag : Bool) (num : ℕ) :
    Report :=
  match filename with
  | none => processStdin w rFlag nFlag num
  | some name =>
    if name = ['-'] then processStdin w rFlag nFlag num
    else
      match w.stat name with
      | .missing => ⟨-1,[noSuchFile],num⟩
      | .directory => ⟨-1,[isDirectory],num⟩
      | .other => processFile (w.opens name) (w.content name) rFlag nFlag num

/-! ## Lines of a content -/

/-- The segments between the newlines. -/
def segments (content : CString) : List CString := content.splitOn '\n'

@[simp] theorem segments_nil : segments [] = [[]] := rfl

@[simp] theorem segments_newline (content : CString) :
    segments ('\n' :: content) = [] :: segments content := by
  rw [segments, List.splitOn, List.splitOnP_cons_eq_if_modifyHead]
  rfl

theorem segments_cons {c : Char} (h : c ≠ '\n') (content : CString) :
    segments (c :: content) = (segments content).modifyHead (List.cons c) := by
  rw [segments, List.splitOn, List.splitOnP_cons_eq_if_modifyHead, if_neg (by simpa using h)]
  rfl

theorem segments_ne_nil (content : CString) : segments content ≠ [] :=
  List.splitOnP_ne_nil _ _

theorem exists_segments (content : CString) :
    ∃ first others, segments content = first :: others :=
  List.exists_cons_of_ne_nil (segments_ne_nil content)

theorem segments_line {line : CString} (h : '\n' ∉ line) (rest : CString) :
    segments (line ++ '\n' :: rest) = line :: segments rest := by
  induction line with
  | nil => exact segments_newline rest
  | cons c line ih =>
    obtain ⟨hc,hline⟩ := not_or.mp (fun hmem => h (List.mem_cons.mpr hmem))
    rw [List.cons_append, segments_cons (Ne.symm hc), ih hline, List.modifyHead_cons]

theorem segments_singleton {line : CString} (h : '\n' ∉ line) : segments line = [line] := by
  induction line with
  | nil => rfl
  | cons c line ih =>
    obtain ⟨hc,hline⟩ := not_or.mp (fun hmem => h (List.mem_cons.mpr hmem))
    rw [segments_cons (Ne.symm hc), ih hline, List.modifyHead_cons]

/-- The lines of a reader that takes a final newline as the end of the last line. -/
def dropFinal (lines : List CString) : List CString :=
  if lines.getLast? = some [] then lines.dropLast else lines

/-- The lines of a reader that comes from the end and keeps no empty leftover. -/
def dropInitial (lines : List CString) : List CString :=
  if lines.head? = some [] then lines.tail else lines

theorem dropFinal_cons (line : CString) {lines : List CString} (h : lines ≠ []) :
    dropFinal (line :: lines) = line :: dropFinal lines := by
  obtain ⟨first,others,rfl⟩ := List.exists_cons_of_ne_nil h
  unfold dropFinal
  rw [List.getLast?_cons_cons, List.dropLast_cons_cons]
  split <;> rfl

/-! ## Reading forward -/

/-- A call of `getline` stops after a newline or takes the rest of the file. -/
theorem getline_cases (file : CString) :
    (∃ line, '\n' ∉ line ∧ file = line ++ '\n' :: (getline file).2 ∧
        (getline file).1 = line ++ ['\n']) ∨
      ('\n' ∉ file ∧ (getline file).1 = file ∧ (getline file).2 = []) := by
  induction file with
  | nil => exact Or.inr ⟨List.not_mem_nil,rfl,rfl⟩
  | cons c file ih =>
    by_cases hc : c = '\n'
    · subst hc
      exact Or.inl ⟨[],List.not_mem_nil,rfl,rfl⟩
    · have hget : getline (c :: file) = (c :: (getline file).1,(getline file).2) := by
        simp only [getline, if_neg hc]
      rw [hget]
      rcases ih with ⟨line,hline,hfile,hfirst⟩ | ⟨hfile,hfirst,hrest⟩
      · refine Or.inl ⟨c :: line,?_,?_,?_⟩
        · exact List.not_mem_cons_of_ne_of_not_mem (Ne.symm hc) hline
        · exact congrArg (List.cons c) hfile
        · exact congrArg (List.cons c) hfirst
      · refine Or.inr ⟨?_,?_,hrest⟩
        · exact List.not_mem_cons_of_ne_of_not_mem (Ne.symm hc) hfile
        · exact congrArg (List.cons c) hfirst

theorem chomp_newline (line : CString) : chomp (line ++ ['\n']) = line := by
  simp [chomp]

theorem chomp_of_not_mem {line : CString} (h : '\n' ∉ line) : chomp line = line := by
  apply if_neg
  intro hlast
  exact h (List.mem_of_getLast? hlast)

theorem readLoop_eq {rounds : ℕ} {file : CString} (h : file.length ≤ rounds) :
    readLoop false rounds file = (dropFinal (segments file)).map cstring := by
  induction rounds generalizing file with
  | zero =>
    rw [List.length_eq_zero_iff.mp (Nat.le_zero.mp h)]
    rfl
  | succ rounds ih =>
    by_cases hfile : file = []
    · subst hfile
      rfl
    have hloop : readLoop false (rounds + 1) file =
        cstring (chomp (getline file).1) :: readLoop false rounds (getline file).2 := by
      simp [readLoop, hfile]
    rw [hloop]
    rcases getline_cases file with ⟨line,hline,heq,hfirst⟩ | ⟨hline,hfirst,hrest⟩
    · have hlength : (getline file).2.length ≤ rounds := by
        have hsum := congrArg List.length heq
        rw [List.length_append, List.length_cons] at hsum
        omega
      have hsegments : segments file = line :: segments (getline file).2 :=
        (congrArg segments heq).trans (segments_line hline _)
      rw [hfirst, chomp_newline, ih hlength, hsegments, dropFinal_cons _ (segments_ne_nil _),
        List.map_cons]
    · have hend : dropFinal [file] = [file] := if_neg (by simpa using hfile)
      rw [hfirst, hrest, chomp_of_not_mem hline, ih (Nat.zero_le _), segments_singleton hline, hend]
      rfl

theorem readLines_eq (file : CString) :
    readLines false file = (dropFinal (segments file)).map cstring :=
  readLoop_eq le_rfl

/-! ## Chunks -/

/-- When a chunk is scanned down to `i`, the lines found so far and the line that is
open make up the segments of what follows `i`. -/
theorem scanWord_segments {word later : CString} {i fin : ℕ} {lo : Option CString}
    {la : List CString} (hi : i ≤ fin) (hfin : fin ≤ word.length)
    (h : segments (word.drop i ++ later) = ((word.take fin).drop i ++ leftover lo) :: la.reverse) :
    segments (word ++ later) =
      (word.take (scanWord word i fin lo la).1 ++ leftover (scanWord word i fin lo la).2.1) ::
        (scanWord word i fin lo la).2.2.reverse := by
  induction i generalizing fin lo la with
  | zero => simpa [scanWord] using h
  | succ i ih =>
    have hlt : i < word.length := by omega
    have hdrop : word.drop i = word[i] :: word.drop (i + 1) := List.drop_eq_getElem_cons hlt
    have hopen : (word.take fin).drop i = word[i] :: (word.take fin).drop (i + 1) := by
      rw [List.drop_eq_getElem_cons (by rw [List.length_take]; omega), List.getElem_take]
    unfold scanWord
    split
    · next hnewline =>
      have hchar : word[i] = '\n' := by simpa [hlt] using hnewline
      apply ih le_rfl (by omega)
      rw [hdrop, hchar, List.cons_append, segments_newline, h]
      simp [leftover]
    · next hother =>
      have hchar : word[i] ≠ '\n' := by simpa [hlt] using hother
      apply ih (by omega) hfin
      rw [hdrop, List.cons_append, segments_cons hchar, h, hopen, List.modifyHead_cons,
        List.cons_append]

theorem scanWord_leftover (word : CString) (i fin : ℕ) {lo : Option CString} (h : lo ≠ some [])
    (la : List CString) : (scanWord word i fin lo la).2.1 ≠ some [] := by
  induction i generalizing fin lo la with
  | zero => exact h
  | succ i ih =>
    unfold scanWord
    split
    · exact ih i (by simp) _
    · exact ih fin h la

/-- A round that ends at the offset `pos` has found the segments after it, all but
the first of them in `la`. -/
theorem backwardLoop_segments {size : ℕ} (hsize : 0 < size) (file : CString) {rounds pos : ℕ}
    (hrounds : pos ≤ rounds) (hpos : pos ≤ file.length) {lo : Option CString}
    {la : List CString} (hlo : lo ≠ some [])
    (h : segments (file.drop pos) = leftover lo :: la.reverse) :
    segments file = leftover (backwardLoop size file rounds pos lo la).1 ::
        (backwardLoop size file rounds pos lo la).2.reverse ∧
      (backwardLoop size file rounds pos lo la).1 ≠ some [] := by
  induction rounds generalizing pos lo la with
  | zero =>
    obtain rfl : pos = 0 := Nat.le_zero.mp hrounds
    exact ⟨h,hlo⟩
  | succ rounds ih =>
    unfold backwardLoop
    dsimp only
    split
    · next hlt =>
      generalize htoread : (if size < pos then size else pos) = toread
      have hbound : 0 < toread ∧ toread ≤ pos := by
        split at htoread <;> omega
      generalize hword : (file.drop (pos - toread)).take toread = word
      have hlength : word.length = toread := by
        rw [← hword, List.length_take, List.length_drop]
        omega
      have hsplit : file.drop (pos - toread) = word ++ file.drop pos := by
        have hrest : (file.drop (pos - toread)).drop toread = file.drop pos := by
          rw [List.drop_drop]
          congr 1
          omega
        rw [← hword, ← hrest, List.take_append_drop]
      have hstart : segments (word.drop word.length ++ file.drop pos) =
          ((word.take word.length).drop word.length ++ leftover lo) :: la.reverse := by
        simpa using h
      have hscan := scanWord_segments le_rfl le_rfl hstart
      have hnext := scanWord_leftover word word.length word.length hlo la
      rw [← hsplit] at hscan
      apply ih (by omega) (by omega)
      · split
        · next hend =>
          have hne : word.take (scanWord word word.length word.length lo la).1 ≠ [] := by
            apply List.ne_nil_of_length_pos
            rw [List.length_take]
            omega
          simp [hne]
        · exact hnext
      · split
        · exact hscan
        · next hend =>
          rw [Nat.eq_zero_of_not_pos hend] at hscan
          exact hscan
    · next hge =>
      obtain rfl : pos = 0 := by omega
      exact ⟨h,hlo⟩

/-- Whatever the size of the chunks, the segments come out from the last to the
first, without an empty first one. -/
theorem readLinesBackward_eq {size : ℕ} (hsize : 0 < size) (file : CString) :
    readLinesBackward size file = (dropInitial (segments file)).reverse := by
  have hstart : segments (file.drop file.length) = leftover none :: ([] : List CString).reverse := by
    rw [List.drop_length]
    rfl
  obtain ⟨hsegments,hlo⟩ := backwardLoop_segments hsize file le_rfl le_rfl (by simp) hstart
  unfold readLinesBackward dropInitial
  cases hlast : (backwardLoop size file file.length file.length none []).1 with
  | none =>
    rw [hlast] at hsegments
    simp [hsegments, leftover, hlast]
  | some text =>
    have hne : text ≠ [] := by
      rintro rfl
      exact hlo hlast
    rw [hlast] at hsegments
    simp [hsegments, leftover, hlast, hne]

/-- The size of the chunks can not be seen in the lines. -/
theorem backward_chunk_free {size : ℕ} (hsize : 0 < size) (content : CString) :
    readLinesBackward size content = (dropInitial (segments content)).reverse ∧
      ∀ size', 0 < size' → readLinesBackward size' content = readLinesBackward size content := by
  constructor
  · exact readLinesBackward_eq hsize content
  · intro size' hsize'
    rw [readLinesBackward_eq hsize, readLinesBackward_eq hsize']

theorem backward_chunk_free_three :
    readLinesBackward 3 "\nab\n\ncd\n".toList = [[],"cd".toList,[],"ab".toList] ∧
      readLinesBackward 1 "\nab\n\ncd\n".toList = readLinesBackward 3 "\nab\n\ncd\n".toList :=
  ⟨by decide +kernel,(backward_chunk_free (by decide) _).2 1 (by decide)⟩

/-! ## Both directions -/

theorem eq_of_eq_dropLast {α : Type*} {a : α} {l : List α} (h : l = (a :: l).dropLast) :
    ∀ b ∈ l, b = a := by
  induction l generalizing a with
  | nil => simp
  | cons c l ih =>
    rw [List.dropLast_cons_cons] at h
    obtain ⟨rfl,hrest⟩ := List.cons.inj h
    exact List.forall_mem_cons.mpr ⟨rfl,ih hrest⟩

theorem head?_segments (content : CString) :
    (segments content).head? = some [] ↔ content = [] ∨ content.head? = some '\n' := by
  cases content with
  | nil => simp
  | cons c content =>
    by_cases hc : c = '\n'
    · subst hc
      simp
    · obtain ⟨first,others,hsegments⟩ := exists_segments content
      rw [segments_cons hc, hsegments]
      simp [hc]

theorem getLast?_segments (content : CString) :
    (segments content).getLast? = some [] ↔ content = [] ∨ content.getLast? = some '\n' := by
  -- one line at a time, as `getline` takes them
  induction hn : content.length using Nat.strongRecOn generalizing content with
  | ind n ih =>
    rcases getline_cases content with ⟨line,hline,heq,-⟩ | ⟨hline,-,-⟩
    · generalize (getline content).2 = rest at heq
      subst heq
      obtain ⟨first,others,hsegments⟩ := exists_segments rest
      have hshorter : rest.length < n := by
        rw [← hn, List.length_append, List.length_cons]
        omega
      rw [segments_line hline, hsegments, List.getLast?_cons_cons, ← hsegments,
        ih _ hshorter rest rfl]
      cases rest <;> simp
    · have hlast : content.getLast? ≠ some '\n' := by
        intro h
        exact hline (List.mem_of_getLast? h)
      rw [segments_singleton hline]
      simp [hlast]

theorem map_tail_eq_map_dropLast_iff {lines : List CString} (h : lines.head? = some []) :
    lines.tail.map cstring = lines.dropLast.map cstring ↔ ∀ line ∈ lines, cstring line = [] := by
  obtain ⟨others,rfl⟩ := List.head?_eq_some_iff.mp h
  rw [List.tail_cons, List.map_dropLast, List.map_cons]
  constructor
  · intro heq
    have hall := eq_of_eq_dropLast heq
    exact List.forall_mem_cons.mpr ⟨rfl,fun line hline => hall _ (List.mem_map_of_mem hline)⟩
  · intro hall
    have hmap : others.map cstring = List.replicate others.length [] :=
      List.map_eq_replicate_iff.mpr (List.forall_mem_cons.mp hall).2
    have hnil : cstring [] = [] := rfl
    rw [hmap, hnil, ← List.replicate_succ, List.dropLast_replicate, Nat.add_sub_cancel]

/-- Dropping an empty first line and dropping an empty last one leave the same text
only when both or none is there, and no line shows otherwise. -/
theorem map_dropInitial_eq_iff {lines : List CString} (h : lines ≠ []) :
    (dropInitial lines).map cstring = (dropFinal lines).map cstring ↔
      (lines.head? = some [] ↔ lines.getLast? = some []) ∧
        (lines.head? = some [] → ∀ line ∈ lines, cstring line = []) := by
  have hlength : 0 < lines.length := List.length_pos_of_ne_nil h
  unfold dropInitial dropFinal
  by_cases hhead : lines.head? = some [] <;> by_cases hlast : lines.getLast? = some []
  · simp only [hhead, hlast, ↓reduceIte, true_and, forall_const]
    exact map_tail_eq_map_dropLast_iff hhead
  · simp only [hhead, hlast, ↓reduceIte, iff_false, false_and, not_true]
    intro heq
    have hlengths := congrArg List.length heq
    simp only [List.length_map, List.length_tail] at hlengths
    omega
  · simp only [hhead, hlast, ↓reduceIte, iff_true, false_and, iff_false]
    intro heq
    have hlengths := congrArg List.length heq
    simp only [List.length_map, List.length_dropLast] at hlengths
    omega
  · simp only [hhead, hlast, ↓reduceIte, false_implies, and_self]

/-- The first character is a newline exactly when the last one is, and then every
line prints as an empty one. -/
def Symmetric (content : CString) : Prop :=
  (content.head? = some '\n' ↔ content.getLast? = some '\n') ∧
    (content.head? = some '\n' → ∀ line ∈ segments content, cstring line = [])

theorem backward_eq_reverse_forward_iff (content : CString) :
    (readLinesBackward chunk content).map cstring = (readLines false content).reverse ↔
      Symmetric content := by
  rw [readLinesBackward_eq (by decide), readLines_eq, List.map_reverse, List.reverse_inj,
    map_dropInitial_eq_iff (segments_ne_nil content), head?_segments, getLast?_segments]
  cases content with
  | nil => simp [Symmetric, cstring]
  | cons c content => simp [Symmetric]

/-- Printing a file from its end gives the lines of the file in reverse order, and
what the same bytes give through a pipe, exactly for the symmetric contents. -/
theorem peek_reversed_iff (w : World) (name : CString) (num : ℕ) (hname : name ≠ ['-'])
    (hstat : w.stat name = .other) (hopens : w.opens name = true)
    (hpipe : w.isTerminal = false) (hbytes : w.stdin = w.content name) :
    ((processSource w (some name) true false num).printed =
        (processSource w (some name) false false num).printed.reverse ∧
      (processSource w (some name) true false num).printed =
        (processSource w none true false num).printed) ↔ Symmetric (w.content name) := by
  have hbackward : (processSource w (some name) true false num).printed =
      (readLinesBackward chunk (w.content name)).map cstring := by
    simp [processSource, hname, hstat, processFile, hopens]
  have hforward : (processSource w (some name) false false num).printed =
      readLines false (w.content name) := by
    simp [processSource, hname, hstat, processFile, hopens]
  have hstdin : (processSource w none true false num).printed =
      (readLines false (w.content name)).reverse := by
    simp [processSource, processStdin, hpipe, hbytes]
  rw [hbackward, hforward, hstdin, and_self]
  exact backward_eq_reverse_forward_iff _

/-- One regular file, whose bytes also come through a pipe. -/
def piped (content : CString) : World where
  isTerminal := false
  stdin := content
  stat _ := .other
  opens _ := true
  content _ := content

def notes : CString := "notes".toList

theorem peek_reversed_unterminated :
    (processSource (piped "a\nb".toList) (some notes) true false 0).printed =
        ["b".toList,"a".toList] ∧
      ((processSource (piped "a\nb".toList) (some notes) true false 0).printed =
          (processSource (piped "a\nb".toList) (some notes) false false 0).printed.reverse ∧
        (processSource (piped "a\nb".toList) (some notes) true false 0).printed =
          (processSource (piped "a\nb".toList) none true false 0).printed) := by
  refine ⟨by decide +kernel,?_⟩
  apply (peek_reversed_iff (piped "a\nb".toList) notes 0 (by decide) rfl rfl rfl rfl).mpr
  constructor
  · decide
  · intro h
    cases h

/-- An ordinary text file ends in a newline, which `-r` prints as an empty line. -/
theorem peek_reversed_terminated :
    (processSource (piped "a\nb\n".toList) (some notes) false false 0).printed =
        ["a".toList,"b".toList] ∧
      (processSource (piped "a\nb\n".toList) (some notes) true false 0).printed =
        [[],"b".toList,"a".toList] ∧
      (processSource (piped "a\nb\n".toList) none true false 0).printed =
        ["b".toList,"a".toList] :=
  ⟨by decide +kernel,by decide +kernel,by decide +kernel⟩

end CShellXv6.Peek
