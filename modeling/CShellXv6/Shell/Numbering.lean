import CShellXv6.Shell.Peek

/-! # Line numbers of `peek -n`

`peek` processes its sources one after the other with one counter for the lines. The
numbers are given in four places: while a file is printed, while the standard input is
read, and by an array for each of the two with `-r`.
-/
namespace CShellXv6.Peek
open Lexer
open MainLoop (cstring)

/-- The test that selects the standard input. -/
def usesStdin : Option CString → Bool
  | none => true
  | some name => name = ['-']

/-- What a source leaves behind: the standard input is read to its end, from a terminal
only one line of it. -/
def World.after (w : World) (filename : Option CString) : World :=
  if usesStdin filename then
    { w with stdin := if w.isTerminal then (getline w.stdin).2 else [] }
  else w

/-- The loop of `peek` over its sources. -/
def processSources (rFlag nFlag : Bool) : World → ℕ → List (Option CString) → List Report
  | _, _, [] => []
  | w, num, filename :: rest =>
    let r := processSource w filename rFlag nFlag num
    r :: processSources rFlag nFlag (w.after filename) r.runningNum rest

/-! ## Numbers by position -/

def nonEmpty (lines : List CString) : ℕ := lines.countP (fun line => line ≠ [])

/-- Each line with the number of non-empty lines up to it. -/
def numbered (num : ℕ) (lines : List CString) : List CString :=
  lines.mapIdx fun i line => printWith (num + nonEmpty (lines.take (i + 1))) line

theorem nonEmpty_cons (line : CString) (lines : List CString) :
    nonEmpty (line :: lines) = nonEmpty [line] + nonEmpty lines := by
  simp only [nonEmpty, List.countP_cons, List.countP_nil]
  omega

@[simp] theorem nonEmpty_empty : nonEmpty [[]] = 0 := rfl

theorem nonEmpty_single {line : CString} (h : line ≠ []) : nonEmpty [line] = 1 := by
  simp [nonEmpty, h]

theorem numbered_cons (num : ℕ) (line : CString) (lines : List CString) :
    numbered num (line :: lines) =
      printWith (num + nonEmpty [line]) line :: numbered (num + nonEmpty [line]) lines := by
  unfold numbered
  rw [List.mapIdx_cons]
  congr 2
  funext i later
  rw [List.take_succ_cons, nonEmpty_cons, Nat.add_assoc]

/-! ## The loops -/

theorem printNumbered_eq (num : ℕ) (lines : List CString) :
    printNumbered num lines = (numbered num lines,num + nonEmpty lines) := by
  induction lines generalizing num with
  | nil => rfl
  | cons line lines ih =>
    rw [numbered_cons, nonEmpty_cons line lines, ← Nat.add_assoc]
    by_cases hline : line = []
    · simp [printNumbered, hline, ih, printWith]
    · simp [printNumbered, hline, ih, printWith, nonEmpty_single hline]

theorem lineNumbers_eq (num : ℕ) (lines : List CString) :
    List.zipWith printWith (lineNumbers num lines).1 lines = numbered num lines ∧
      (lineNumbers num lines).2 = num + nonEmpty lines := by
  induction lines generalizing num with
  | nil => exact ⟨rfl,rfl⟩
  | cons line lines ih =>
    rw [numbered_cons, nonEmpty_cons line lines, ← Nat.add_assoc]
    by_cases hline : line = []
    · simp [lineNumbers, hline, ih, printWith]
    · simp [lineNumbers, hline, ih, nonEmpty_single hline]

theorem printReversed_eq (num : ℕ) (lines : List CString) :
    printReversed num lines = ((numbered num lines).reverse,num + nonEmpty lines) := by
  obtain ⟨hprinted,hnum⟩ := lineNumbers_eq num lines
  rw [printReversed, hprinted, hnum]

/-- Printing while reading gives what printing the lines that were read gives. -/
theorem printStdin_eq (rounds : ℕ) (file : CString) (num : ℕ) :
    printStdin false true rounds file num = printNumbered num (readLoop false rounds file) := by
  induction rounds generalizing file num with
  | zero => rfl
  | succ rounds ih =>
    unfold printStdin readLoop
    by_cases hfile : file = []
    · simp [hfile, printNumbered]
    · generalize hline : cstring (chomp (getline file).1) = line
      by_cases hempty : line = []
      · simp [hfile, hline, hempty, ih, printNumbered, printWith]
      · simp [hfile, hline, hempty, ih, printNumbered, printWith]

/-! ## Sources -/

/-- The bytes of a source. -/
def World.text (w : World) (filename : Option CString) : CString :=
  match filename with
  | none => w.stdin
  | some name => if name = ['-'] then w.stdin else w.content name

/-- The lines of a source. -/
def World.lines (w : World) (filename : Option CString) : List CString :=
  (dropFinal (segments (w.text filename))).map cstring

/-- The standard input when it is no terminal, or a file that can be read. -/
def World.Readable (w : World) : Option CString → Prop
  | none => w.isTerminal = false
  | some name =>
    if name = ['-'] then w.isTerminal = false else w.stat name = .other ∧ w.opens name = true

theorem World.Readable.after {w : World} {filename : Option CString} (h : w.Readable filename)
    (other : Option CString) : (w.after other).Readable filename := by
  unfold World.after
  split
  · exact h
  · exact h

theorem World.readable_some {w : World} {name : CString} :
    w.Readable (some name) ↔
      if name = ['-'] then w.isTerminal = false
      else w.stat name = .other ∧ w.opens name = true := Iff.rfl

/-- The lines as they are printed with and without `-r`. -/
def inOrder (rFlag : Bool) (lines : List CString) : List CString :=
  if rFlag then lines.reverse else lines

theorem processStdin_numbered {w : World} (h : w.isTerminal = false) (rFlag : Bool) (num : ℕ) :
    processStdin w rFlag true num =
      ⟨0,inOrder rFlag (numbered num (readLines false w.stdin)),
        num + nonEmpty (readLines false w.stdin)⟩ := by
  unfold processStdin inOrder
  dsimp only
  rw [h, printReversed_eq, printStdin_eq, printNumbered_eq]
  cases rFlag with
  | true => rfl
  | false => rfl

theorem processFile_numbered (content : CString) (rFlag : Bool) (num : ℕ) :
    processFile true content rFlag true num =
      ⟨0,inOrder rFlag (numbered num (readLines false content)),
        num + nonEmpty (readLines false content)⟩ := by
  unfold processFile inOrder
  dsimp only
  rw [printReversed_eq, printNumbered_eq]
  cases rFlag with
  | true => rfl
  | false => rfl

theorem processSource_numbered {w : World} {filename : Option CString} (h : w.Readable filename)
    (rFlag : Bool) (num : ℕ) :
    processSource w filename rFlag true num =
      ⟨0,inOrder rFlag (numbered num (w.lines filename)),num + nonEmpty (w.lines filename)⟩ := by
  unfold World.lines
  rw [← readLines_eq]
  cases filename with
  | none => exact processStdin_numbered h rFlag num
  | some name =>
    rw [World.readable_some] at h
    by_cases hname : name = ['-']
    · rw [if_pos hname] at h
      simp only [processSource, World.text, if_pos hname]
      exact processStdin_numbered h rFlag num
    · rw [if_neg hname] at h
      simp only [processSource, World.text, if_neg hname, h.1, h.2]
      exact processFile_numbered _ rFlag num

/-! ## The run over all sources -/

/-- The lines of each source in turn; the standard input has lines only once. -/
def World.contents : World → List (Option CString) → List (List CString)
  | _, [] => []
  | w, filename :: rest => w.lines filename :: (w.after filename).contents rest

/-- Reports that number the lines of the sources with one counter. -/
def reports : ℕ → List (List CString) → List Report
  | _, [] => []
  | num, lines :: rest =>
    ⟨0,numbered num lines,num + nonEmpty lines⟩ :: reports (num + nonEmpty lines) rest

def Report.reversed (r : Report) : Report := { r with printed := r.printed.reverse }

theorem processSources_reports {w : World} {sources : List (Option CString)}
    (h : ∀ filename ∈ sources, w.Readable filename) (rFlag : Bool) (num : ℕ) :
    processSources rFlag true w num sources = (reports num (w.contents sources)).map
      fun r => { r with printed := inOrder rFlag r.printed } := by
  induction sources generalizing w num with
  | nil => rfl
  | cons filename rest ih =>
    obtain ⟨hfirst,hrest⟩ := List.forall_mem_cons.mp h
    have hlater := ih (fun other hother => (hrest other hother).after filename)
    rw [processSources, processSource_numbered hfirst, World.contents, reports, hlater,
      List.map_cons]

end CShellXv6.Peek
