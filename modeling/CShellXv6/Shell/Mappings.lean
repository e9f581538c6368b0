import CShellXv6.Library.FirstSeen
import CShellXv6.Shell.History
import CShellXv6.Shell.Peek

/-! # The mapped files that `spy` lists

`spy_cmd` reads `/proc/pid/maps` line by line and prints the path of a line unless it finds
it among the paths printed before. Of those it keeps copies in buffers of 512 characters,
which are shorter than the longest path a line can have.
-/
namespace CShellXv6.Spy
open Lexer
open MainLoop (cstring)
open History (fgets fgets_line)
open Peek (segments chomp getline_cases chomp_of_not_mem chomp_newline)

/-- `MAX_MEM_FILES`. -/
def maxMemFiles : ℕ := 512

/-- The size of the buffer for a line. -/
def lineSize : ℕ := 1024

/-- The size of `path` in `mem_file_t`. -/
def pathSize : ℕ := 512

/-- What a `mem` row shows besides the process. -/
structure Row where
  type : CString
  path : CString
  deriving DecidableEq, Repr

/-- The copy that `strncpy` puts into `seen`. -/
def stored (path : CString) : CString := path.take (pathSize - 1)

section
variable (fileType : CString → CString)

/-- The rest of the loop for a path: the array `seen` and the rows printed. -/
def notePath (st : List CString × List Row) (path : CString) : List CString × List Row :=
  if path ∈ st.1 ∨ maxMemFiles ≤ st.1.length then st
  else (st.1 ++ [stored path],st.2 ++ [⟨fileType path,path⟩])

/-- The body of the loop; `strchr` finds the first slash. -/
def noteLine (st : List CString × List Row) (line : CString) : List CString × List Row :=
  let slash := line.dropWhile (fun c => c ≠ '/')
  if slash = [] then st else notePath fileType st (chomp slash)

/-- The loop over the file. Every round takes at least one character. -/
def mapsLoop : ℕ → CString → List CString × List Row → List CString × List Row
  | 0, _, st => st
  | rounds + 1, file, st =>
    if file = [] then st
    else
      let r := fgets (lineSize - 1) file
      mapsLoop rounds r.2 (noteLine fileType st (cstring r.1))

def memRows (content : CString) : List Row :=
  (mapsLoop fileType content.length content ([],[])).2

end

/-! ## The paths of a content -/

/-- The path of a line, from its first slash on. -/
def pathOf (line : CString) : CString := (cstring line).dropWhile (fun c => c ≠ '/')

def mapPaths (content : CString) : List CString :=
  ((segments content).map pathOf).filter (fun path => path ≠ [])

theorem newline_not_mem_pathOf {line : CString} (h : '\n' ∉ line) : '\n' ∉ pathOf line := by
  intro hmem
  exact h ((List.takeWhile_prefix _).subset ((List.dropWhile_suffix _).subset hmem))

/-- A newline behind the line is cut off, or a NUL hides it. -/
theorem cstring_newline (line : CString) :
    cstring (line ++ ['\n']) = cstring line ++ ['\n'] ∨ cstring (line ++ ['\n']) = cstring line := by
  unfold cstring
  rw [List.takeWhile_append]
  split
  · next hall =>
    rw [(List.takeWhile_prefix _).eq_of_length hall]
    exact Or.inl rfl
  · exact Or.inr rfl

section
variable {fileType : CString → CString} (st : List CString × List Row)

/-- What a line does, by its path. -/
def noteMapping (fileType : CString → CString) (st : List CString × List Row) (path : CString) :
    List CString × List Row :=
  if path = [] then st else notePath fileType st path

theorem noteLine_last {line : CString} (h : '\n' ∉ line) :
    noteLine fileType st (cstring line) = noteMapping fileType st (pathOf line) := by
  have hchomp : chomp (pathOf line) = pathOf line := chomp_of_not_mem (newline_not_mem_pathOf h)
  have hline : noteLine fileType st (cstring line) =
      if pathOf line = [] then st else notePath fileType st (chomp (pathOf line)) := rfl
  rw [hline, hchomp]
  rfl

theorem noteLine_newline {line : CString} (h : '\n' ∉ line) :
    noteLine fileType st (cstring (line ++ ['\n'])) = noteMapping fileType st (pathOf line) := by
  rcases cstring_newline line with hline | hline
  · have hslash : (cstring (line ++ ['\n'])).dropWhile (fun c => c ≠ '/') =
        if (pathOf line).isEmpty then [] else pathOf line ++ ['\n'] := by
      rw [hline, List.dropWhile_append]
      rfl
    unfold noteLine noteMapping
    rw [hslash]
    by_cases hpath : pathOf line = []
    · simp [hpath]
    · have hnonempty : (pathOf line).isEmpty = false := by simpa using hpath
      simp [hpath, hnonempty, chomp_newline]
  · rw [hline]
    exact noteLine_last st h

end

/-! ## The loop -/

theorem fgets_last {text : CString} (h : '\n' ∉ text) {n : ℕ} (hn : text.length ≤ n) :
    fgets n text = (text,[]) := by
  induction text generalizing n with
  | nil =>
    cases n with
    | zero => rfl
    | succ n => rfl
  | cons c text ih =>
    obtain ⟨hc,htext⟩ := not_or.mp (fun hmem => h (List.mem_cons.mpr hmem))
    cases n with
    | zero => exact absurd hn (Nat.not_succ_le_zero _)
    | succ n =>
      have hrest := ih htext (Nat.le_of_succ_le_succ hn)
      simp only [fgets, hrest, if_neg (Ne.symm hc)]

/-- With lines that fit into the buffer every round takes one line. -/
theorem mapsLoop_eq (fileType : CString → CString) {rounds : ℕ} {file : CString}
    (hrounds : file.length ≤ rounds) (hlines : ∀ line ∈ segments file, line.length ≤ lineSize - 2)
    (st : List CString × List Row) :
    mapsLoop fileType rounds file st =
      ((segments file).map pathOf).foldl (noteMapping fileType) st := by
  induction rounds generalizing file st with
  | zero =>
    rw [List.length_eq_zero_iff.mp (Nat.le_zero.mp hrounds)]
    rfl
  | succ rounds ih =>
    by_cases hfile : file = []
    · subst hfile
      rfl
    have hloop : mapsLoop fileType (rounds + 1) file st =
        mapsLoop fileType rounds (fgets (lineSize - 1) file).2
          (noteLine fileType st (cstring (fgets (lineSize - 1) file).1)) := by
      simp [mapsLoop, hfile]
    rw [hloop]
    rcases getline_cases file with ⟨line,hline,heq,-⟩ | ⟨hline,-,-⟩
    · generalize (Peek.getline file).2 = rest at heq
      subst heq
      rw [Peek.segments_line hline] at hlines ⊢
      obtain ⟨hfirst,hrest⟩ := List.forall_mem_cons.mp hlines
      have hfits : line.length < lineSize - 1 := by
        unfold lineSize at hfirst ⊢
        omega
      have hshorter : rest.length ≤ rounds := by
        rw [List.length_append, List.length_cons] at hrounds
        omega
      rw [fgets_line hline rest hfits, noteLine_newline st hline, ih hshorter hrest]
      rfl
    · rw [Peek.segments_singleton hline] at hlines ⊢
      have hfits : file.length ≤ lineSize - 1 := by
        have hlength := hlines file (List.mem_singleton_self file)
        unfold lineSize at hlength ⊢
        omega
      rw [fgets_last hline hfits, noteLine_last st hline, ih (Nat.zero_le _) (by simp)]
      rfl

/-- What the loop holds when it has listed some paths. -/
def held (fileType : CString → CString) (listed : List CString) : List CString × List Row :=
  (listed.map stored,listed.map fun path => ⟨fileType path,path⟩)

theorem notePath_held (fileType : CString → CString) (listed : List CString) (path : CString) :
    notePath fileType (held fileType listed) path =
      held fileType (FirstSeen.record stored maxMemFiles listed path) := by
  unfold notePath FirstSeen.record held
  rw [List.length_map]
  split
  · rfl
  · rw [List.map_append, List.map_append]
    rfl

theorem foldl_noteMapping (fileType : CString → CString) (paths listed : List CString) :
    paths.foldl (noteMapping fileType) (held fileType listed) =
      held fileType ((paths.filter (fun path => path ≠ [])).foldl
        (FirstSeen.record stored maxMemFiles) listed) := by
  induction paths generalizing listed with
  | nil => rfl
  | cons path paths ih =>
    rw [List.foldl_cons, noteMapping]
    by_cases hpath : path = []
    · rw [if_pos hpath, ih, List.filter_cons_of_neg (by simpa using hpath)]
    · rw [if_neg hpath, notePath_held, ih, List.filter_cons_of_pos (by simpa using hpath)]
      rfl

/-- The printed paths are those that the copies do not show to be printed already. -/
theorem memRows_path (fileType : CString → CString) {content : CString}
    (hlines : ∀ line ∈ segments content, line.length ≤ lineSize - 2) :
    (memRows fileType content).map Row.path =
      FirstSeen.listing stored maxMemFiles (mapPaths content) := by
  have hstart : (([],[]) : List CString × List Row) = held fileType [] := rfl
  rw [memRows, mapsLoop_eq fileType le_rfl hlines, hstart, foldl_noteMapping]
  simp only [held, List.map_map]
  exact List.map_id _

/-! ## Long paths -/

/-- No path that is longer than its copy comes again while there is room for more, and no
path that it is cut down to comes later for the first time. -/
def Distinguished (paths : List CString) : Prop :=
  ∀ before path after, paths = before ++ path :: after → ∀ q ∈ before, pathSize ≤ q.length →
    (q = path → maxMemFiles ≤ before.eraseDups.length) ∧ (stored q = path → path ∈ before)

theorem stored_of_lt {path : CString} (h : path.length < pathSize) : stored path = path :=
  List.take_of_length_le (Nat.le_sub_one_of_lt h)

theorem length_stored_lt (path : CString) : (stored path).length < pathSize := by
  have hle : (stored path).length ≤ pathSize - 1 := List.length_take_le _ _
  unfold pathSize at hle ⊢
  omega

theorem told_iff {before : List CString} {path : CString} :
    FirstSeen.Told stored maxMemFiles before path ↔ ∀ q ∈ before, pathSize ≤ q.length →
      (q = path → maxMemFiles ≤ before.eraseDups.length) ∧ (stored q = path → path ∈ before) := by
  constructor
  · rintro ⟨hagain,hfresh⟩ q hq hlong
    constructor
    · rintro rfl
      rcases hagain hq with hcopied | hfull
      · obtain ⟨other,-,hother⟩ := List.mem_map.mp hcopied
        have hshort := length_stored_lt other
        rw [hother] at hshort
        omega
      · exact hfull
    · rintro rfl
      exact hfresh (List.mem_map_of_mem hq)
  · intro h
    constructor
    · intro hpath
      by_cases hlong : pathSize ≤ path.length
      · exact Or.inr ((h path hpath hlong).1 rfl)
      · exact Or.inl (List.mem_map.mpr ⟨path,hpath,stored_of_lt (by omega)⟩)
    · intro hcopied
      obtain ⟨q,hq,hstored⟩ := List.mem_map.mp hcopied
      by_cases hlong : pathSize ≤ q.length
      · exact (h q hq hlong).2 hstored
      · rw [← hstored, stored_of_lt (by omega)]
        exact hq

/-- The rows show each path once, in the order of first appearance, exactly when the paths
are told apart by their copies. -/
theorem memRows_once_iff (fileType : CString → CString) {content : CString}
    (hlines : ∀ line ∈ segments content, line.length ≤ lineSize - 2)
    (hpaths : (mapPaths content).eraseDups.length ≤ maxMemFiles) :
    (memRows fileType content).map Row.path = (mapPaths content).eraseDups ↔
      Distinguished (mapPaths content) := by
  rw [memRows_path fileType hlines, FirstSeen.listing_eq_iff hpaths]
  simp only [told_iff]
  rfl

theorem Distinguished.of_short {paths : List CString} (h : ∀ q ∈ paths, q.length < pathSize) :
    Distinguished paths := by
  rintro before path after rfl q hq hlong
  have hshort := h q (List.mem_append_left _ hq)
  omega

def library : CString := "7f00-7f01 r-xp 00000000 08:01 42 /lib/libc.so\n".toList

theorem memRows_once_library :
    (memRows (fun _ => "REG".toList) (library ++ library)).map Row.path =
      ["/lib/libc.so".toList] := by
  have hmaps : mapPaths (library ++ library) = ["/lib/libc.so".toList,"/lib/libc.so".toList] := by
    decide +kernel
  rw [(memRows_once_iff _ (by decide +kernel) (by decide +kernel)).mpr]
  · decide +kernel
  · rw [hmaps]
    apply Distinguished.of_short
    simp [pathSize]

/-- A path that is one character too long for its copy. -/
def longPath : CString := '/' :: List.replicate 511 'a'

/-- The copy does not show that the path was printed. -/
theorem memRows_long_twice :
    mapPaths (longPath ++ '\n' :: longPath) = [longPath,longPath] ∧
      (∀ line ∈ segments (longPath ++ '\n' :: longPath), line.length ≤ lineSize - 2) ∧
      (memRows (fun _ => "REG".toList) (longPath ++ '\n' :: longPath)).map Row.path =
        [longPath,longPath] :=
  ⟨by decide +kernel,by decide +kernel,by decide +kernel⟩

end CShellXv6.Spy
