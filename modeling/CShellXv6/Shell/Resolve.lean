import CShellXv6.Library.Search
import CShellXv6.Shell.Token
import Mathlib.Data.Nat.Notation

/-! # From a command word to a program file

The three searches for the file of a command: the one of `execute_cmd_internal`
that decides what runs, `locate_single`, which prints all candidates, and the one
of `snoop_cmd`. Each builds its candidates in buffers of a fixed size. What
`access` and `stat` find at a path is left open.
-/
namespace CShellXv6.Resolve
open Lexer Search

def pathMax : ℕ := 4096

/-- What `access` and `stat` tell about the file at a path. -/
structure Node where
  inode : ℕ
  executable : Bool
  directory : Bool
  deriving DecidableEq, Repr

/-- What a successful `getcwd` puts into a buffer of `PATH_MAX` bytes. -/
structure Directory where
  path : CString
  absolute : path.head? = some '/'
  fits : path.length < pathMax

/-- The files as seen by their paths, the current directory unless `getcwd`
fails, and what a buffer holds that nothing was written to. -/
structure Files where
  lookup : CString → Option Node
  getcwd : Option Directory
  junk : CString

/-- A text written by `snprintf` is cut to the size of the buffer. -/
def snprintf (size : ℕ) (text : CString) : CString := text.take (size - 1)

def isExecutable (fs : Files) (filepath : CString) : Bool :=
  match fs.lookup filepath with
  | none => false
  | some node => node.executable && !node.directory

def executeIsExecutable : Files → CString → Bool := isExecutable

def locateIsExecutable : Files → CString → Bool := isExecutable

/-- The components that `strtok_r` finds, which are never empty. -/
def strtokR (path : CString) : List CString := (path.splitOn ':').filter (· ≠ [])

/-! ## Execution -/

def executeCwdCandidate (cwd : Directory) (cmdName : CString) : CString :=
  snprintf (pathMax + 512) (cwd.path ++ '/' :: cmdName)

def executeCandidate (getcwd : Option Directory) (cmdName dir : CString) : CString :=
  if dir.length = 0 then
    match getcwd with
    | some cwd => snprintf (pathMax + 512) (cwd.path ++ '/' :: cmdName)
    | none => snprintf (pathMax + 512) cmdName
  else snprintf (pathMax + 512) (dir ++ '/' :: cmdName)

def executeCwd (fs : Files) (cmdName : CString) : Option CString :=
  match fs.getcwd with
  | none => none
  | some cwd =>
    if executeIsExecutable fs (executeCwdCandidate cwd cmdName) then
      some (executeCwdCandidate cwd cmdName)
    else none

/-- The loop over the components of `PATH` that leaves at the first program. -/
def pathLoop (fs : Files) (candidate : CString → CString) : List CString → Option CString
  | [] => none
  | dir :: rest =>
    if executeIsExecutable fs (candidate dir) then some (candidate dir)
    else pathLoop fs candidate rest

def executePath (fs : Files) (env : Option CString) (cmdName : CString) : Option CString :=
  match env with
  | none => none
  | some path =>
    if 0 < path.length then pathLoop fs (executeCandidate fs.getcwd cmdName) (strtokR path)
    else none

/-- The value of `exec_path`. A leading `%` is dropped and keeps the search out
of the current directory. -/
def executeResolve (fs : Files) (env : Option CString) (rawCmd : CString) : Option CString :=
  let skipCwd := rawCmd.head? == some '%'
  let cmdName := if skipCwd then rawCmd.tail else rawCmd
  if !skipCwd && cmdName.contains '/' then
    if executeIsExecutable fs cmdName then some cmdName else none
  else
    match if skipCwd then none else executeCwd fs cmdName with
    | some path => some path
    | none => executePath fs env cmdName

/-! ## Locate -/

inductive LocateLine
  | path (p : CString)
  | notFound (cmd : CString)
  deriving DecidableEq, Repr

def locateCandidate (cwd cmd dir : CString) : CString :=
  if dir.length = 0 then snprintf (pathMax + 512) (cwd ++ '/' :: cmd)
  else if dir.head? = some '/' then snprintf (pathMax + 512) (dir ++ '/' :: cmd)
  else snprintf (pathMax + 512) (cwd ++ '/' :: dir ++ '/' :: cmd)

def locateCwd (fs : Files) (cmd : CString) : List CString :=
  match fs.getcwd with
  | none => []
  | some cwd =>
    if locateIsExecutable fs (snprintf (pathMax + 512) (cwd.path ++ '/' :: cmd)) then
      [snprintf (pathMax + 512) (cwd.path ++ '/' :: cmd)]
    else []

def locatePathLoop (fs : Files) (cwd cmd : CString) : List CString → List CString
  | [] => []
  | dir :: rest =>
    if locateIsExecutable fs (locateCandidate cwd cmd dir) then
      locateCandidate cwd cmd dir :: locatePathLoop fs cwd cmd rest
    else locatePathLoop fs cwd cmd rest

/-- The buffer `cwd` is read for relative components even after `getcwd` has
failed. -/
def locatePath (fs : Files) (env : Option CString) (cmd : CString) : List CString :=
  match env with
  | none => []
  | some path =>
    if 0 < path.length then
      locatePathLoop fs ((fs.getcwd.map Directory.path).getD fs.junk) cmd (strtokR path)
    else []

def locateMatches (fs : Files) (env : Option CString) (cmd : CString) : List CString :=
  locateCwd fs cmd ++ locatePath fs env cmd

def locateSingle (fs : Files) (env : Option CString) (cmd : CString) : List LocateLine :=
  if (locateMatches fs env cmd).length = 0 then [.notFound cmd]
  else (locateMatches fs env cmd).map .path

/-! ## Snoop -/

def snoopCandidate (rawCmd dir : CString) : CString := snprintf 512 (dir ++ '/' :: rawCmd)

/-- The value of `exec_path` for a command given without `-p`. -/
def snoopResolve (fs : Files) (env : Option CString) (rawCmd : CString) : Option CString :=
  if rawCmd.contains '/' then
    if executeIsExecutable fs rawCmd then some rawCmd else none
  else
    match env with
    | none => none
    | some path => pathLoop fs (snoopCandidate rawCmd) (strtokR path)

/-! ## The searches as lists of candidates -/

/-- The components of the variable `PATH`. -/
def pathDirs (env : Option CString) : List CString := (env.map strtokR).getD []

theorem strtokR_nil : strtokR [] = [] := by simp [strtokR]

theorem ne_nil_of_mem_strtokR {path dir : CString} (h : dir ∈ strtokR path) : dir ≠ [] := by
  simpa using (List.mem_filter.mp h).2

theorem ne_nil_of_mem_pathDirs {env : Option CString} {dir : CString} (h : dir ∈ pathDirs env) :
    dir ≠ [] := by
  cases env with
  | none => cases h
  | some path => exact ne_nil_of_mem_strtokR h

/-- The paths that `execute_cmd_internal` tests, in order. -/
def executeProbes (getcwd : Option Directory) (env : Option CString) (rawCmd : CString) :
    List CString :=
  if rawCmd.head? = some '%' then (pathDirs env).map (executeCandidate getcwd rawCmd.tail)
  else if '/' ∈ rawCmd then [rawCmd]
  else (getcwd.map (executeCwdCandidate · rawCmd)).toList ++
    (pathDirs env).map (executeCandidate getcwd rawCmd)

/-- The paths that `snoop_cmd` tests, in order. -/
def snoopProbes (env : Option CString) (rawCmd : CString) : List CString :=
  if '/' ∈ rawCmd then [rawCmd] else (pathDirs env).map (snoopCandidate rawCmd)

/-- The paths that `locate_single` tests after a successful `getcwd`. -/
def locateProbes (cwd : Directory) (env : Option CString) (cmd : CString) : List CString :=
  executeCwdCandidate cwd cmd :: (pathDirs env).map (locateCandidate cwd.path cmd)

theorem pathLoop_eq (fs : Files) (candidate : CString → CString) (dirs : List CString) :
    pathLoop fs candidate dirs = (dirs.map candidate).find? (isExecutable fs) := by
  induction dirs with
  | nil => rfl
  | cons dir rest ih =>
    rw [pathLoop, List.map_cons, List.find?_cons, ih]
    unfold executeIsExecutable
    split
    · next h => rw [h]
    · next h => rw [Bool.eq_false_iff.mpr h]

theorem executePath_eq (fs : Files) (env : Option CString) (cmdName : CString) :
    executePath fs env cmdName =
      ((pathDirs env).map (executeCandidate fs.getcwd cmdName)).find? (isExecutable fs) := by
  cases env with
  | none => rfl
  | some path =>
    simp only [executePath, pathDirs, Option.map_some, Option.getD_some]
    split
    · exact pathLoop_eq fs _ _
    · next h =>
      have hnil : path = [] := List.length_eq_zero_iff.mp (Nat.eq_zero_of_not_pos h)
      rw [hnil, strtokR_nil]
      rfl

theorem executeCwd_eq (fs : Files) (cmdName : CString) :
    executeCwd fs cmdName =
      (fs.getcwd.map (executeCwdCandidate · cmdName)).toList.find? (isExecutable fs) := by
  unfold executeCwd executeIsExecutable
  cases fs.getcwd with
  | none => rfl
  | some cwd =>
    simp only [Option.map_some, Option.toList_some, List.find?_cons, List.find?_nil]
    split
    · next h => rw [h]
    · next h => rw [Bool.eq_false_iff.mpr h]

theorem executeResolve_eq (fs : Files) (env : Option CString) (rawCmd : CString) :
    executeResolve fs env rawCmd =
      (executeProbes fs.getcwd env rawCmd).find? (isExecutable fs) := by
  unfold executeResolve executeProbes
  by_cases hpercent : rawCmd.head? = some '%'
  · simp [hpercent,executePath_eq]
  · by_cases hslash : '/' ∈ rawCmd
    · simp only [hpercent, hslash, executeIsExecutable, beq_iff_eq, ↓reduceIte,
        List.contains_eq_mem, decide_true, List.find?_singleton]
      cases isExecutable fs rawCmd <;> simp [hpercent]
    · simp only [hpercent, hslash, beq_iff_eq, ↓reduceIte, List.contains_eq_mem, decide_false,
        Bool.and_false, Bool.false_eq_true, List.find?_append, ← executeCwd_eq, ← executePath_eq]
      cases executeCwd fs rawCmd with
      | none => rfl
      | some path => rfl

theorem snoopResolve_eq (fs : Files) (env : Option CString) (rawCmd : CString) :
    snoopResolve fs env rawCmd = (snoopProbes env rawCmd).find? (isExecutable fs) := by
  unfold snoopResolve snoopProbes
  by_cases hslash : '/' ∈ rawCmd
  · simp only [hslash, executeIsExecutable, ↓reduceIte, List.contains_eq_mem, decide_true,
      List.find?_singleton]
    by_cases h : isExecutable fs rawCmd = true <;> simp [h]
  · simp only [hslash, ↓reduceIte, List.contains_eq_mem, decide_false, Bool.false_eq_true]
    cases env with
    | none => rfl
    | some path => exact pathLoop_eq fs _ (strtokR path)

theorem locatePathLoop_eq (fs : Files) (cwd cmd : CString) (dirs : List CString) :
    locatePathLoop fs cwd cmd dirs =
      (dirs.map (locateCandidate cwd cmd)).filter (isExecutable fs) := by
  induction dirs with
  | nil => rfl
  | cons dir rest ih =>
    rw [locatePathLoop, List.map_cons, List.filter_cons, ih]
    rfl

theorem locatePath_eq {fs : Files} {cwd : Directory} (hcwd : fs.getcwd = some cwd)
    (env : Option CString) (cmd : CString) :
    locatePath fs env cmd =
      ((pathDirs env).map (locateCandidate cwd.path cmd)).filter (isExecutable fs) := by
  cases env with
  | none => rfl
  | some path =>
    simp only [locatePath, pathDirs, Option.map_some, Option.getD_some, hcwd]
    split
    · exact locatePathLoop_eq fs cwd.path cmd _
    · next h =>
      rw [List.length_eq_zero_iff.mp (Nat.eq_zero_of_not_pos h), strtokR_nil]
      rfl

theorem locateMatches_eq {fs : Files} {cwd : Directory} (hcwd : fs.getcwd = some cwd)
    (env : Option CString) (cmd : CString) :
    locateMatches fs env cmd = (locateProbes cwd env cmd).filter (isExecutable fs) := by
  have hhere : locateCwd fs cmd = [executeCwdCandidate cwd cmd].filter (isExecutable fs) := by
    simp only [locateCwd, hcwd, List.filter_cons, List.filter_nil]
    rfl
  rw [locateMatches, hhere, locatePath_eq hcwd, ← List.filter_append]
  rfl

/-! ## What a search finds -/

def programNode (inode : ℕ) : Node := ⟨inode,true,false⟩

/-- The program at a path. -/
def Files.program (fs : Files) (path : CString) : Option ℕ :=
  if isExecutable fs path then (fs.lookup path).map Node.inode else none

theorem lookup_of_isExecutable {fs : Files} {path : CString} (h : isExecutable fs path = true) :
    ∃ inode, fs.program path = some inode ∧ fs.lookup path = some (programNode inode) := by
  have hprogram : fs.program path = (fs.lookup path).map Node.inode := if_pos h
  unfold isExecutable at h
  split at h
  · cases h
  · next node hlookup =>
    obtain ⟨inode,executable,directory⟩ := node
    simp only [Bool.and_eq_true, Bool.not_eq_true'] at h
    obtain ⟨rfl,rfl⟩ := h
    exact ⟨inode,by rw [hprogram, hlookup]; rfl,hlookup⟩

theorem find?_map_lookup (fs : Files) (l : List CString) :
    (l.find? (isExecutable fs)).map fs.lookup =
      (l.findSome? fs.program).map (fun inode => some (programNode inode)) := by
  induction l with
  | nil => rfl
  | cons path rest ih =>
    rw [List.find?_cons, List.findSome?_cons]
    cases hexec : isExecutable fs path with
    | true =>
      obtain ⟨inode,hprogram,hlookup⟩ := lookup_of_isExecutable hexec
      rw [hprogram, Option.map_some, Option.map_some, hlookup]
    | false =>
      have hnone : fs.program path = none := if_neg (by simp [hexec])
      rw [hnone]
      exact ih

/-- Two searches find the same file, or nothing, when they come upon the same
program first. -/
theorem same_file_iff (fs : Files) (l m : List CString) :
    (l.find? (isExecutable fs)).map fs.lookup = (m.find? (isExecutable fs)).map fs.lookup ↔
      l.findSome? fs.program = m.findSome? fs.program := by
  rw [find?_map_lookup, find?_map_lookup]
  refine (Option.map_injective ?_).eq_iff
  intro i j hij
  exact congrArg Node.inode (Option.some.inj hij)

/-- The files in which the paths name these programs and nothing else. -/
def filesOf (name : CString → Option ℕ) (getcwd : Option Directory) : Files where
  lookup path := (name path).map programNode
  getcwd := getcwd
  junk := []

theorem program_filesOf (name : CString → Option ℕ) (getcwd : Option Directory) :
    (filesOf name getcwd).program = name := by
  funext path
  cases hname : name path with
  | none => simp [Files.program,isExecutable,filesOf,hname]
  | some inode => simp [Files.program,isExecutable,filesOf,hname,programNode]

/-! ## Locate and execution -/

/-- The operating system resolves `d/name` for a relative `d` in the current
directory. -/
def Files.ResolvesIn (fs : Files) (cwd : Directory) (name : CString) : Prop :=
  ∀ dir, dir ≠ [] → dir.head? ≠ some '/' →
    fs.lookup (dir ++ '/' :: name) = fs.lookup (cwd.path ++ '/' :: dir ++ '/' :: name)

/-- `locate` prints a path when execution finds a program, and the first one is
the program that is run. -/
def Predicts (fs : Files) (env : Option CString) (name : CString) : Prop :=
  ((∃ p, .path p ∈ locateSingle fs env name) ↔ (executeResolve fs env name).isSome = true) ∧
    ∀ p q, (locateSingle fs env name).head? = some (.path p) →
      executeResolve fs env name = some q → fs.lookup p = fs.lookup q

theorem locateSingle_path {fs : Files} {env : Option CString} {cmd : CString} :
    (∃ p, .path p ∈ locateSingle fs env cmd) ↔ (locateMatches fs env cmd).head?.isSome = true := by
  unfold locateSingle
  cases locateMatches fs env cmd with
  | nil => simp
  | cons p rest => simp

theorem locateSingle_head {fs : Files} {env : Option CString} {cmd p : CString} :
    (locateSingle fs env cmd).head? = some (.path p) ↔ (locateMatches fs env cmd).head? = some p := by
  unfold locateSingle
  cases locateMatches fs env cmd with
  | nil => simp
  | cons q rest => simp

theorem predicts_iff {fs : Files} {cwd : Directory} (hcwd : fs.getcwd = some cwd)
    (env : Option CString) (name : CString) :
    Predicts fs env name ↔ (locateProbes cwd env name).findSome? fs.program =
      (executeProbes (some cwd) env name).findSome? fs.program := by
  rw [← same_file_iff]
  unfold Predicts
  rw [locateSingle_path]
  simp only [locateSingle_head]
  rw [locateMatches_eq hcwd, List.head?_filter, executeResolve_eq, hcwd]
  cases (locateProbes cwd env name).find? (isExecutable fs) with
  | none => cases (executeProbes (some cwd) env name).find? (isExecutable fs) <;> simp
  | some p => cases (executeProbes (some cwd) env name).find? (isExecutable fs) <;> simp

/-- The path that `locate_single` builds for a relative component. -/
def longPath (cwd : Directory) (name dir : CString) : CString :=
  cwd.path ++ '/' :: dir ++ '/' :: name

theorem snprintf_of_fits {text : CString} (h : text.length < pathMax + 512) :
    snprintf (pathMax + 512) text = text :=
  List.take_of_length_le (by omega)

section Name
variable {cwd : Directory} {env : Option CString} {name : CString}

theorem executeProbes_name (hslash : '/' ∉ name) (hpercent : name.head? ≠ some '%') :
    executeProbes (some cwd) env name = executeCwdCandidate cwd name ::
      (pathDirs env).map (executeCandidate (some cwd) name) := by
  simp [executeProbes,hslash,hpercent]

theorem executeCandidate_ne_nil {getcwd : Option Directory} {dir : CString} (h : dir ≠ []) :
    executeCandidate getcwd name dir = snprintf (pathMax + 512) (dir ++ '/' :: name) :=
  if_neg (by simpa using h)

theorem locateCandidate_absolute {dir : CString} (habs : dir.head? = some '/') :
    locateCandidate cwd.path name dir = snprintf (pathMax + 512) (dir ++ '/' :: name) := by
  have hne : dir.length ≠ 0 := by
    intro hlen
    rw [List.length_eq_zero_iff.mp hlen] at habs
    cases habs
  rw [locateCandidate, if_neg hne, if_pos habs]

theorem locateCandidate_relative {dir : CString} (h : dir ≠ []) (hrel : dir.head? ≠ some '/') :
    locateCandidate cwd.path name dir = snprintf (pathMax + 512) (longPath cwd name dir) := by
  rw [locateCandidate, if_neg (by simpa using h), if_neg hrel]
  rfl

/-- A component whose path fits into the buffer leads both searches to the same
file. -/
theorem lookup_candidate {fs : Files} (hfs : fs.ResolvesIn cwd name) {dir : CString}
    (hdir : dir ≠ [])
    (hfits : dir.head? ≠ some '/' → (longPath cwd name dir).length < pathMax + 512) :
    fs.lookup (locateCandidate cwd.path name dir) =
      fs.lookup (executeCandidate (some cwd) name dir) := by
  rw [executeCandidate_ne_nil hdir]
  by_cases habs : dir.head? = some '/'
  · rw [locateCandidate_absolute habs]
  · have hlong := hfits habs
    have hshort : (dir ++ '/' :: name).length < pathMax + 512 := by
      unfold longPath at hlong
      simp only [List.length_append, List.length_cons] at hlong ⊢
      omega
    rw [locateCandidate_relative hdir habs, snprintf_of_fits hlong, snprintf_of_fits hshort]
    exact (hfs dir hdir habs).symm

theorem program_congr {fs : Files} {p q : CString} (h : fs.lookup p = fs.lookup q) :
    fs.program p = fs.program q := by
  unfold Files.program isExecutable
  rw [h]

/-! ### A component that does not fit -/

/-- Only the file that execution finds in a relative component exists. -/
def loneProgram (cwd : Directory) (name dir : CString) : CString → Option ℕ := fun path =>
  if path = snprintf (pathMax + 512) (dir ++ '/' :: name) ∨
    path = cwd.path ++ '/' :: snprintf (pathMax + 512) (dir ++ '/' :: name) then some 0 else none

theorem length_snprintf_le (text : CString) :
    (snprintf (pathMax + 512) text).length ≤ pathMax + 511 := List.length_take_le _ _

theorem head?_snprintf (text : CString) : (snprintf (pathMax + 512) text).head? = text.head? := by
  cases text <;> rfl

theorem head?_append_of_absolute (p : CString) : (cwd.path ++ p).head? = some '/' := by
  have h := cwd.absolute
  cases hpath : cwd.path with
  | nil =>
    rw [hpath] at h
    cases h
  | cons c rest =>
    rw [hpath] at h
    exact h

/-- The lone program lies behind a path that no buffer can hold. -/
theorem loneProgram_absolute {dir path : CString} (hdir : dir ≠ [])
    (hrel : dir.head? ≠ some '/') (hlong : pathMax + 512 ≤ (longPath cwd name dir).length)
    (habs : path.head? = some '/') (hlen : path.length ≤ pathMax + 511) :
    loneProgram cwd name dir path = none := by
  refine if_neg ?_
  rintro (rfl | rfl)
  · rw [head?_snprintf] at habs
    cases dir with
    | nil => exact hdir rfl
    | cons c rest => exact hrel habs
  · unfold longPath at hlong
    simp only [snprintf, List.length_append, List.length_cons, List.length_take] at hlong hlen
    omega

theorem loneProgram_resolvesIn {dir : CString} (hdir : dir ≠ []) (hrel : dir.head? ≠ some '/') :
    (filesOf (loneProgram cwd name dir) (some cwd)).ResolvesIn cwd name := by
  intro d hd hdrel
  have habs : ∀ p : CString, d ++ '/' :: name ≠ cwd.path ++ p := by
    intro p heq
    have hhead : (cwd.path ++ p).head? = some '/' := head?_append_of_absolute p
    rw [← heq] at hhead
    cases d with
    | nil => exact hd rfl
    | cons c rest => exact hdrel hhead
  have hrelative : ∀ p : CString,
      cwd.path ++ p ≠ snprintf (pathMax + 512) (dir ++ '/' :: name) := by
    intro p heq
    have hhead : (cwd.path ++ p).head? = some '/' := head?_append_of_absolute p
    rw [heq, head?_snprintf] at hhead
    cases dir with
    | nil => exact hdir rfl
    | cons c rest => exact hrel hhead
  have hlone : loneProgram cwd name dir (d ++ '/' :: name) =
      loneProgram cwd name dir (cwd.path ++ '/' :: d ++ '/' :: name) := by
    unfold loneProgram
    rw [List.append_assoc, List.cons_append]
    simp [habs,hrelative]
  exact congrArg (Option.map programNode) hlone

/-- On these files execution finds the program and `locate` does not. -/
theorem not_predicts_loneProgram (hslash : '/' ∉ name) (hpercent : name.head? ≠ some '%')
    {dir : CString} (hmem : dir ∈ pathDirs env) (hrel : dir.head? ≠ some '/')
    (hlong : pathMax + 512 ≤ (longPath cwd name dir).length) :
    ¬Predicts (filesOf (loneProgram cwd name dir) (some cwd)) env name := by
  have hdir : dir ≠ [] := ne_nil_of_mem_pathDirs hmem
  have hcwd : loneProgram cwd name dir (executeCwdCandidate cwd name) = none := by
    refine loneProgram_absolute hdir hrel hlong ?_ (length_snprintf_le _)
    rw [executeCwdCandidate, head?_snprintf]
    exact head?_append_of_absolute _
  have hlocate : (locateProbes cwd env name).findSome? (loneProgram cwd name dir) = none := by
    rw [locateProbes, List.findSome?_cons, hcwd]
    refine List.findSome?_eq_none_iff.mpr (fun path hpath => ?_)
    obtain ⟨d,hd,rfl⟩ := List.mem_map.mp hpath
    have hne : d ≠ [] := ne_nil_of_mem_pathDirs hd
    by_cases habs : d.head? = some '/'
    · rw [locateCandidate_absolute habs]
      refine loneProgram_absolute hdir hrel hlong ?_ (length_snprintf_le _)
      rw [head?_snprintf]
      cases d with
      | nil => exact absurd rfl hne
      | cons c rest => exact habs
    · rw [locateCandidate_relative hne habs]
      refine loneProgram_absolute hdir hrel hlong ?_ (length_snprintf_le _)
      rw [head?_snprintf, longPath, List.append_assoc]
      exact head?_append_of_absolute _
  have hfound : loneProgram cwd name dir (executeCandidate (some cwd) name dir) = some 0 := by
    rw [executeCandidate_ne_nil hdir]
    exact if_pos (Or.inl rfl)
  rw [predicts_iff rfl, program_filesOf, hlocate, executeProbes_name hslash hpercent,
    List.findSome?_cons, hcwd]
  intro heq
  have hnone := List.findSome?_eq_none_iff.mp heq.symm _ (List.mem_map_of_mem hmem)
  rw [hfound] at hnone
  cases hnone

end Name

def home : Directory := ⟨"/h".toList,rfl,by decide⟩

/-- Files in which every path names the same program. -/
def onlyProgram (getcwd : Option Directory) : Files := filesOf (fun _ => some 7) getcwd

theorem strtokR_of_not_mem {path : CString} (h : ':' ∉ path) (hne : path ≠ []) :
    strtokR path = [path] := by
  rw [strtokR, List.splitOn_eq_singleton h]
  simpa using hne

/-- A current directory of 4000 bytes, twenty directories deep. -/
def deepHome : Directory where
  path := (List.replicate 20 ('/' :: List.replicate 199 'a')).flatten
  absolute := rfl
  fits := by decide +kernel

/-- A relative component of 799 bytes, with which a path from `deepHome` does not
fit into 4608 bytes. -/
def deepDir : CString :=
  List.replicate 199 'd' ++ (List.replicate 3 ('/' :: List.replicate 199 'd')).flatten

theorem deepDir_tokens : pathDirs (some deepDir) = [deepDir] := by
  have hcolon : ':' ∉ deepDir := by decide +kernel
  have hne : deepDir ≠ [] := by decide +kernel
  rw [pathDirs, Option.map_some, Option.getD_some, strtokR_of_not_mem hcolon hne]

theorem deepDir_long : pathMax + 512 ≤ (longPath deepHome "a".toList deepDir).length := by
  decide +kernel

/-- `snoop` runs the file that the shell would run, or finds nothing when the
shell would not. -/
def Traces (fs : Files) (env : Option CString) (rawCmd : CString) : Prop :=
  (snoopResolve fs env rawCmd).map fs.lookup = (executeResolve fs env rawCmd).map fs.lookup

end CShellXv6.Resolve
