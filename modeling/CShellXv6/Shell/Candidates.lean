import CShellXv6.Shell.Resolve

/-! # The candidates of a command word

What the search of `execute_cmd_internal` is for: the directories that a command
word is looked up in, with an empty component of `PATH` standing for the current
directory and with names of any length. The code drops the empty components
before it can look at them, cuts long names and does without a current directory
whose path is too long for its buffer.
-/
namespace CShellXv6.Resolve
open Lexer Search

/-- The current directory under its path, however long. -/
structure Cwd where
  path : CString
  absolute : path.head? = some '/'

/-- `getcwd` fails for a path that does not fit into its buffer. -/
def Cwd.getcwd (cwd : Cwd) : Option Directory :=
  if h : cwd.path.length < pathMax then some ⟨cwd.path,cwd.absolute,h⟩ else none

/-- The components of `PATH`, the empty ones included. -/
def components (env : Option CString) : List CString := (env.map (List.splitOn ':')).getD []

def skipsCwd (rawCmd : CString) : Bool := rawCmd.head? == some '%'

/-- The command word without a leading `%`. -/
def commandName (rawCmd : CString) : CString := if skipsCwd rawCmd then rawCmd.tail else rawCmd

/-- The directories of a command word in order. -/
def meantDirs (cwd : Cwd) (env : Option CString) (rawCmd : CString) : List CString :=
  (if skipsCwd rawCmd then [] else [cwd.path]) ++
    (components env).map (fun dir => if dir = [] then cwd.path else dir)

/-- The candidates of a command word under their full names. -/
def candidates (cwd : Cwd) (env : Option CString) (rawCmd : CString) : List CString :=
  if skipsCwd rawCmd = false ∧ '/' ∈ rawCmd then [rawCmd]
  else (meantDirs cwd env rawCmd).map (· ++ '/' :: commandName rawCmd)

/-- The directories that are left of them: the current directory when `getcwd`
succeeds and the components that are not empty. -/
def searchedDirs (cwd : Cwd) (env : Option CString) (rawCmd : CString) : List CString :=
  (if skipsCwd rawCmd ∨ pathMax ≤ cwd.path.length then [] else [cwd.path]) ++
    (components env).filter (· ≠ [])

section
variable (cwd : Cwd) (env : Option CString) (rawCmd : CString)

theorem pathDirs_eq : pathDirs env = (components env).filter (· ≠ []) := by
  cases env with
  | none => rfl
  | some path => rfl

/-- The code tests the searched directories under names cut to the buffer. -/
theorem executeProbes_eq (hword : ¬(skipsCwd rawCmd = false ∧ '/' ∈ rawCmd)) :
    executeProbes cwd.getcwd env rawCmd = (searchedDirs cwd env rawCmd).map
      (fun dir => snprintf (pathMax + 512) (dir ++ '/' :: commandName rawCmd)) := by
  have hpath : (pathDirs env).map (executeCandidate cwd.getcwd (commandName rawCmd)) =
      ((components env).filter (· ≠ [])).map
        (fun dir => snprintf (pathMax + 512) (dir ++ '/' :: commandName rawCmd)) := by
    rw [← pathDirs_eq]
    apply List.map_congr_left
    intro dir hdir
    exact executeCandidate_ne_nil (ne_nil_of_mem_pathDirs hdir)
  rw [searchedDirs, List.map_append, ← hpath, executeProbes]
  by_cases hpercent : rawCmd.head? = some '%'
  · have hskip : skipsCwd rawCmd = true := by simp [skipsCwd,hpercent]
    rw [if_pos hpercent, if_pos (Or.inl hskip), commandName, if_pos hskip]
    rfl
  · have hskip : skipsCwd rawCmd = false := by simp [skipsCwd,hpercent]
    have hslash : '/' ∉ rawCmd := fun hmem => hword ⟨hskip,hmem⟩
    rw [if_neg hpercent, if_neg hslash, commandName, hskip, if_neg Bool.false_ne_true]
    congr 1
    unfold Cwd.getcwd
    by_cases hfits : cwd.path.length < pathMax
    · rw [dif_pos hfits, if_neg (by simpa using hfits)]
      rfl
    · rw [dif_neg hfits, if_pos (by simpa using hfits)]
      rfl

/-- The tests of a file can come out in any way. -/
theorem resolves_iff : (∀ fs : Files, fs.getcwd = cwd.getcwd →
      executeResolve fs env rawCmd =
        (candidates cwd env rawCmd).find? (isExecutable fs)) ↔
    ∀ p : CString → Bool,
      (executeProbes cwd.getcwd env rawCmd).find? p = (candidates cwd env rawCmd).find? p := by
  constructor
  · intro h p
    have hfiles := h (filesOf (fun path => if p path then some 0 else none) cwd.getcwd) rfl
    have hexec : isExecutable
        (filesOf (fun path => if p path then some 0 else none) cwd.getcwd) = p := by
      funext path
      cases hp : p path with
      | true => simp [isExecutable,filesOf,hp,programNode]
      | false => simp [isExecutable,filesOf,hp]
    rw [executeResolve_eq, hexec] at hfiles
    exact hfiles
  · intro h fs hcwd
    rw [executeResolve_eq, hcwd]
    exact h _

/-- A candidate that the code can test has less than the size of its buffer. -/
theorem fits_of_agree (hword : ¬(skipsCwd rawCmd = false ∧ '/' ∈ rawCmd))
    (h : ∀ p : CString → Bool,
      (executeProbes cwd.getcwd env rawCmd).find? p = (candidates cwd env rawCmd).find? p) :
    ∀ dir ∈ meantDirs cwd env rawCmd,
      (dir ++ '/' :: commandName rawCmd).length < pathMax + 512 := by
  intro dir hdir
  have hfound := h (· == dir ++ '/' :: commandName rawCmd)
  have hmem : dir ++ '/' :: commandName rawCmd ∈ candidates cwd env rawCmd := by
    rw [candidates, if_neg hword]
    exact List.mem_map_of_mem hdir
  have hsome : ((candidates cwd env rawCmd).find?
      (· == dir ++ '/' :: commandName rawCmd)).isSome = true := by
    rw [List.find?_isSome]
    exact ⟨_,hmem,beq_self_eq_true _⟩
  rw [← hfound, List.find?_isSome, executeProbes_eq cwd env rawCmd hword] at hsome
  obtain ⟨c,hc,heq⟩ := hsome
  obtain ⟨other,_,rfl⟩ := List.mem_map.mp hc
  rw [← eq_of_beq heq]
  exact Nat.lt_succ_of_le (length_snprintf_le _)

theorem searchedDirs_sub {dir : CString} (h : dir ∈ searchedDirs cwd env rawCmd) :
    dir ∈ meantDirs cwd env rawCmd := by
  unfold searchedDirs at h
  unfold meantDirs
  rcases List.mem_append.mp h with h | h
  · apply List.mem_append_left
    split at h
    · cases h
    · next hskip =>
      rw [if_neg (fun hs => hskip (Or.inl hs))]
      exact h
  · apply List.mem_append_right
    obtain ⟨hmem,hne⟩ := List.mem_filter.mp h
    exact List.mem_map.mpr ⟨dir,hmem,if_neg (by simpa using hne)⟩

/-- Candidates that fit are tested under their full names. -/
theorem executeProbes_full (hword : ¬(skipsCwd rawCmd = false ∧ '/' ∈ rawCmd))
    (hfits : ∀ dir ∈ meantDirs cwd env rawCmd,
      (dir ++ '/' :: commandName rawCmd).length < pathMax + 512) :
    executeProbes cwd.getcwd env rawCmd =
      (searchedDirs cwd env rawCmd).map (· ++ '/' :: commandName rawCmd) := by
  rw [executeProbes_eq cwd env rawCmd hword]
  apply List.map_congr_left
  intro dir hdir
  exact snprintf_of_fits (hfits dir (searchedDirs_sub cwd env rawCmd hdir))

/-- Execution takes the first program among the candidates on all files exactly when the
word is a path itself, or every candidate fits into the buffer and the directories that
are searched are those that are meant, repetitions aside. -/
theorem resolution_iff :
    (∀ fs : Files, fs.getcwd = cwd.getcwd →
        executeResolve fs env rawCmd =
          (candidates cwd env rawCmd).find? (isExecutable fs)) ↔
      (skipsCwd rawCmd = false ∧ '/' ∈ rawCmd) ∨
        ((∀ dir ∈ meantDirs cwd env rawCmd,
            (dir ++ '/' :: commandName rawCmd).length < pathMax + 512) ∧
          (searchedDirs cwd env rawCmd).eraseDups = (meantDirs cwd env rawCmd).eraseDups) := by
  rw [resolves_iff]
  by_cases hword : skipsCwd rawCmd = false ∧ '/' ∈ rawCmd
  · refine iff_of_true (fun p => ?_) (Or.inl hword)
    have hpercent : rawCmd.head? ≠ some '%' := by simpa [skipsCwd] using hword.1
    rw [executeProbes, if_neg hpercent, if_pos hword.2, candidates, if_pos hword]
  · have hundo := find?_map_eq_iff (f := fun dir : CString => dir ++ '/' :: commandName rawCmd)
      (g := fun path => path.take (path.length - (commandName rawCmd).length - 1))
      (fun dir => by
        rw [List.length_append, List.length_cons, List.take_append_of_le_length (by omega),
          List.take_of_length_le (by omega)])
      (searchedDirs cwd env rawCmd) (meantDirs cwd env rawCmd)
    have hcandidates : candidates cwd env rawCmd =
        (meantDirs cwd env rawCmd).map (· ++ '/' :: commandName rawCmd) := if_neg hword
    rw [or_iff_right hword, ← find?_eq_iff, ← hundo, ← hcandidates]
    constructor
    · intro h
      have hfits := fits_of_agree cwd env rawCmd hword h
      refine ⟨hfits,?_⟩
      rw [← executeProbes_full cwd env rawCmd hword hfits]
      exact h
    · rintro ⟨hfits,h⟩
      rw [executeProbes_full cwd env rawCmd hword hfits]
      exact h

end

/-- A command found in the current directory through an empty component of `PATH`: `%a` is
looked for in `/h` first, but the search only sees `/bin`. -/
theorem emptyComponent_not_searched :
    let cwd : Cwd := ⟨['/','h'],rfl⟩
    let env : Option CString := some [':','/','b','i','n']
    let fs := filesOf (fun path => if path = ['/','h','/','a'] then some 1 else none) cwd.getcwd
    (candidates cwd env ['%','a']).find? (isExecutable fs) = some ['/','h','/','a'] ∧
      executeResolve fs env ['%','a'] = none := by
  decide +kernel

end CShellXv6.Resolve
