import CShellXv6.Library.Paths
import CShellXv6.Shell.Resolve
import Mathlib.Data.List.Sort

/-! # `reveal -t`

`reveal_list_dir` prints the entries of a directory and calls itself for those that are
directories. It knows a directory by its path only, which `snprintf` cuts off at 4095
characters, so close to that length the path of an entry can be the path of the directory
itself. The depth of the calls is bounded by `fuel`; a run that needs more has no result.
-/
namespace CShellXv6.Reveal
open Lexer Paths
open Resolve (pathMax)

/-- The comparison of `cmp_names`, by bytes. -/
def strcmpLe : CString → CString → Bool
  | [], _ => true
  | _ :: _, [] => false
  | a :: s, b :: t =>
    if a.toNat < b.toNat then true else if b.toNat < a.toNat then false else strcmpLe s t

/-- What `snprintf` leaves of a text in a buffer of `PATH_MAX` characters. -/
def printed (text : CString) : CString := text.take (pathMax - 1)

/-- The loop over the names: what is printed for each, unless one call does not return. -/
def printAll (lines : CString → Option (List CString)) : List CString → Option (List CString)
  | [] => some []
  | name :: rest => (lines name).bind fun out => (printAll lines rest).map (out ++ ·)

section
variable {D : Type*}

/-- The line of an entry. -/
def line (pre name : CString) (x : Option D) : CString :=
  pre ++ name ++ if x.isSome then ['/'] else []

variable (t : DirTree D) (start : D) (flagA : Bool)

/-- Paths as `stat` and `opendir` take them. -/
def locate (path : CString) : Found D := t.resolve (pathMax - 1) start path

def shows (name : CString) : Bool := flagA || name.head? ≠ some '.'

/-- The array `names` after `qsort`. -/
def names (d : D) : List CString :=
  (((t.entries d).map Prod.fst).filter (shows flagA)).insertionSort
    (fun a b => strcmpLe a b = true)

def revealListDir (flagT : Bool) : ℕ → CString → CString → Option (List CString)
  | 0, _, _ => none
  | fuel + 1, dirPath, pre =>
    match locate t start dirPath with
    | .dir d =>
      printAll (fun name =>
        let full := printed (dirPath ++ '/' :: name)
        if flagT then
          if (locate t start full).isDir then
            (revealListDir flagT fuel full (printed (pre ++ name ++ ['/']))).map
              fun below => (pre ++ name ++ ['/']) :: below
          else some [pre ++ name]
        else some [name]) (names t flagA d)
    | _ => some []

/-! ## The listing that is asked for -/

/-- The lines of an entry and of what is below it, unless its path is too long. -/
def lines (below : D → ℕ → CString → List CString) (d : D) (len : ℕ) (pre name : CString) :
    List CString :=
  if len + 1 + name.length ≤ pathMax - 1 then
    match t.entry d name with
    | .dir c => (pre ++ name ++ ['/']) :: below c (len + 1 + name.length) (pre ++ name ++ ['/'])
    | _ => [pre ++ name]
  else []

/-- The entries below a directory in pre-order; `len` is the length of its path. -/
def preorder : ℕ → D → ℕ → CString → List CString
  | 0, _, _, _ => []
  | n + 1, d, len, pre => (names t flagA d).flatMap (lines t (preorder n) d len pre)

/-- The whole listing below the target. -/
def listing (target : CString) (d : D) : List CString :=
  preorder t flagA (t.height d + 1) d target.length []

/-- The line is that of an entry whose path can be opened. -/
def fits (target line : CString) : Bool :=
  target.length + 1 + (line.length - if line.getLast? = some '/' then 1 else 0) ≤ pathMax - 1

/-- The directories below the target, with their paths, as far as these can be opened. -/
inductive Visited (target : CString) (root : D) : CString → D → Prop
  | root : Visited target root target root
  | child {path name : CString} {d c : D} : Visited target root path d →
      (name,some c) ∈ t.entries d → shows flagA name = true →
      (path ++ '/' :: name).length ≤ pathMax - 1 → Visited target root (path ++ '/' :: name) c

/-- The lines of the entries below a directory whose paths can be opened, when `path` is the
path of the directory and `pre` stands before each line. -/
def Listed (path pre : CString) (d : D) (l : CString) : Prop :=
  ∃ path' d' rest name x, Visited t flagA path d path' d' ∧ path' ++ ['/'] = path ++ '/' :: rest ∧
    (name,x) ∈ t.entries d' ∧ shows flagA name = true ∧
    path'.length + 1 + name.length ≤ pathMax - 1 ∧ l = line (pre ++ rest) name x

/-- The lines are the listing: each entry once, in pre-order, sorted at each level. -/
structure Lists (target : CString) (root : D) (out : List CString) : Prop where
  order : out = listing t flagA target root
  once : out.Nodup
  all : ∀ l, l ∈ out ↔ Listed t flagA target [] root l
  sorted : ∀ d, (names t flagA d).Pairwise fun a b => strcmpLe a b = true

/-- No directory has an entry that is cut off to the directory itself or to its parent. -/
structure Safe (target : CString) (root : D) : Prop where
  full : ∀ path d, Visited t flagA target root path d → pathMax - 2 ≤ path.length →
    names t flagA d = []
  dot : ∀ path d, Visited t flagA target root path d → path.length = pathMax - 3 →
    ∀ name ∈ names t flagA d, ¬ ['.'] <+: name
  dots : ∀ path d, Visited t flagA target root path d → path.length = pathMax - 4 →
    ∀ name ∈ names t flagA d, ¬ ['.','.'] <+: name

end

/-! ## The loop over the names -/

theorem printAll_none {lines : CString → Option (List CString)} {l : List CString} {name : CString}
    (hmem : name ∈ l) (hnone : lines name = none) : printAll lines l = none := by
  induction l with
  | nil => cases hmem
  | cons first rest ih =>
    unfold printAll
    rcases List.mem_cons.mp hmem with rfl | hrest
    · rw [hnone]
      rfl
    · rw [ih hrest]
      cases lines first with
      | none => rfl
      | some out => rfl

theorem printAll_filter {lines : CString → Option (List CString)} {l : List CString}
    {p : CString → Bool} {g : CString → List CString}
    (h : ∀ name ∈ l, ∃ out, lines name = some out ∧ out.filter p = g name) :
    ∃ out, printAll lines l = some out ∧ out.filter p = l.flatMap g := by
  induction l with
  | nil => exact ⟨[],rfl,rfl⟩
  | cons name rest ih =>
    obtain ⟨hfirst,hrest⟩ := List.forall_mem_cons.mp h
    obtain ⟨out,hout,hfilter⟩ := hfirst
    obtain ⟨later,hlater,hfilter'⟩ := ih hrest
    refine ⟨out ++ later,?_,?_⟩
    · rw [printAll, hout, hlater]
      rfl
    · rw [List.filter_append, hfilter, hfilter', List.flatMap_cons]

section
variable {D : Type*} {t : DirTree D} {start : D} {flagA : Bool}

theorem mem_names {d : D} {name : CString} :
    name ∈ names t flagA d ↔ (∃ x, (name,x) ∈ t.entries d) ∧ shows flagA name = true := by
  rw [names, List.mem_insertionSort, List.mem_filter, List.mem_map]
  constructor
  · rintro ⟨⟨e,he,rfl⟩,hshows⟩
    exact ⟨⟨e.2,he⟩,hshows⟩
  · rintro ⟨⟨x,hx⟩,hshows⟩
    exact ⟨⟨_,hx,rfl⟩,hshows⟩

theorem length_entry (path name : CString) :
    (path ++ '/' :: name).length = path.length + 1 + name.length := by
  rw [List.length_append, List.length_cons]
  omega

theorem isName_of_mem {d : D} {name : CString} (h : name ∈ names t flagA d) : IsName name := by
  obtain ⟨⟨x,hx⟩,_⟩ := mem_names.mp h
  exact t.isName d _ hx

theorem visited_locate {target path : CString} {root d : D}
    (hroot : locate t start target = .dir root) (h : Visited t flagA target root path d) :
    locate t start path = .dir d := by
  induction h with
  | root => exact hroot
  | child _ hentry _ hlength ih =>
    rw [locate, DirTree.resolve_entry ih (t.isName _ _ hentry) hlength, DirTree.entry_of_mem hentry]
    rfl

/-! ## What the listing holds -/

theorem strcmpLe_cons (x y : Char) (a b : CString) :
    strcmpLe (x :: a) (y :: b) = true ↔
      x.toNat < y.toNat ∨ x.toNat = y.toNat ∧ strcmpLe a b = true := by
  rw [strcmpLe]
  split
  · simp [*]
  · split
    · simp
      omega
    · have heq : x.toNat = y.toNat := by omega
      simp [heq]

instance : Std.Total fun a b : CString => strcmpLe a b = true where
  total a b := by
    induction a generalizing b with
    | nil => exact Or.inl rfl
    | cons x a ih =>
      cases b with
      | nil => exact Or.inr rfl
      | cons y b =>
        unfold strcmpLe
        rcases Nat.lt_trichotomy x.toNat y.toNat with hlt | heq | hgt
        · simp [hlt]
        · simpa [heq] using ih b
        · simp [hgt]

instance : IsTrans CString fun a b => strcmpLe a b = true where
  trans a b c hab hbc := by
    induction a generalizing b c with
    | nil => rfl
    | cons x a ih =>
      cases b with
      | nil => cases hab
      | cons y b =>
        cases c with
        | nil => cases hbc
        | cons z c =>
          simp only [strcmpLe_cons] at hab hbc ⊢
          rcases hab with hxy | ⟨hxy,hab⟩
          · left
            rcases hbc with hyz | ⟨hyz,-⟩ <;> omega
          · rcases hbc with hyz | ⟨hyz,hbc⟩
            · left
              omega
            · exact Or.inr ⟨hxy.trans hyz,ih b c hab hbc⟩

theorem names_nodup (d : D) : (names t flagA d).Nodup :=
  (List.perm_insertionSort _ _).nodup_iff.mpr ((t.distinct d).filter _)

theorem mem_lines {below : D → ℕ → CString → List CString} {d : D} {name : CString}
    {x : Option D} (h : (name,x) ∈ t.entries d) {len : ℕ} {pre l : CString} :
    l ∈ lines t below d len pre name ↔
      len + 1 + name.length ≤ pathMax - 1 ∧ (l = line pre name x ∨
        ∃ c, x = some c ∧ l ∈ below c (len + 1 + name.length) (pre ++ name ++ ['/'])) := by
  unfold lines
  by_cases hfits : len + 1 + name.length ≤ pathMax - 1
  · rw [if_pos hfits, DirTree.entry_of_mem h, and_iff_right hfits]
    cases x with
    | none => simp [Found.ofEntry, line]
    | some c => simp [Found.ofEntry, line]
  · simp [hfits]

theorem mem_preorder {n : ℕ} {d : D} {len : ℕ} {pre l : CString} :
    l ∈ preorder t flagA (n + 1) d len pre ↔
      ∃ name x, (name,x) ∈ t.entries d ∧ shows flagA name = true ∧
        len + 1 + name.length ≤ pathMax - 1 ∧ (l = line pre name x ∨ ∃ c, x = some c ∧
          l ∈ preorder t flagA n c (len + 1 + name.length) (pre ++ name ++ ['/'])) := by
  rw [preorder, List.mem_flatMap]
  constructor
  · rintro ⟨name,hname,hl⟩
    obtain ⟨⟨x,hx⟩,hshows⟩ := mem_names.mp hname
    exact ⟨name,x,hx,hshows,(mem_lines hx).mp hl⟩
  · rintro ⟨name,x,hx,hshows,hl⟩
    exact ⟨name,mem_names.mpr ⟨⟨x,hx⟩,hshows⟩,(mem_lines hx).mpr hl⟩

/-- The line is that of the entry or of one below it. -/
def Under (pre name l : CString) : Prop :=
  ∃ rest, l = pre ++ (name ++ rest) ∧ (rest = [] ∨ rest.head? = some '/')

theorem takeWhile_name {name rest : CString} (hname : '/' ∉ name)
    (hrest : rest = [] ∨ rest.head? = some '/') : (name ++ rest).takeWhile (· ≠ '/') = name := by
  have hall : ∀ a ∈ name, decide (a ≠ '/') = true := by
    intro a ha
    apply decide_eq_true
    rintro rfl
    exact hname ha
  rw [List.takeWhile_append_of_pos hall]
  cases rest with
  | nil => simp
  | cons b rest =>
    obtain rfl : b = '/' := by simpa using hrest
    simp

theorem Under.eq {pre name name' l : CString} (h : Under pre name l) (h' : Under pre name' l)
    (hname : IsName name) (hname' : IsName name') : name = name' := by
  obtain ⟨rest,hl,hrest⟩ := h
  obtain ⟨rest',hl',hrest'⟩ := h'
  have heq : name ++ rest = name' ++ rest' := List.append_cancel_left (hl.symm.trans hl')
  rw [← takeWhile_name hname.2.1 hrest, heq, takeWhile_name hname'.2.1 hrest']

theorem under_line (pre name : CString) (x : Option D) : Under pre name (line pre name x) := by
  cases x with
  | none => exact ⟨[],by simp [line],Or.inl rfl⟩
  | some c => exact ⟨['/'],by simp [line],Or.inr rfl⟩

theorem Under.of_below {pre name name' l : CString} (h : Under (pre ++ name ++ ['/']) name' l) :
    Under pre name l := by
  obtain ⟨rest,rfl,-⟩ := h
  exact ⟨'/' :: (name' ++ rest),by simp,Or.inr rfl⟩

/-- Every line of a directory is under one of its names. -/
theorem exists_under {n : ℕ} {d : D} {len : ℕ} {pre l : CString}
    (h : l ∈ preorder t flagA n d len pre) : ∃ name, IsName name ∧ Under pre name l := by
  induction n generalizing d len pre with
  | zero => cases h
  | succ n ih =>
    obtain ⟨name,x,hx,-,-,hl⟩ := mem_preorder.mp h
    refine ⟨name,t.isName d _ hx,?_⟩
    rcases hl with rfl | ⟨c,-,hbelow⟩
    · exact under_line pre name x
    · obtain ⟨name',-,hunder⟩ := ih hbelow
      exact hunder.of_below

theorem under_of_mem_lines {n : ℕ} {d : D} {len : ℕ} {pre name l : CString}
    (hname : name ∈ names t flagA d) (h : l ∈ lines t (preorder t flagA n) d len pre name) :
    Under pre name l := by
  obtain ⟨⟨x,hx⟩,-⟩ := mem_names.mp hname
  obtain ⟨-,rfl | ⟨c,-,hbelow⟩⟩ := (mem_lines hx).mp h
  · exact under_line pre name x
  · obtain ⟨name',-,hunder⟩ := exists_under hbelow
    exact hunder.of_below

theorem preorder_nodup (n : ℕ) (d : D) (len : ℕ) (pre : CString) :
    (preorder t flagA n d len pre).Nodup := by
  induction n generalizing d len pre with
  | zero => exact List.nodup_nil
  | succ n ih =>
    rw [preorder, List.nodup_flatMap]
    constructor
    · intro name _
      unfold lines
      split
      · split
        · rename_i c _
          apply List.nodup_cons.mpr ⟨?_,ih c _ _⟩
          -- a line below the directory is longer than its own
          intro hmem
          obtain ⟨name',hname',rest,hl,-⟩ := exists_under hmem
          have hlength := congrArg List.length hl
          have hpos := List.length_pos_iff.mpr hname'.1
          simp only [List.length_append] at hlength
          omega
        · exact List.nodup_singleton _
      · exact List.nodup_nil
    · apply (names_nodup d).imp_of_mem
      intro a b ha hb hne l hla hlb
      exact hne ((under_of_mem_lines ha hla).eq (under_of_mem_lines hb hlb) (isName_of_mem ha)
        (isName_of_mem hb))

theorem Visited.trans {target path path' : CString} {root d d' : D}
    (h : Visited t flagA target root path d) (h' : Visited t flagA path d path' d') :
    Visited t flagA target root path' d' := by
  induction h' with
  | root => exact h
  | child _ hentry hshows hlength ih => exact ih.child hentry hshows hlength

/-- The first step of a way down. -/
theorem Visited.head {path path' : CString} {d d' : D} (h : Visited t flagA path d path' d') :
    path' = path ∧ d' = d ∨ ∃ name c, (name,some c) ∈ t.entries d ∧ shows flagA name = true ∧
      (path ++ '/' :: name).length ≤ pathMax - 1 ∧
      Visited t flagA (path ++ '/' :: name) c path' d' := by
  induction h with
  | root => exact Or.inl ⟨rfl,rfl⟩
  | child _ hentry hshows hlength ih =>
    rcases ih with ⟨rfl,rfl⟩ | ⟨first,c,hfirst,hshows',hlength',hrest⟩
    · exact Or.inr ⟨_,_,hentry,hshows,hlength,.root⟩
    · exact Or.inr ⟨first,c,hfirst,hshows',hlength',hrest.child hentry hshows hlength⟩

theorem Visited.begins {path path' : CString} {d d' : D} (h : Visited t flagA path d path' d') :
    ∃ rest, path' ++ ['/'] = path ++ '/' :: rest := by
  induction h with
  | root => exact ⟨[],rfl⟩
  | child _ _ _ _ ih =>
    rename_i way name d c _ _ _ _
    obtain ⟨rest,hrest⟩ := ih
    refine ⟨rest ++ name ++ ['/'],?_⟩
    have hsplit : way ++ '/' :: name ++ ['/'] = way ++ ['/'] ++ (name ++ ['/']) := by simp
    rw [hsplit, hrest]
    simp

theorem listed_of_mem {n : ℕ} {d : D} {path pre l : CString}
    (h : l ∈ preorder t flagA n d path.length pre) : Listed t flagA path pre d l := by
  induction n generalizing d path pre with
  | zero => cases h
  | succ n ih =>
    obtain ⟨name,x,hx,hshows,hfits,hl⟩ := mem_preorder.mp h
    rcases hl with rfl | ⟨c,rfl,hbelow⟩
    · exact ⟨path,d,[],name,x,.root,rfl,hx,hshows,hfits,by rw [List.append_nil]⟩
    · rw [← length_entry] at hbelow hfits
      obtain ⟨path',d',rest,last,x,hvisited,hpath,hlast⟩ := ih hbelow
      refine ⟨path',d',name ++ '/' :: rest,last,x,
        (Visited.root.child hx hshows hfits).trans hvisited,?_,?_⟩
      · rw [hpath, List.append_assoc, List.cons_append]
      · simpa using hlast

theorem mem_of_listed {n : ℕ} {d : D} {path pre l : CString} (hn : t.height d < n)
    (h : Listed t flagA path pre d l) : l ∈ preorder t flagA n d path.length pre := by
  induction n generalizing d path pre with
  | zero => omega
  | succ n ih =>
    obtain ⟨path',d',rest,name,x,hvisited,hpath,hx,hshows,hfits,rfl⟩ := h
    rw [mem_preorder]
    rcases hvisited.head with ⟨rfl,rfl⟩ | ⟨first,c,hfirst,hshows',hlength,hbelow⟩
    · obtain rfl : rest = [] := by simpa using hpath
      exact ⟨name,x,hx,hshows,hfits,Or.inl (by rw [List.append_nil])⟩
    · obtain ⟨rest',hrest⟩ := hbelow.begins
      have hlower := t.lower d first c hfirst
      rw [length_entry] at hlength
      refine ⟨first,some c,hfirst,hshows',hlength,Or.inr ⟨c,rfl,?_⟩⟩
      rw [← length_entry]
      apply ih (by omega)
      obtain rfl : rest = first ++ '/' :: rest' := by
        rw [hrest] at hpath
        simpa using hpath.symm
      exact ⟨path',d',rest',name,x,hbelow,hrest,hx,hshows,hfits,by simp⟩

theorem lists_listing {target : CString} {root : D} :
    Lists t flagA target root (listing t flagA target root) where
  order := rfl
  once := preorder_nodup _ _ _ _
  all _ := ⟨listed_of_mem,mem_of_listed (Nat.lt_succ_self _)⟩
  sorted _ := List.pairwise_insertionSort _ _

/-! ## Paths that are cut off -/

theorem pathMax_eq : pathMax = 4096 := rfl

theorem printed_of_le {text : CString} (h : text.length ≤ pathMax - 1) : printed text = text :=
  List.take_of_length_le h

/-- A path that has room for a slash keeps the beginning of the name. -/
theorem printed_path {path : CString} (h : path.length ≤ pathMax - 2) (name : CString) :
    printed (path ++ '/' :: name) = path ++ '/' :: name.take (pathMax - 2 - path.length) := by
  have hmax := pathMax_eq
  have hrest : pathMax - 1 - path.length = pathMax - 2 - path.length + 1 := by omega
  rw [printed, List.take_append, List.take_of_length_le (by omega), hrest, List.take_succ_cons]

/-- At the end of the buffer every entry has the path of its directory. -/
theorem locate_full {path : CString} {d : D} (h : locate t start path = .dir d)
    (hlength : pathMax - 2 ≤ path.length) (name : CString) :
    locate t start (printed (path ++ '/' :: name)) = .dir d ∧
      pathMax - 2 ≤ (printed (path ++ '/' :: name)).length := by
  have hmax := pathMax_eq
  have hle : path.length ≤ pathMax - 1 := DirTree.resolve_length_le h
  by_cases hroom : path.length = pathMax - 2
  · have hprinted : printed (path ++ '/' :: name) = path ++ ['/'] := by
      rw [printed_path hroom.le, hroom, Nat.sub_self, List.take_zero]
    have hlong : (path ++ ['/']).length ≤ pathMax - 1 := by
      rw [List.length_append, List.length_singleton]
      omega
    rw [hprinted]
    refine ⟨DirTree.resolve_stay h (Or.inl rfl) hlong,?_⟩
    rw [List.length_append]
    omega
  · have hprinted : printed (path ++ '/' :: name) = path := by
      rw [printed, List.take_append_of_le_length (by omega), List.take_of_length_le hle]
    rw [hprinted]
    exact ⟨h,hlength⟩

/-- The call for an entry that is a directory by its path. -/
theorem revealListDir_none {fuel : ℕ} {path pre name : CString} {d : D}
    (h : locate t start path = .dir d) (hname : name ∈ names t flagA d)
    (hdir : (locate t start (printed (path ++ '/' :: name))).isDir = true)
    (hnone : ∀ pre, revealListDir t start flagA true fuel (printed (path ++ '/' :: name)) pre =
      none) :
    revealListDir t start flagA true (fuel + 1) path pre = none := by
  rw [revealListDir, h]
  apply printAll_none hname
  simp only [if_true, hdir, hnone, Option.map_none]

/-- Such a directory with an entry is listed within itself without end. -/
theorem revealListDir_full {path name : CString} {d : D} (h : locate t start path = .dir d)
    (hlength : pathMax - 2 ≤ path.length) (hname : name ∈ names t flagA d) (fuel : ℕ)
    (pre : CString) : revealListDir t start flagA true fuel path pre = none := by
  induction fuel generalizing path pre with
  | zero => rfl
  | succ fuel ih =>
    obtain ⟨hfull,hlength'⟩ := locate_full h hlength name
    apply revealListDir_none h hname
    · rw [hfull]
      rfl
    · exact ih hfull hlength'

/-- An entry whose name is cut off to one that leads to a directory with an entry. -/
theorem revealListDir_cut {path name part name' : CString} {d c : D}
    (h : locate t start path = .dir d) (hname : name ∈ names t flagA d)
    (hlength : path.length + 1 + part.length = pathMax - 1) (hpart : part <+: name)
    (hlocate : locate t start (path ++ '/' :: part) = .dir c) (hname' : name' ∈ names t flagA c)
    (fuel : ℕ) (pre : CString) : revealListDir t start flagA true fuel path pre = none := by
  have hmax := pathMax_eq
  cases fuel with
  | zero => rfl
  | succ fuel =>
    have htake : name.take (pathMax - 2 - path.length) = part := by
      have hroom : pathMax - 2 - path.length = part.length := by omega
      rw [hroom, ← List.prefix_iff_eq_take.mp hpart]
    have hprinted : printed (path ++ '/' :: name) = path ++ '/' :: part := by
      rw [printed_path (by omega), htake]
    apply revealListDir_none h hname
    · rw [hprinted, hlocate]
      rfl
    · intro pre
      rw [hprinted]
      apply revealListDir_full hlocate _ hname'
      rw [length_entry]
      omega

/-! ## Runs that do not end -/

/-- A directory that is an entry of its parent, or is its own parent, gives the parent an
entry. -/
theorem exists_mem_names_parent {d : D} {name : CString} (hname : name ∈ names t flagA d)
    (hdots : ['.','.'] <+: name) : ∃ name', name' ∈ names t flagA (t.parent d) := by
  have hflag : flagA = true := by
    obtain ⟨rest,rfl⟩ := hdots
    simpa [shows] using (mem_names.mp hname).2
  rcases t.above d with hself | ⟨name',hentry⟩
  · rw [hself]
    exact ⟨name,hname⟩
  · exact ⟨name',mem_names.mpr ⟨⟨_,hentry⟩,by simp [shows, hflag]⟩⟩

/-- A directory that is not safe. -/
theorem exists_not_safe {target : CString} {root : D} (h : ¬ Safe t flagA target root)
    (hroot : locate t start target = .dir root) :
    ∃ path d, Visited t flagA target root path d ∧
      ∀ fuel pre, revealListDir t start flagA true fuel path pre = none := by
  have hmax := pathMax_eq
  by_contra hall
  apply h
  constructor
  · intro path d hvisited hlength
    by_contra hne
    obtain ⟨name,hname⟩ := List.exists_mem_of_ne_nil _ hne
    exact hall ⟨path,d,hvisited,revealListDir_full (visited_locate hroot hvisited) hlength hname⟩
  · intro path d hvisited hlength name hname hdot
    have hlocate := visited_locate hroot hvisited
    have hstay := DirTree.resolve_stay hlocate (Or.inr rfl) (by simp; omega)
    exact hall ⟨path,d,hvisited,
      revealListDir_cut hlocate hname (by simp; omega) hdot hstay hname⟩
  · intro path d hvisited hlength name hname hdots
    have hlocate := visited_locate hroot hvisited
    have hparent := DirTree.resolve_parent hlocate (by simp; omega)
    obtain ⟨name',hname'⟩ := exists_mem_names_parent hname hdots
    exact hall ⟨path,d,hvisited,
      revealListDir_cut hlocate hname (by simp; omega) hdots hparent hname'⟩

/-- A call that does not return keeps the calls above it from returning. -/
theorem visited_none {target path : CString} {root d : D}
    (hroot : locate t start target = .dir root) (h : Visited t flagA target root path d)
    (hnone : ∀ fuel pre, revealListDir t start flagA true fuel path pre = none) (fuel : ℕ)
    (pre : CString) : revealListDir t start flagA true fuel target pre = none := by
  induction h generalizing fuel pre with
  | root => exact hnone fuel pre
  | child hvisited hentry hshows hlength ih =>
    apply ih
    intro fuel pre
    cases fuel with
    | zero => rfl
    | succ fuel =>
      have hchild := visited_locate hroot (hvisited.child hentry hshows hlength)
      apply revealListDir_none (visited_locate hroot hvisited)
        (mem_names.mpr ⟨⟨_,hentry⟩,hshows⟩)
      · rw [printed_of_le hlength, hchild]
        rfl
      · rw [printed_of_le hlength]
        exact hnone fuel

/-! ## Runs that end -/

theorem fits_directory (target pre name : CString) :
    fits target (pre ++ name ++ ['/']) =
      decide (target.length + pre.length + 1 + name.length ≤ pathMax - 1) := by
  unfold fits
  rw [List.getLast?_concat, if_pos rfl, List.length_append, List.length_append,
    List.length_singleton]
  congr 1
  simp only [eq_iff_iff]
  omega

theorem fits_file {name : CString} (h : IsName name) (target pre : CString) :
    fits target (pre ++ name) =
      decide (target.length + pre.length + 1 + name.length ≤ pathMax - 1) := by
  have hlast : (pre ++ name).getLast? ≠ some '/' := by
    intro hslash
    rw [List.getLast?_append_of_ne_nil _ h.1] at hslash
    exact h.2.1 (List.mem_of_getLast? hslash)
  unfold fits
  rw [if_neg hlast, List.length_append]
  congr 1
  simp only [eq_iff_iff]
  omega

theorem shows_take {name : CString} {j : ℕ} (hj : 0 < j) :
    shows flagA (name.take j) = shows flagA name := by
  have hhead : (name.take j).head? = name.head? := by
    rw [List.head?_take, if_neg (by omega)]
  rw [shows, shows, hhead]

section
variable {target : CString} {root : D} (hsafe : Safe t flagA target root)
include hsafe

/-- The part of a name that is left is a name. -/
theorem isName_cut {path name : CString} {d : D} (hvisited : Visited t flagA target root path d)
    (hname : name ∈ names t flagA d) (hroom : path.length < pathMax - 2)
    (hcut : pathMax - 1 < path.length + 1 + name.length) :
    IsName (name.take (pathMax - 2 - path.length)) := by
  have hmax := pathMax_eq
  have hlength : (name.take (pathMax - 2 - path.length)).length = pathMax - 2 - path.length := by
    rw [List.length_take]
    omega
  have hbegins := List.take_prefix (pathMax - 2 - path.length) name
  refine ⟨fun hnil => ?_,fun hslash => ?_,fun hdot => ?_,fun hdots => ?_⟩
  · rw [hnil, List.length_nil] at hlength
    omega
  · exact (isName_of_mem hname).2.1 (List.mem_of_mem_take hslash)
  · rw [hdot] at hlength hbegins
    rw [List.length_singleton] at hlength
    exact hsafe.dot path d hvisited (by omega) name hname hbegins
  · rw [hdots] at hlength hbegins
    rw [List.length_cons, List.length_singleton] at hlength
    exact hsafe.dots path d hvisited (by omega) name hname hbegins

variable (hroot : locate t start target = .dir root)
include hroot

/-- A path that is cut off leads to no directory, or to one without entries. -/
theorem cut_lists_nothing {path name : CString} {d : D}
    (hvisited : Visited t flagA target root path d) (hname : name ∈ names t flagA d)
    (hcut : pathMax - 1 < path.length + 1 + name.length) {n : ℕ} (hn : t.height d ≤ n)
    (hdir : (locate t start (printed (path ++ '/' :: name))).isDir = true) (pre : CString) :
    revealListDir t start flagA true n (printed (path ++ '/' :: name)) pre = some [] := by
  have hmax := pathMax_eq
  have hroom : path.length < pathMax - 2 := by
    by_contra hfull
    rw [hsafe.full path d hvisited (by omega)] at hname
    cases hname
  have hisName := isName_cut hsafe hvisited hname hroom hcut
  rw [printed_path hroom.le] at hdir ⊢
  generalize hpart : name.take (pathMax - 2 - path.length) = part at hdir hisName ⊢
  have hlength : (path ++ '/' :: part).length = pathMax - 1 := by
    rw [← hpart, length_entry, List.length_take]
    omega
  have hentry := DirTree.resolve_entry (visited_locate hroot hvisited) hisName hlength.le
  cases hfound : t.entry d part with
  | missing =>
    rw [locate, hentry, hfound] at hdir
    cases hdir
  | file =>
    rw [locate, hentry, hfound] at hdir
    cases hdir
  | dir c =>
    have hmem := DirTree.mem_of_entry_dir hfound
    have hshows : shows flagA part = true := by
      rw [← hpart, shows_take (by omega)]
      exact (mem_names.mp hname).2
    have hempty := hsafe.full _ c (hvisited.child hmem hshows hlength.le) (by omega)
    have hlower := t.lower d part c hmem
    cases n with
    | zero => omega
    | succ n =>
      rw [revealListDir, locate, hentry, hfound]
      simp only [hempty]
      rfl

/-- What is printed for an entry whose path is cut off. -/
theorem cut_prints {path pre name : CString} {d : D} (hvisited : Visited t flagA target root path d)
    (hname : name ∈ names t flagA d) (hcut : ¬ path.length + 1 + name.length ≤ pathMax - 1) {n : ℕ}
    (hn : t.height d ≤ n) (hpre : target.length + pre.length = path.length) :
    ∃ out, (if (locate t start (printed (path ++ '/' :: name))).isDir then
        (revealListDir t start flagA true n (printed (path ++ '/' :: name))
          (printed (pre ++ name ++ ['/']))).map fun below => (pre ++ name ++ ['/']) :: below
        else some [pre ++ name]) = some out ∧ out.filter (fits target) = [] := by
  have hline : fits target (pre ++ name) = false := by
    rw [fits_file (isName_of_mem hname), hpre]
    exact decide_eq_false hcut
  have hline' : fits target (pre ++ name ++ ['/']) = false := by
    rw [fits_directory, hpre]
    exact decide_eq_false hcut
  split
  · next hdir =>
    rw [cut_lists_nothing hsafe hroot hvisited hname (Nat.lt_of_not_le hcut) hn hdir]
    refine ⟨_,rfl,?_⟩
    rw [List.filter_cons_of_neg (by rw [hline']; exact Bool.false_ne_true), List.filter_nil]
  · exact ⟨_,rfl,by simp [hline]⟩

/-- The call for a directory prints the listing below it, as far as the paths can be opened. -/
theorem revealListDir_safe {n : ℕ} {path pre : CString} {d : D}
    (hvisited : Visited t flagA target root path d) (hn : t.height d < n)
    (hpre : target.length + pre.length = path.length) :
    ∃ out, revealListDir t start flagA true n path pre = some out ∧
      out.filter (fits target) = preorder t flagA n d path.length pre := by
  have hmax := pathMax_eq
  induction n generalizing path pre d with
  | zero => omega
  | succ n ih =>
    rw [revealListDir, visited_locate hroot hvisited]
    apply printAll_filter
    intro name hname
    have hisName := isName_of_mem hname
    unfold lines
    simp only [if_true]
    by_cases hfits : path.length + 1 + name.length ≤ pathMax - 1
    · have hlength : (path ++ '/' :: name).length ≤ pathMax - 1 := by
        rw [length_entry]
        exact hfits
      have hentry := DirTree.resolve_entry (visited_locate hroot hvisited) hisName hlength
      have hline := fits_file hisName target pre
      have hline' := fits_directory target pre name
      rw [hpre, decide_eq_true hfits] at hline hline'
      rw [printed_of_le hlength, if_pos hfits, locate, hentry]
      cases hfound : t.entry d name with
      | missing => exact ⟨_,rfl,by simp [hline]⟩
      | file => exact ⟨_,rfl,by simp [hline]⟩
      | dir c =>
        have hmem := DirTree.mem_of_entry_dir hfound
        have hchild := hvisited.child hmem (mem_names.mp hname).2 hlength
        have hlower := t.lower d name c hmem
        have hpre' : target.length + (pre ++ name ++ ['/']).length =
            (path ++ '/' :: name).length := by
          simp only [List.length_append, List.length_cons, List.length_nil]
          omega
        obtain ⟨below,hbelow,hfilter⟩ := ih hchild (by omega) hpre'
        rw [printed_of_le (by omega), hbelow]
        refine ⟨_,rfl,?_⟩
        rw [List.filter_cons_of_pos hline', hfilter, length_entry]
    · rw [if_neg hfits]
      exact cut_prints hsafe hroot hvisited hname hfits (Nat.le_of_lt_succ hn) hpre

end

/-- `reveal -t` returns with the listing of the tree exactly when no path is cut off to the
path of a directory that has entries. -/
theorem reveal_tree_iff {target : CString} {root : D}
    (hroot : locate t start target = .dir root) :
    (∃ fuel out, revealListDir t start flagA true fuel target [] = some out ∧
        Lists t flagA target root (out.filter (fits target))) ↔
      Safe t flagA target root := by
  constructor
  · rintro ⟨fuel,out,hrun,-⟩
    by_contra hunsafe
    obtain ⟨path,d,hvisited,hnone⟩ := exists_not_safe hunsafe hroot
    rw [visited_none hroot hvisited hnone] at hrun
    cases hrun
  · intro hsafe
    obtain ⟨out,hrun,hfilter⟩ : ∃ out, revealListDir t start flagA true (t.height root + 1)
        target [] = some out ∧ out.filter (fits target) = listing t flagA target root :=
      revealListDir_safe hsafe hroot .root (Nat.lt_succ_self _) rfl
    refine ⟨_,out,hrun,?_⟩
    rw [hfilter]
    exact lists_listing

end

/-! ## A path at the end of the buffer -/

/-- The names of fifteen directories within each other, of 255 bytes each, and of a last one. -/
def chainName (last i : ℕ) : CString := .replicate (if i < 15 then 255 else last + 1) 'a'

theorem isName_chainName (last i : ℕ) : IsName (chainName last i) := by
  have hletters : ∀ a ∈ chainName last i, a = 'a' := fun a ha => List.eq_of_mem_replicate ha
  have hpos : (chainName last i).length ≠ 0 := by
    rw [chainName, List.length_replicate]
    split <;> omega
  refine ⟨fun h => ?_,fun h => ?_,fun h => ?_,fun h => ?_⟩
  · exact hpos (by rw [h]; rfl)
  · exact absurd (hletters _ h) (by decide)
  · exact absurd (hletters '.' (by rw [h]; simp)) (by decide)
  · exact absurd (hletters '.' (by rw [h]; simp)) (by decide)

/-- The sixteen directories, below the root, with one file in the last. -/
def chain (last : ℕ) : DirTree ℕ where
  entries i :=
    if i < 16 then [(chainName last i,some (i + 1))] else if i = 16 then [(['x'],none)] else []
  parent i := if i ≤ 16 then i - 1 else i
  height i := 16 - i
  isName i e he := by
    split at he
    · obtain rfl := List.mem_singleton.mp he
      exact isName_chainName last i
    · split at he
      · obtain rfl := List.mem_singleton.mp he
        simp [IsName]
      · cases he
  distinct i := by
    split
    · simp
    · split <;> simp
  lower i name c h := by
    split at h
    · simp at h
      omega
    · split at h <;> simp at h
  below i name c h := by
    split at h
    · simp at h
      rw [if_pos (by omega)]
      omega
    · split at h <;> simp at h
  above i := by
    by_cases hi : i ≤ 16
    · rw [if_pos hi]
      by_cases hzero : i = 0
      · exact Or.inl (by omega)
      · have hprev : i - 1 + 1 = i := by omega
        rw [if_pos (by omega), hprev]
        exact Or.inr ⟨_,List.mem_singleton.mpr rfl⟩
    · exact Or.inl (if_neg hi)

def chainPath (last : ℕ) : ℕ → CString
  | 0 => ['/']
  | i + 1 => chainPath last i ++ '/' :: chainName last i

theorem chain_root (last : ℕ) : locate (chain last) 0 ['/'] = .dir 0 := rfl

theorem chainPath_length (last : ℕ) {i : ℕ} (h : i ≤ 15) :
    (chainPath last i).length = 256 * i + 1 := by
  induction i with
  | zero => rfl
  | succ i ih =>
    rw [chainPath, length_entry, chainName, List.length_replicate, if_pos (by omega),
      ih (by omega)]
    omega

theorem chainPath_length_last (last : ℕ) : (chainPath last 16).length = 3843 + last := by
  rw [chainPath, length_entry, chainName, List.length_replicate, if_neg (by omega),
    chainPath_length last (Nat.le_refl 15)]
  omega

theorem chain_visited {last : ℕ} (hlast : last ≤ 252) {i : ℕ} (h : i ≤ 16) :
    Visited (chain last) false ['/'] 0 (chainPath last i) i := by
  have hmax := pathMax_eq
  induction i with
  | zero => exact .root
  | succ i ih =>
    apply (ih (by omega)).child
    · simp [chain, show i < 16 by omega]
    · unfold chainName
      split <;> rfl
    · by_cases hi : i < 15
      · have hlength := chainPath_length last (show i + 1 ≤ 15 from hi)
        rw [chainPath] at hlength
        omega
      · obtain rfl : i = 15 := by omega
        have hlength := chainPath_length_last last
        rw [chainPath] at hlength
        omega

theorem mem_names_chain (last : ℕ) : ['x'] ∈ names (chain last) false 16 :=
  mem_names.mpr ⟨⟨none,by simp [chain]⟩,rfl⟩

theorem chain_name_length (i : ℕ) :
    ∀ e ∈ (chain 251).entries i, e.1.length ≤ 255 := by
  intro e he
  simp only [chain] at he
  split at he
  · obtain rfl := List.mem_singleton.mp he
    rw [chainName, List.length_replicate]
    split <;> omega
  · split at he
    · obtain rfl := List.mem_singleton.mp he
      exact Nat.le_of_ble_eq_true rfl
    · cases he

/-- Names of at most 255 bytes, and a directory whose path has 4094: the run does not end. -/
theorem reveal_tree_endless :
    (∀ i, ∀ e ∈ (chain 251).entries i, e.1.length ≤ 255) ∧
      locate (chain 251) 0 ['/'] = .dir 0 ∧
      ∀ fuel, revealListDir (chain 251) 0 false true fuel ['/'] [] = none := by
  refine ⟨chain_name_length,chain_root 251,?_⟩
  have hvisited : Visited (chain 251) false ['/'] 0 (chainPath 251 16) 16 :=
    chain_visited (by omega) (Nat.le_refl 16)
  have hlength := chainPath_length_last 251
  intro fuel
  exact visited_none (chain_root 251) hvisited
    (revealListDir_full (visited_locate (chain_root 251) hvisited) hlength.ge
      (mem_names_chain 251)) fuel []

theorem chain_visited_path {last : ℕ} {path : CString} {d : ℕ}
    (h : Visited (chain last) false ['/'] 0 path d) : path = chainPath last d ∧ d ≤ 16 := by
  induction h with
  | root => exact ⟨rfl,Nat.zero_le 16⟩
  | child _ hentry _ _ ih =>
    obtain ⟨rfl,-⟩ := ih
    simp only [chain] at hentry
    split at hentry
    · obtain ⟨rfl,rfl⟩ : _ ∧ _ := by simpa using hentry
      exact ⟨rfl,by omega⟩
    · split at hentry <;> simp at hentry

theorem chain_path_length {path : CString} {d : ℕ}
    (h : Visited (chain 250) false ['/'] 0 path d) :
    path.length ≤ pathMax - 3 ∧ path.length ≠ pathMax - 4 := by
  have hmax := pathMax_eq
  obtain ⟨rfl,hd⟩ := chain_visited_path h
  by_cases hlast : d = 16
  · have hlength := chainPath_length_last 250
    rw [hlast]
    omega
  · have hlength := chainPath_length 250 (show d ≤ 15 by omega)
    omega

theorem chain_safe : Safe (chain 250) false ['/'] 0 := by
  have hmax := pathMax_eq
  constructor
  · intro path d hvisited hlength
    obtain ⟨hle,-⟩ := chain_path_length hvisited
    omega
  · intro path d hvisited hlength name hname hdot
    obtain ⟨rest,rfl⟩ := hdot
    have hshows := (mem_names.mp hname).2
    simp [shows] at hshows
  · intro path d hvisited hlength
    exact absurd hlength (chain_path_length hvisited).2

/-- With a path of one byte less it does. -/
theorem reveal_tree_ends :
    ∃ fuel out, revealListDir (chain 250) 0 false true fuel ['/'] [] = some out ∧
      Lists (chain 250) false ['/'] 0 (out.filter (fits ['/'])) :=
  (reveal_tree_iff (chain_root 250)).mpr chain_safe

end CShellXv6.Reveal
