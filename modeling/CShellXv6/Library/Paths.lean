import Mathlib.Data.List.Nodup
import Mathlib.Data.Nat.Notation

/-! # Directory trees and the paths through them

A tree has the directories as the elements of a type. An entry of a directory has a name
and leads to a directory or to another file; directories lie below each other in a finite
height, and `..` leads to the directory that a directory is an entry of. A path is resolved
part by part, and paths above a limit are rejected.
-/
namespace CShellXv6.Paths
variable {D : Type*}

/-- A name that an entry can have. -/
def IsName (name : List Char) : Prop :=
  name ≠ [] ∧ '/' ∉ name ∧ name ≠ ['.'] ∧ name ≠ ['.','.']

structure DirTree (D : Type*) where
  entries : D → List (List Char × Option D)
  parent : D → D
  height : D → ℕ
  isName : ∀ d, ∀ e ∈ entries d, IsName e.1
  distinct : ∀ d, ((entries d).map Prod.fst).Nodup
  lower : ∀ d name c, (name,some c) ∈ entries d → height c < height d
  below : ∀ d name c, (name,some c) ∈ entries d → parent c = d
  above : ∀ d, parent d = d ∨ ∃ name, (name,some d) ∈ entries (parent d)

inductive Found (D : Type*)
  | missing
  | file
  | dir (d : D)

def Found.isDir : Found D → Bool
  | .dir _ => true
  | _ => false

/-- What an entry leads to. -/
def Found.ofEntry : Option D → Found D
  | some c => .dir c
  | none => .file

namespace DirTree
variable (t : DirTree D)

def entry (d : D) (name : List Char) : Found D :=
  match (t.entries d).find? (fun e => e.1 = name) with
  | some e => .ofEntry e.2
  | none => .missing

/-- One part of a path; only a directory can be gone through. -/
def follow (found : Found D) (part : List Char) : Found D :=
  match found with
  | .dir d =>
    if part = [] ∨ part = ['.'] then .dir d
    else if part = ['.','.'] then .dir (t.parent d)
    else t.entry d part
  | _ => .missing

def resolve (limit : ℕ) (start : D) (path : List Char) : Found D :=
  if path = [] ∨ limit < path.length then .missing
  else (path.splitOn '/').foldl t.follow (.dir start)

variable {t}

theorem entry_of_mem {d : D} {name : List Char} {x : Option D} (h : (name,x) ∈ t.entries d) :
    t.entry d name = .ofEntry x := by
  have hfind : (t.entries d).find? (fun e => e.1 = name) = some (name,x) := by
    obtain ⟨before,after,hsplit⟩ := List.append_of_mem h
    have hdistinct := t.distinct d
    rw [hsplit, List.map_append, List.map_cons, List.nodup_append] at hdistinct
    rw [hsplit, List.find?_append]
    have hbefore : before.find? (fun e => e.1 = name) = none := by
      rw [List.find?_eq_none]
      intro e he heq
      exact hdistinct.2.2 e.1 (List.mem_map_of_mem he) name List.mem_cons_self (by simpa using heq)
    rw [hbefore]
    simp
  rw [entry, hfind]

theorem mem_of_entry_dir {d c : D} {name : List Char} (h : t.entry d name = .dir c) :
    (name,some c) ∈ t.entries d := by
  unfold entry at h
  cases hfind : (t.entries d).find? (fun e => e.1 = name) with
  | none =>
    rw [hfind] at h
    cases h
  | some e =>
    obtain ⟨name',x⟩ := e
    have hname : name' = name := by simpa using List.find?_some hfind
    rw [hfind] at h
    cases x with
    | none => cases h
    | some c' =>
      cases h
      rw [← hname]
      exact List.mem_of_find?_eq_some hfind

section
variable {limit : ℕ} {start d : D} {path part : List Char}

theorem resolve_ne_nil (h : t.resolve limit start path = .dir d) : path ≠ [] := by
  rintro rfl
  simp [resolve] at h

theorem resolve_length_le (h : t.resolve limit start path = .dir d) : path.length ≤ limit := by
  by_contra hlong
  rw [resolve, if_pos (Or.inr (Nat.lt_of_not_le hlong))] at h
  cases h

/-- One more part behind a path. -/
theorem resolve_append (hpath : path ≠ []) (hpart : '/' ∉ part)
    (hlength : (path ++ '/' :: part).length ≤ limit) :
    t.resolve limit start (path ++ '/' :: part) = t.follow (t.resolve limit start path) part := by
  have hshort : ¬ (path = [] ∨ limit < path.length) := by
    rw [List.length_append] at hlength
    exact not_or.mpr ⟨hpath,by omega⟩
  have hlong : ¬ (path ++ '/' :: part = [] ∨ limit < (path ++ '/' :: part).length) :=
    not_or.mpr ⟨by simp,by omega⟩
  have hparts : (path ++ '/' :: part).splitOn '/' = path.splitOn '/' ++ [part] := by
    rw [List.splitOn, List.splitOnP_append_cons _ _ (by simp)]
    exact congrArg _ (List.splitOn_eq_singleton hpart)
  rw [resolve, resolve, if_neg hshort, if_neg hlong, hparts, List.foldl_append]
  rfl

theorem resolve_entry (h : t.resolve limit start path = .dir d) (hpart : IsName part)
    (hlength : (path ++ '/' :: part).length ≤ limit) :
    t.resolve limit start (path ++ '/' :: part) = t.entry d part := by
  obtain ⟨hne,hslash,hdot,hdotdot⟩ := hpart
  rw [resolve_append (resolve_ne_nil h) hslash hlength, h, follow, if_neg (by simp [hne, hdot]),
    if_neg hdotdot]

theorem resolve_stay (h : t.resolve limit start path = .dir d)
    (hpart : part = [] ∨ part = ['.']) (hlength : (path ++ '/' :: part).length ≤ limit) :
    t.resolve limit start (path ++ '/' :: part) = .dir d := by
  have hslash : '/' ∉ part := by rcases hpart with rfl | rfl <;> simp
  rw [resolve_append (resolve_ne_nil h) hslash hlength, h, follow, if_pos hpart]

theorem resolve_parent (h : t.resolve limit start path = .dir d)
    (hlength : (path ++ ['/','.','.']).length ≤ limit) :
    t.resolve limit start (path ++ ['/','.','.']) = .dir (t.parent d) := by
  rw [resolve_append (resolve_ne_nil h) (by simp) hlength, h]
  rfl

end

end DirTree

end CShellXv6.Paths
