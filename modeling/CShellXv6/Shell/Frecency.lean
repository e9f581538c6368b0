import CShellXv6.Library.Ranking
import CShellXv6.Library.Transition
import CShellXv6.Shell.History
import Mathlib.Data.List.Infix
import Mathlib.Data.List.FinRange

/-! # The history of `hop`

The table `db` of visited directories, which `update_frecency` keeps and
`frecency_lookup` searches. The clock does not move during a call, scores are in the range
of `int`, and the file that `save_history` writes after each update is left out.
-/
namespace CShellXv6.Frecency
open Lexer History
open Resolve (pathMax)

def weight (elapsed : ℤ) : ℤ :=
  if elapsed < 3600 then 400
  else if elapsed < 86400 then 200
  else if elapsed < 604800 then 100
  else 50

def score (now : ℤ) (e : Entry) : ℤ := e.frequency * weight (now - e.lastAccess)

/-! ## Updating -/

def Entry.visit (e : Entry) (now : ℤ) : Entry :=
  { e with frequency := e.frequency + 1, lastAccess := now }

/-- The loop over the entries; `none` when none of them has the path. -/
def visitSeen (now : ℤ) (absPath : CString) : List Entry → Option (List Entry)
  | [] => none
  | e :: rest =>
    if e.path = absPath then some (Entry.visit e now :: rest)
    else (visitSeen now absPath rest).map (e :: ·)

/-- The entry of a path that was not in the table; `strncpy` copies what fits. -/
def newEntry (now : ℤ) (absPath : CString) : Entry := ⟨absPath.take (pathMax - 1),1,now⟩

def updateFrecency (now : ℤ) (absPath : CString) (db : List Entry) : List Entry :=
  match visitSeen now absPath db with
  | some db => db
  | none =>
    if db.length < maxEntries then db ++ [newEntry now absPath]
    else db.set (Ranking.minIdx (score now) db) (newEntry now absPath)

/-- What a visit of a path makes of the table. -/
inductive Updated (now : ℤ) (absPath : CString) : List Entry → List Entry → Prop
  | seen (before : List Entry) (e : Entry) (after : List Entry) (hpath : e.path = absPath) :
      Updated now absPath (before ++ e :: after)
        (before ++ ⟨absPath,e.frequency + 1,now⟩ :: after)
  | added (db : List Entry) (hnew : absPath ∉ db.map Entry.path) (hroom : db.length < maxEntries) :
      Updated now absPath db (db ++ [⟨absPath,1,now⟩])
  | replaced (before : List Entry) (e : Entry) (after : List Entry)
      (hnew : absPath ∉ (before ++ e :: after).map Entry.path)
      (hfull : (before ++ e :: after).length = maxEntries)
      (hlowest : ∀ other ∈ before ++ e :: after, score now e ≤ score now other) :
      Updated now absPath (before ++ e :: after) (before ++ ⟨absPath,1,now⟩ :: after)

theorem visitSeen_some {now : ℤ} {absPath : CString} {db db' : List Entry}
    (h : visitSeen now absPath db = some db') : Updated now absPath db db' := by
  suffices hsplit : ∃ before e after, e.path = absPath ∧ db = before ++ e :: after ∧
      db' = before ++ ⟨absPath,e.frequency + 1,now⟩ :: after by
    obtain ⟨before,e,after,hpath,rfl,rfl⟩ := hsplit
    exact .seen before e after hpath
  induction db generalizing db' with
  | nil => cases h
  | cons e rest ih =>
    rw [visitSeen] at h
    split at h
    · next hpath =>
      cases h
      exact ⟨[],e,rest,hpath,rfl,by rw [← hpath]; rfl⟩
    · obtain ⟨rest',hrest,rfl⟩ := Option.map_eq_some_iff.mp h
      obtain ⟨before,e',after,hpath,rfl,rfl⟩ := ih hrest
      exact ⟨e :: before,e',after,hpath,rfl,rfl⟩

theorem visitSeen_none {now : ℤ} {absPath : CString} {db : List Entry}
    (h : visitSeen now absPath db = none) : absPath ∉ db.map Entry.path := by
  induction db with
  | nil => exact List.not_mem_nil
  | cons e rest ih =>
    rw [visitSeen] at h
    split at h
    · cases h
    · next hpath =>
      rw [List.map_cons]
      exact List.not_mem_cons_of_ne_of_not_mem (Ne.symm hpath) (ih (Option.map_eq_none_iff.mp h))

theorem newEntry_eq (now : ℤ) {absPath : CString} (h : absPath.length ≤ pathMax - 1) :
    newEntry now absPath = ⟨absPath,1,now⟩ := by
  rw [newEntry, List.take_of_length_le h]

theorem updateFrecency_updated (now : ℤ) {absPath : CString} (h : absPath.length ≤ pathMax - 1)
    {db : List Entry} (hdb : db.length ≤ maxEntries) :
    Updated now absPath db (updateFrecency now absPath db) := by
  unfold updateFrecency
  cases hseen : visitSeen now absPath db with
  | some db' => exact visitSeen_some hseen
  | none =>
    have hnew := visitSeen_none hseen
    dsimp only
    rw [newEntry_eq now h]
    split
    · next hroom => exact .added db hnew hroom
    · next hfull =>
      have hlength : db.length = maxEntries := by omega
      have hne : db ≠ [] := by
        rintro rfl
        cases hlength
      obtain ⟨e,⟨before,after,hsplit,hindex⟩,hlowest⟩ := Ranking.minIdx_lowest (score now) hne
      have hset : db.set (Ranking.minIdx (score now) db) ⟨absPath,1,now⟩ =
          before ++ ⟨absPath,1,now⟩ :: after := by
        rw [← hindex, hsplit, List.set_append_right _ _ le_rfl, Nat.sub_self]
        rfl
      rw [hset]
      subst hsplit
      exact .replaced before e after hnew hlength hlowest

/-! ## Every table that calls can make -/

/-- Each path once, and not more entries than there is room for. -/
structure Sound (db : List Entry) : Prop where
  distinct : (db.map Entry.path).Nodup
  bounded : db.length ≤ maxEntries

/-- The path in the middle may be exchanged for one that is not there. -/
theorem nodup_exchange {α : Type*} {before after : List α} {a b : α}
    (h : (before ++ a :: after).Nodup) (hb : b ∉ before ++ a :: after) :
    (before ++ b :: after).Nodup := by
  rw [List.nodup_middle] at h ⊢
  obtain ⟨_,hrest⟩ := List.nodup_cons.mp h
  apply List.nodup_cons.mpr
  refine ⟨fun hmem => hb ?_,hrest⟩
  rcases List.mem_append.mp hmem with hbefore | hafter
  · exact List.mem_append_left _ hbefore
  · exact List.mem_append_right _ (List.mem_cons_of_mem _ hafter)

theorem Updated.sound {now : ℤ} {absPath : CString} {db db' : List Entry}
    (h : Updated now absPath db db') (hdb : Sound db) : Sound db' := by
  obtain ⟨hdistinct,hbounded⟩ := hdb
  cases h with
  | seen before e after hpath =>
    constructor
    · rw [List.map_append, List.map_cons] at hdistinct ⊢
      rwa [hpath] at hdistinct
    · simpa using hbounded
  | added _ hnew hroom =>
    constructor
    · rw [List.map_append, List.map_singleton, List.nodup_append]
      refine ⟨hdistinct,List.nodup_singleton _,fun p hp q hq => ?_⟩
      rw [List.mem_singleton.mp hq]
      rintro rfl
      exact hnew hp
    · rw [List.length_append]
      exact hroom
  | replaced before e after hnew hfull hlowest =>
    rw [List.map_append, List.map_cons] at hdistinct hnew
    constructor
    · rw [List.map_append, List.map_cons]
      exact nodup_exchange hdistinct hnew
    · simpa using hbounded

/-- Calls of `update_frecency` with a path and the clock. -/
def step (db : List Entry) (call : CString × ℤ) : Option (List Entry) :=
  some (updateFrecency call.2 call.1 db)

/-- The path that `getcwd` can give to a call. -/
def Fits (_ : List Entry) (call : CString × ℤ) : Prop := call.1.length ≤ pathMax - 1

theorem runs_sound {db : List Entry} (hr : Transition.Runs step Fits [] db) : Sound db := by
  apply hr.invariant ⟨List.nodup_nil,Nat.zero_le _⟩
  intro db call db' hdb hfits hstep
  cases hstep
  exact (updateFrecency_updated call.2 hfits hdb.bounded).sound hdb

/-- In every table that calls can make each path occurs once and there is room for the
entries, and the next call changes the entry of its path and no other one. -/
theorem frecency_update {db : List Entry} (hr : Transition.Runs step Fits [] db) :
    ((db.map Entry.path).Nodup ∧ db.length ≤ maxEntries) ∧
      ∀ (now : ℤ) (absPath : CString), absPath.length ≤ pathMax - 1 →
        Updated now absPath db (updateFrecency now absPath db) := by
  have hsound := runs_sound hr
  refine ⟨⟨hsound.distinct,hsound.bounded⟩,fun now absPath hfits => ?_⟩
  exact updateFrecency_updated now hfits hsound.bounded

theorem frecency_update_again :
    updateFrecency 90 "/a".toList [⟨"/b".toList,1,10⟩,⟨"/a".toList,3,20⟩] =
        [⟨"/b".toList,1,10⟩,⟨"/a".toList,4,90⟩] ∧
      Updated 90 "/a".toList [⟨"/a".toList,1,50⟩]
        (updateFrecency 90 "/a".toList [⟨"/a".toList,1,50⟩]) := by
  have hrun : Transition.Runs step Fits [] [⟨"/a".toList,1,50⟩] :=
    .single (e := ("/a".toList,50)) (by unfold Fits; decide) (by decide +kernel)
  exact ⟨by decide +kernel,(frecency_update hrun).2 90 "/a".toList (by decide)⟩

/-! ## Looking up -/

/-- Whether `strstr` finds the name. -/
def strstr (path name : CString) : Bool := path.tails.any name.isPrefixOf

theorem strstr_iff {path name : CString} : strstr path name = true ↔ name <:+: path := by
  simp [strstr, List.infix_iff_prefix_suffix, and_comm]

section Lookup
variable (isDir : CString → Bool) (now : ℤ) (db : List Entry) (name : CString)

/-- The test of the loop over the sorted entries, with the directories that `stat` finds. -/
def matchesName (e : Entry) : Bool := strstr e.path name && isDir e.path

/-- The array `order` after the loops that sort it. -/
def order : List (Fin db.length) :=
  Ranking.exchangeSort (fun i => score now (db.get i)) (List.finRange db.length)

def frecencyLookup : Option CString :=
  ((order now db).find? fun i => matchesName isDir name (db.get i)).map fun i => (db.get i).path

/-- An entry that the lookup may give. -/
def Candidate (e : Entry) : Prop := name <:+: e.path ∧ isDir e.path = true

variable {isDir now db name}

theorem matchesName_iff {e : Entry} :
    matchesName isDir name e = true ↔ Candidate isDir name e := by
  rw [matchesName, Bool.and_eq_true, strstr_iff]
  rfl

theorem mem_order (i : Fin db.length) : i ∈ order now db :=
  (Ranking.exchangeSort_perm _ _).mem_iff.mpr (List.mem_finRange i)

theorem frecencyLookup_none :
    frecencyLookup isDir now db name = none ↔ ∀ e ∈ db, ¬ Candidate isDir name e := by
  rw [frecencyLookup, Option.map_eq_none_iff, List.find?_eq_none]
  constructor
  · intro h e he
    obtain ⟨i,rfl⟩ := List.get_of_mem he
    rw [← matchesName_iff]
    exact h i (mem_order i)
  · intro h i _
    rw [matchesName_iff]
    exact h _ (List.get_mem db i)

theorem frecencyLookup_some {path : CString} (h : frecencyLookup isDir now db name = some path) :
    ∃ e ∈ db, e.path = path ∧ Candidate isDir name e ∧
      ∀ other ∈ db, Candidate isDir name other → score now other ≤ score now e := by
  obtain ⟨i,hfind,rfl⟩ := Option.map_eq_some_iff.mp h
  have hsorted := Ranking.exchangeSort_sorted (fun i => score now (db.get i))
    (List.finRange db.length)
  have hmatch := List.find?_some hfind
  refine ⟨db.get i,List.get_mem db i,rfl,matchesName_iff.mp hmatch,fun other hother hcandidate => ?_⟩
  obtain ⟨j,rfl⟩ := List.get_of_mem hother
  exact Ranking.find?_sorted _ hsorted hfind j (mem_order j) (matchesName_iff.mpr hcandidate)

end Lookup

/-- The lookup finds a directory as soon as there is one, and then one of the best. -/
theorem frecencyLookup_optimal (isDir : CString → Bool) (now : ℤ) (db : List Entry)
    (name : CString) :
    (frecencyLookup isDir now db name = none ↔ ∀ e ∈ db, ¬ Candidate isDir name e) ∧
      ∀ path, frecencyLookup isDir now db name = some path →
        ∃ e ∈ db, e.path = path ∧ Candidate isDir name e ∧
          ∀ other ∈ db, Candidate isDir name other → score now other ≤ score now e := by
  constructor
  · exact frecencyLookup_none
  · intro path h
    exact frecencyLookup_some h

theorem frecencyLookup_optimal_recent :
    frecencyLookup (fun _ => true) 100000
        [⟨"/src/old".toList,5,0⟩,⟨"/src/new".toList,4,99999⟩,⟨"/tmp".toList,9,99999⟩]
        "src".toList = some "/src/new".toList ∧
      ∃ e ∈ ([⟨"/src/old".toList,5,0⟩,⟨"/src/new".toList,4,99999⟩,
          ⟨"/tmp".toList,9,99999⟩] : List Entry), e.path = "/src/new".toList ∧
        Candidate (fun _ => true) "src".toList e ∧
        ∀ other ∈ ([⟨"/src/old".toList,5,0⟩,⟨"/src/new".toList,4,99999⟩,
          ⟨"/tmp".toList,9,99999⟩] : List Entry),
          Candidate (fun _ => true) "src".toList other → score 100000 other ≤ score 100000 e := by
  have hfound : frecencyLookup (fun _ => true) 100000
      [⟨"/src/old".toList,5,0⟩,⟨"/src/new".toList,4,99999⟩,⟨"/tmp".toList,9,99999⟩]
      "src".toList = some "/src/new".toList := by decide +kernel
  exact ⟨hfound,(frecencyLookup_optimal _ _ _ _).2 _ hfound⟩

end CShellXv6.Frecency
