import Mathlib.Data.List.Nodup
import Mathlib.Data.List.Perm.Subperm

/-! # Descriptor tables

The table of a process tells what is open under which number. A new descriptor
takes the lowest free number. A call that closes exactly the descriptors that it
has opened leaves the table as it found it; `Over` says which ones these are.
-/
namespace CShellXv6.Descriptors
variable {α : Type*}

/-- The open descriptors, the last opened one first. -/
@[ext] structure Table (α : Type*) where
  entries : List (ℕ × α)
  nodup : (entries.map Prod.fst).Nodup

namespace Table

def fds (t : Table α) : List ℕ := t.entries.map Prod.fst

/-- The lowest free number is found among the first numbers, one more than there
are open descriptors. -/
def lowest (t : Table α) : ℕ := ((List.range (t.fds.length + 1)).find? (· ∉ t.fds)).getD 0

theorem lowest_not_mem (t : Table α) : t.lowest ∉ t.fds := by
  unfold lowest
  cases hfind : (List.range (t.fds.length + 1)).find? (· ∉ t.fds) with
  | some fd =>
    have h := List.find?_some hfind
    simpa using h
  | none =>
    have hall : List.range (t.fds.length + 1) ⊆ t.fds := by
      intro fd hfd
      have h := List.find?_eq_none.mp hfind fd hfd
      simpa using h
    have hlen := (List.nodup_range.subperm hall).length_le
    rw [List.length_range] at hlen
    omega

theorem mem_fds {t : Table α} {e : ℕ × α} (h : e ∈ t.entries) : e.1 ∈ t.fds :=
  List.mem_map_of_mem h

/-- Opening takes the lowest free number. -/
def add (t : Table α) (x : α) : Table α where
  entries := (t.lowest,x) :: t.entries
  nodup := List.nodup_cons.mpr ⟨t.lowest_not_mem,t.nodup⟩

def close (t : Table α) (fd : ℕ) : Table α where
  entries := t.entries.filter (fun e => e.1 ≠ fd)
  nodup := t.nodup.sublist (List.filter_sublist.map Prod.fst)

def closeAll (t : Table α) (ds : List ℕ) : Table α := ds.foldl close t

def get (t : Table α) (fd : ℕ) : Option α := (t.entries.find? (fun e => e.1 = fd)).map Prod.snd

/-- A failing call changes nothing, and neither does one onto itself. -/
def dup2 (t : Table α) (old new : ℕ) : Table α :=
  match t.get old with
  | none => t
  | some x =>
    if old = new then t
    else
      { entries := (new,x) :: (t.close new).entries
        nodup := List.nodup_cons.mpr
          ⟨by simp [close],(t.close new).nodup⟩ }

@[simp] theorem mem_add {t : Table α} {x : α} {e : ℕ × α} :
    e ∈ (t.add x).entries ↔ e = (t.lowest,x) ∨ e ∈ t.entries := List.mem_cons

@[simp] theorem mem_close {t : Table α} {fd : ℕ} {e : ℕ × α} :
    e ∈ (t.close fd).entries ↔ e ∈ t.entries ∧ e.1 ≠ fd := by
  simp [close]

theorem closeAll_entries (t : Table α) (ds : List ℕ) :
    (t.closeAll ds).entries = t.entries.filter (fun e => e.1 ∉ ds) := by
  induction ds generalizing t with
  | nil => simp [closeAll]
  | cons fd ds ih =>
    have h := ih (t.close fd)
    simp only [closeAll, List.foldl_cons] at h ⊢
    rw [h, close, List.filter_filter]
    congr 1
    funext e
    simp [Bool.and_comm]

@[simp] theorem mem_closeAll {t : Table α} {ds : List ℕ} {e : ℕ × α} :
    e ∈ (t.closeAll ds).entries ↔ e ∈ t.entries ∧ e.1 ∉ ds := by
  rw [closeAll_entries]
  simp

theorem closeAll_append (t : Table α) (ds ds' : List ℕ) :
    t.closeAll (ds ++ ds') = (t.closeAll ds).closeAll ds' := List.foldl_append

/-- One thing is open under a number. -/
theorem eq_of_mem {t : Table α} {e e' : ℕ × α} (he : e ∈ t.entries) (he' : e' ∈ t.entries)
    (hfd : e.1 = e'.1) : e = e' := List.inj_on_of_nodup_map t.nodup he he' hfd

theorem get_eq_some {t : Table α} {fd : ℕ} {x : α} (h : (fd,x) ∈ t.entries) :
    t.get fd = some x := by
  have hsome : (t.entries.find? (fun e => e.1 = fd)).isSome := by
    rw [List.find?_isSome]
    exact ⟨(fd,x),h,by simp⟩
  obtain ⟨e,he⟩ := Option.isSome_iff_exists.mp hsome
  have hfd : e.1 = fd := by simpa using List.find?_some he
  have heq : e = (fd,x) := eq_of_mem (List.mem_of_find?_eq_some he) h hfd
  rw [get, he, heq]
  rfl

theorem mem_dup2 {t : Table α} {old new : ℕ} {x : α} (hx : (old,x) ∈ t.entries) (hne : old ≠ new)
    {e : ℕ × α} :
    e ∈ (t.dup2 old new).entries ↔ e = (new,x) ∨ (e ∈ t.entries ∧ e.1 ≠ new) := by
  simp [dup2,get_eq_some hx,hne]

/-- The table `t` holds `base` and on top of it the descriptors `ds`. -/
def Over (base : Table α) (ds : List ℕ) (t : Table α) : Prop :=
  ∃ new, t.entries = new ++ base.entries ∧ ∀ fd, fd ∈ new.map Prod.fst ↔ fd ∈ ds

theorem Over.refl (t : Table α) : t.Over [] t := ⟨[],rfl,by simp⟩

theorem Over.add {base t : Table α} {ds : List ℕ} (h : base.Over ds t) (x : α) :
    base.Over (ds ++ [t.lowest]) (t.add x) := by
  obtain ⟨new,hentries,hds⟩ := h
  refine ⟨(t.lowest,x) :: new,by simp [Table.add,hentries],fun fd => ?_⟩
  rw [List.map_cons, List.mem_cons, hds, List.mem_append, List.mem_singleton]
  exact or_comm

theorem Over.mem_fds {base t : Table α} {ds : List ℕ} (h : base.Over ds t) {fd : ℕ}
    (hfd : fd ∈ ds) :
    fd ∈ t.fds := by
  obtain ⟨new,hentries,hds⟩ := h
  rw [fds, hentries, List.map_append]
  exact List.mem_append_left _ ((hds fd).mpr hfd)

theorem Over.not_mem {base t : Table α} {ds : List ℕ} (h : base.Over ds t) {fd : ℕ}
    (hfd : fd ∈ ds) :
    fd ∉ base.fds := by
  obtain ⟨new,hentries,hds⟩ := h
  have hnodup := t.nodup
  rw [hentries, List.map_append, List.nodup_append] at hnodup
  exact fun hbase => hnodup.2.2 fd ((hds fd).mpr hfd) fd hbase rfl

theorem Over.mem_entries {base t : Table α} {ds : List ℕ} (h : base.Over ds t) {e : ℕ × α} :
    e ∈ base.entries ↔ e ∈ t.entries ∧ e.1 ∉ ds := by
  have hfresh : ∀ fd ∈ ds, fd ∉ base.fds := fun fd => h.not_mem
  obtain ⟨new,hentries,hds⟩ := h
  rw [hentries, List.mem_append]
  constructor
  · exact fun he => ⟨Or.inr he,fun hd => hfresh e.1 hd (Table.mem_fds he)⟩
  · rintro ⟨he | he,hd⟩
    · exact absurd ((hds e.1).mp (List.mem_map_of_mem he)) hd
    · exact he

theorem Over.closeAll {base t : Table α} {ds : List ℕ} (h : base.Over ds t) :
    t.closeAll ds = base := by
  have hfresh : ∀ fd ∈ ds, fd ∉ base.fds := fun fd => h.not_mem
  obtain ⟨new,hentries,hds⟩ := h
  apply Table.ext
  rw [closeAll_entries, hentries, List.filter_append]
  have hnew : new.filter (fun e => e.1 ∉ ds) = [] := by
    rw [List.filter_eq_nil_iff]
    intro e he
    have hmem := (hds e.1).mp (List.mem_map_of_mem he)
    simpa using hmem
  have hbase : base.entries.filter (fun e => e.1 ∉ ds) = base.entries := by
    rw [List.filter_eq_self]
    intro e he
    have hnot : e.1 ∉ ds := fun hd => hfresh e.1 hd (Table.mem_fds he)
    simpa using hnot
  rw [hnew, hbase, List.nil_append]

end Table

end CShellXv6.Descriptors
