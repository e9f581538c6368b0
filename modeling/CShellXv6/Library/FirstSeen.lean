import Mathlib.Data.List.Induction
import Mathlib.Data.List.Nodup
import Mathlib.Order.Nat
import Mathlib.Data.Nat.Notation

/-! # Lists of first appearances with imperfect copies

A loop lists what it has not met before. It compares each element with the
copies that it kept of the ones it listed, and it can keep a limited number of
them. A copy need not be equal to its element. The list has every element once,
in the order of first appearance, exactly when at every element the copies tell
whether it came before.
-/
namespace CShellXv6.FirstSeen
variable {α : Type*} [BEq α] [LawfulBEq α] (copy : α → α) (limit : ℕ)

/-- One round of the loop, on what was listed before. -/
def record (listed : List α) (a : α) : List α :=
  if a ∈ listed.map copy ∨ limit ≤ listed.length then listed else listed ++ [a]

def listing (l : List α) : List α := l.foldl (record copy limit) []

/-! ## First appearances -/

theorem eraseDups_concat (l : List α) (a : α) :
    (l ++ [a]).eraseDups = if a ∈ l then l.eraseDups else l.eraseDups ++ [a] := by
  rw [List.eraseDups_append]
  by_cases ha : a ∈ l
  · simp [List.removeAll, ha]
  · simp [List.removeAll, ha, List.eraseDups_cons]

theorem nodup_eraseDups (l : List α) : l.eraseDups.Nodup := by
  induction l using List.reverseRecOn with
  | nil => exact List.nodup_nil
  | append_singleton l a ih =>
    rw [eraseDups_concat]
    split
    · exact ih
    · next ha =>
      rw [List.nodup_append]
      refine ⟨ih,List.nodup_singleton a,fun b hb c hc => ?_⟩
      rw [List.mem_singleton.mp hc]
      rintro rfl
      exact ha (List.mem_eraseDups.mp hb)

theorem eraseDups_begins (l later : List α) : l.eraseDups <+: (l ++ later).eraseDups := by
  rw [List.eraseDups_append]
  exact List.prefix_append _ _

omit [BEq α] [LawfulBEq α] in
/-- Beginnings of one list with the same elements, none of them twice. -/
theorem eq_of_beginnings {l m whole : List α} (hl : l <+: whole) (hm : m <+: whole)
    (hnodup : whole.Nodup) (hmem : ∀ a, a ∈ l ↔ a ∈ m) : l = m := by
  have hlength : l.length = m.length := by
    apply List.Perm.length_eq
    exact (List.perm_ext_iff_of_nodup (hnodup.sublist hl.sublist)
      (hnodup.sublist hm.sublist)).mpr hmem
  exact (List.prefix_of_prefix_length_le hl hm hlength.le).eq_of_length hlength

/-! ## The loop -/

variable {copy limit}

theorem record_begins (listed : List α) (a : α) : listed <+: record copy limit listed a := by
  unfold record
  split
  · exact List.prefix_rfl
  · exact List.prefix_append _ _

theorem foldl_begins (listed l : List α) : listed <+: l.foldl (record copy limit) listed := by
  induction l generalizing listed with
  | nil => exact List.prefix_rfl
  | cons a l ih => exact (record_begins listed a).trans (ih _)

theorem listing_append (l later : List α) :
    listing copy limit (l ++ later) = later.foldl (record copy limit) (listing copy limit l) :=
  List.foldl_append

theorem listing_concat (l : List α) (a : α) :
    listing copy limit (l ++ [a]) = record copy limit (listing copy limit l) a :=
  listing_append l [a]

theorem listing_begins (l later : List α) :
    listing copy limit l <+: listing copy limit (l ++ later) := by
  rw [listing_append]
  exact foldl_begins _ _

theorem mem_of_mem_listing {l : List α} {a : α} (h : a ∈ listing copy limit l) : a ∈ l := by
  induction l using List.reverseRecOn with
  | nil => exact h
  | append_singleton l b ih =>
    rw [listing_concat, record] at h
    split at h
    · exact List.mem_append_left _ (ih h)
    · rcases List.mem_append.mp h with hold | hlast
      · exact List.mem_append_left _ (ih hold)
      · exact List.mem_append_right _ hlast

/-- An element that is not listed and never will be. -/
def Lost (copy : α → α) (limit : ℕ) (listed : List α) (a : α) : Prop :=
  a ∉ listed ∧ (a ∈ listed.map copy ∨ limit ≤ listed.length)

theorem Lost.record {listed : List α} {a : α} (h : Lost copy limit listed a) (b : α) :
    Lost copy limit (record copy limit listed b) a := by
  unfold FirstSeen.record
  split
  · exact h
  · next hnew =>
    obtain ⟨hb,hroom⟩ := not_or.mp hnew
    have hcopy := h.2.resolve_right hroom
    constructor
    · intro hmem
      rcases List.mem_append.mp hmem with hold | hlast
      · exact h.1 hold
      · rw [List.mem_singleton.mp hlast] at hcopy
        exact hb hcopy
    · rw [List.map_append]
      exact Or.inl (List.mem_append_left _ hcopy)

theorem Lost.foldl {listed : List α} {a : α} (h : Lost copy limit listed a) (l : List α) :
    Lost copy limit (l.foldl (FirstSeen.record copy limit) listed) a := by
  induction l generalizing listed with
  | nil => exact h
  | cons b l ih => exact ih (h.record b)

theorem mem_record_or_lost (listed : List α) (a : α) :
    a ∈ record copy limit listed a ∨ Lost copy limit (record copy limit listed a) a := by
  unfold record
  split
  · next hcopy =>
    by_cases ha : a ∈ listed
    · exact Or.inl ha
    · exact Or.inr ⟨ha,hcopy⟩
  · exact Or.inl (List.mem_append_right _ (List.mem_singleton_self a))

theorem mem_listing_or_lost {l : List α} {a : α} (h : a ∈ l) :
    a ∈ listing copy limit l ∨ Lost copy limit (listing copy limit l) a := by
  obtain ⟨before,after,rfl⟩ := List.append_of_mem h
  rw [List.append_cons, listing_append, listing_concat]
  rcases mem_record_or_lost (listing copy limit before) a with hmem | hlost
  · exact Or.inl ((foldl_begins _ after).subset hmem)
  · exact Or.inr (hlost.foldl after)

/-- A listing that is right at the end was right all the time. -/
theorem listing_beginning {l later : List α}
    (h : listing copy limit (l ++ later) = (l ++ later).eraseDups) :
    listing copy limit l = l.eraseDups := by
  apply eq_of_beginnings (listing_begins l later) _ (h ▸ nodup_eraseDups _)
  · intro a
    rw [List.mem_eraseDups]
    constructor
    · exact mem_of_mem_listing
    · intro ha
      rcases mem_listing_or_lost ha with hmem | hlost
      · exact hmem
      · have hnot := (hlost.foldl later).1
        rw [← listing_append, h, List.mem_eraseDups] at hnot
        exact absurd (List.mem_append_left _ ha) hnot
  · rw [h]
    exact eraseDups_begins l later

/-- The copies of what came before tell whether the element did; they need not when no
more can be listed anyway. -/
def Told (copy : α → α) (limit : ℕ) (before : List α) (a : α) : Prop :=
  (a ∈ before → a ∈ before.map copy ∨ limit ≤ before.eraseDups.length) ∧
    (a ∈ before.map copy → a ∈ before)

theorem mem_map_eraseDups (l : List α) (a : α) : a ∈ l.eraseDups.map copy ↔ a ∈ l.map copy := by
  simp only [List.mem_map, List.mem_eraseDups]

theorem record_eraseDups_iff {before : List α} {a : α}
    (hlimit : (before ++ [a]).eraseDups.length ≤ limit) :
    record copy limit before.eraseDups a = (before ++ [a]).eraseDups ↔
      Told copy limit before a := by
  rw [eraseDups_concat] at hlimit ⊢
  unfold record Told
  simp only [mem_map_eraseDups]
  by_cases ha : a ∈ before
  · have hgrown : before.eraseDups ++ [a] ≠ before.eraseDups := by simp
    simp only [ha, ↓reduceIte, ite_eq_left_iff, hgrown, imp_false, not_not, true_implies,
      implies_true, and_true]
  · rw [if_neg ha, List.length_append, List.length_singleton] at hlimit
    have hroom : ¬ limit ≤ before.eraseDups.length := by omega
    simp [ha, hroom]

theorem listing_eq_iff {l : List α} (hlimit : l.eraseDups.length ≤ limit) :
    listing copy limit l = l.eraseDups ↔
      ∀ before a after, l = before ++ a :: after → Told copy limit before a := by
  constructor
  · rintro h before a after rfl
    rw [List.append_cons] at h hlimit
    have hbefore := listing_beginning (by rwa [List.append_assoc] at h)
    have hnext := listing_beginning h
    rw [listing_concat, hbefore] at hnext
    apply (record_eraseDups_iff _).mp hnext
    exact (eraseDups_begins _ _).length_le.trans hlimit
  · intro h
    induction l using List.reverseRecOn with
    | nil => rfl
    | append_singleton l a ih =>
      have hbefore := ih ((eraseDups_begins l [a]).length_le.trans hlimit)
        (fun before b after heq => h before b (after ++ [a]) (by rw [heq]; simp))
      rw [listing_concat, hbefore]
      exact (record_eraseDups_iff hlimit).mpr (h l a [] rfl)

end CShellXv6.FirstSeen
