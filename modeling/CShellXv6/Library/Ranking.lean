import Mathlib.Order.Lattice
import Mathlib.Data.List.Basic
import Mathlib.Data.Nat.Notation

/-! # Loops that rank the elements of an array by a key

The exchange sort compares the element at one place with every later one and
swaps the two whenever the later one has the larger key, so a round leaves the
largest key at its place. A search that goes through the sorted array finds an
element of the largest key among those it looks for. The scan for a smallest
key keeps the first place at which it occurs.
-/
namespace CShellXv6.Ranking
variable {α β : Type*} [LinearOrder β] (key : α → β)

/-! ## Exchange sort -/

/-- One round: the element at the place, and the elements after it. -/
def settle : α → List α → α × List α
  | a, [] => (a,[])
  | a, b :: rest =>
    if key a < key b then
      let r := settle b rest
      (r.1,a :: r.2)
    else
      let r := settle a rest
      (r.1,b :: r.2)

def exchangeLoop : ℕ → List α → List α
  | 0, l => l
  | _ + 1, [] => []
  | places + 1, a :: rest =>
    let r := settle key a rest
    r.1 :: exchangeLoop places r.2

/-- The rounds for all places from the first on. -/
def exchangeSort (l : List α) : List α := exchangeLoop key l.length l

theorem settle_perm (a : α) (rest : List α) :
    ((settle key a rest).1 :: (settle key a rest).2).Perm (a :: rest) := by
  induction rest generalizing a with
  | nil => exact .refl _
  | cons b rest ih =>
    unfold settle
    split
    · exact (List.Perm.swap _ _ _).trans ((ih b).cons a)
    · exact (List.Perm.swap _ _ _).trans (((ih a).cons b).trans (List.Perm.swap _ _ _))

/-- The place holds the largest key of the round. -/
theorem settle_le (a : α) (rest : List α) :
    key a ≤ key (settle key a rest).1 ∧
      ∀ b ∈ (settle key a rest).2, key b ≤ key (settle key a rest).1 := by
  induction rest generalizing a with
  | nil => exact ⟨le_rfl,fun b hb => by cases hb⟩
  | cons b rest ih =>
    unfold settle
    split
    · next hlt =>
      obtain ⟨hfirst,hrest⟩ := ih b
      have ha := hlt.le.trans hfirst
      exact ⟨ha,List.forall_mem_cons.mpr ⟨ha,hrest⟩⟩
    · next hle =>
      obtain ⟨hfirst,hrest⟩ := ih a
      exact ⟨hfirst,List.forall_mem_cons.mpr ⟨(not_lt.mp hle).trans hfirst,hrest⟩⟩

theorem exchangeLoop_perm (places : ℕ) (l : List α) : (exchangeLoop key places l).Perm l := by
  induction places generalizing l with
  | zero => exact .refl l
  | succ places ih =>
    cases l with
    | nil => exact .refl []
    | cons a rest => exact ((ih _).cons _).trans (settle_perm key a rest)

theorem exchangeSort_perm (l : List α) : (exchangeSort key l).Perm l :=
  exchangeLoop_perm key l.length l

theorem exchangeLoop_sorted {places : ℕ} {l : List α} (h : l.length ≤ places) :
    (exchangeLoop key places l).Pairwise (fun a b => key b ≤ key a) := by
  induction places generalizing l with
  | zero =>
    rw [List.length_eq_zero_iff.mp (Nat.le_zero.mp h)]
    exact .nil
  | succ places ih =>
    cases l with
    | nil => exact .nil
    | cons a rest =>
      have hlength := (settle_perm key a rest).length_eq
      simp only [List.length_cons] at h hlength
      apply List.Pairwise.cons
      · intro b hb
        exact (settle_le key a rest).2 b ((exchangeLoop_perm key _ _).mem_iff.mp hb)
      · exact ih (by omega)

theorem exchangeSort_sorted (l : List α) :
    (exchangeSort key l).Pairwise (fun a b => key b ≤ key a) :=
  exchangeLoop_sorted key (Nat.le_refl _)

/-- What a search finds in sorted elements has the largest key of all it looks for. -/
theorem find?_sorted {l : List α} (h : l.Pairwise (fun a b => key b ≤ key a)) {p : α → Bool}
    {a : α} (ha : l.find? p = some a) : ∀ b ∈ l, p b = true → key b ≤ key a := by
  obtain ⟨_,before,after,rfl,hbefore⟩ := List.find?_eq_some_iff_append.mp ha
  intro b hb hp
  rcases List.mem_append.mp hb with hearlier | hlater
  · have hnot := hbefore b hearlier
    simp [hp] at hnot
  · rcases List.mem_cons.mp hlater with rfl | hafter
    · exact le_rfl
    · exact (List.pairwise_cons.mp (List.pairwise_append.mp h).2.1).1 b hafter

/-! ## Smallest key -/

/-- The loop from the place `i` on, with the place and the key found so far. -/
def minLoop : List α → ℕ → ℕ → β → ℕ
  | [], _, minIdx, _ => minIdx
  | a :: rest, i, minIdx, minKey =>
    if key a < minKey then minLoop rest (i + 1) i (key a) else minLoop rest (i + 1) minIdx minKey

def minIdx : List α → ℕ
  | [] => 0
  | a :: rest => minLoop key rest 1 0 (key a)

/-- The place found so far has the smallest key of the elements that were passed. -/
def Lowest (l : List α) (i : ℕ) (a : α) : Prop :=
  (∃ before after, l = before ++ a :: after ∧ before.length = i) ∧ ∀ b ∈ l, key a ≤ key b

theorem Lowest.pass {l : List α} {i : ℕ} {a : α} (h : Lowest key l i a) {b : α}
    (hb : key a ≤ key b) : Lowest key (l ++ [b]) i a := by
  obtain ⟨⟨before,after,rfl,hlength⟩,hall⟩ := h
  constructor
  · exact ⟨before,after ++ [b],by simp,hlength⟩
  · intro c hc
    rcases List.mem_append.mp hc with hold | hnew
    · exact hall c hold
    · rw [List.mem_singleton.mp hnew]
      exact hb

theorem Lowest.replace {l : List α} {i : ℕ} {a : α} (h : Lowest key l i a) {b : α}
    (hb : key b < key a) : Lowest key (l ++ [b]) l.length b := by
  constructor
  · exact ⟨l,[],rfl,rfl⟩
  · intro c hc
    rcases List.mem_append.mp hc with hold | hnew
    · exact hb.le.trans (h.2 c hold)
    · rw [List.mem_singleton.mp hnew]

theorem minLoop_lowest {passed rest : List α} {i : ℕ} {a : α} (h : Lowest key passed i a) :
    ∃ b, Lowest key (passed ++ rest) (minLoop key rest passed.length i (key a)) b := by
  induction rest generalizing passed i a with
  | nil =>
    rw [List.append_nil]
    exact ⟨a,h⟩
  | cons b rest ih =>
    have hlength : passed.length + 1 = (passed ++ [b]).length := by simp
    rw [List.append_cons, minLoop, hlength]
    split
    · next hlt => exact ih (h.replace key hlt)
    · next hle => exact ih (h.pass key (not_lt.mp hle))

theorem minIdx_lowest {l : List α} (h : l ≠ []) : ∃ a, Lowest key l (minIdx key l) a := by
  obtain ⟨a,rest,rfl⟩ := List.exists_cons_of_ne_nil h
  have hfirst : Lowest key [a] 0 a := by
    refine ⟨⟨[],[],rfl,rfl⟩,fun b hb => ?_⟩
    rw [List.mem_singleton.mp hb]
  exact minLoop_lowest key hfirst

end CShellXv6.Ranking
