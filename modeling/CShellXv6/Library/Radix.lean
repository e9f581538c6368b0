import Mathlib.Algebra.BigOperators.Group.Finset.Basic
import Mathlib.Algebra.GroupWithZero.Nat

/-! # Radix trees in memory

A table is a page of `w` cells; a cell that is valid points to a page. Tables of
height one hold the values, higher ones lead to tables. A tree owns its tables and
the pages its values point to, as a multiset, so that a tree in which no page occurs
twice can be changed in one place and is known to be the same elsewhere.
-/
namespace CShellXv6.Radix
variable {F : Type*}

structure Cell (F : Type*) where
  v : Bool
  ppn : ℕ
  flags : F

/-- The page that a cell points to. -/
def Cell.page (c : Cell F) : Multiset ℕ := if c.v = true then {c.ppn} else 0

def Cell.toOption (c : Cell F) : Option (Cell F) := if c.v = true then some c else none

/-- The index of key `n` in a table with `l` levels below it. -/
def digit (w l n : ℕ) : ℕ := n / w ^ l % w

def setCell (s : ℕ → ℕ → Cell F) (p i : ℕ) (c : Cell F) : ℕ → ℕ → Cell F :=
  Function.update s p (Function.update (s p) i c)

/-- The pages of a tree of height `l`; one of height 0 is a page that a value points to. -/
def pages (w : ℕ) (s : ℕ → ℕ → Cell F) : ℕ → ℕ → Multiset ℕ
  | 0, p => {p}
  | l + 1, p =>
    {p} + ∑ i ∈ Finset.range w, if (s p i).v = true then pages w s l (s p i).ppn else 0

/-- The pages below a cell. -/
def below (w : ℕ) (s : ℕ → ℕ → Cell F) (l : ℕ) (c : Cell F) : Multiset ℕ :=
  if c.v = true then pages w s l c.ppn else 0

/-- The table that holds the value of key `n`, in a tree of height `l + 1`. -/
def lowest (w : ℕ) (s : ℕ → ℕ → Cell F) (n : ℕ) : ℕ → ℕ → Option ℕ
  | 0, p => some p
  | l + 1, p =>
    if (s p (digit w (l + 1) n)).v = true then lowest w s n l (s p (digit w (l + 1) n)).ppn
    else none

/-- The value of key `n`, in a tree of height `l + 1`. -/
def value (w : ℕ) (s : ℕ → ℕ → Cell F) (n l p : ℕ) : Option (Cell F) :=
  (lowest w s n l p).bind fun q => (s q (digit w 0 n)).toOption

section Trees
variable {w : ℕ} {s t u : ℕ → ℕ → Cell F} {c : Cell F} {i l n p q x : ℕ}
  {old new new' : Multiset ℕ} {val val' : ℕ → Option (Cell F)}

/-- The pages of a table, with one child apart. -/
theorem pages_split (hi : i < w) : pages w s (l + 1) p =
    {p} + (below w s l (s p i) + ∑ j ∈ (Finset.range w).erase i, below w s l (s p j)) :=
  congrArg ({p} + ·) (Finset.add_sum_erase _ (fun j => below w s l (s p j))
    (Finset.mem_range.mpr hi)).symm

theorem mem_pages_self : p ∈ pages w s l p := by
  cases l with
  | zero => exact Multiset.mem_singleton_self p
  | succ l => exact Multiset.mem_add.mpr (.inl (Multiset.mem_singleton_self p))

theorem pages_child_le (hi : i < w) (hv : (s p i).v = true) :
    pages w s l (s p i).ppn ≤ pages w s (l + 1) p := by
  have hs := pages_split (s := s) (l := l) (p := p) hi
  rw [below, if_pos hv] at hs
  rw [hs]
  exact (Multiset.le_add_right _ _).trans (Multiset.le_add_left _ _)

theorem nodup_child (hi : i < w) (hv : (s p i).v = true)
    (hnd : (pages w s (l + 1) p + new).Nodup) : (pages w s l (s p i).ppn + new).Nodup :=
  Multiset.nodup_of_le (add_le_add_left (pages_child_le hi hv) _) hnd

theorem mem_pages_child (hi : i < w) (hv : (s p i).v = true)
    (hx : x ∈ pages w s l (s p i).ppn) : x ∈ pages w s (l + 1) p :=
  Multiset.mem_of_le (pages_child_le hi hv) hx

theorem pages_empty (h : ∀ j, (s p j).v = false) : pages w s (l + 1) p = {p} := by
  rw [pages, Finset.sum_eq_zero, add_zero]
  intro j _
  rw [if_neg (by rw [h]; exact Bool.noConfusion)]

/-- A tree is the same in two memories that agree on its pages. -/
theorem pages_congr (h : ∀ x ∈ pages w s l p, t x = s x) : pages w t l p = pages w s l p := by
  induction l generalizing p with
  | zero => rfl
  | succ l ih =>
    rw [pages, pages, h p mem_pages_self]
    congr 1
    refine Finset.sum_congr rfl fun i hi => ?_
    split
    case isTrue hv => exact ih fun x hx => h x (mem_pages_child (Finset.mem_range.mp hi) hv hx)
    case isFalse => rfl

theorem mem_rest {j : ℕ} (hj : j < w) (hji : j ≠ i) (hv : (s p j).v = true)
    (hx : x ∈ pages w s l (s p j).ppn) :
    x ∈ ∑ j ∈ (Finset.range w).erase i, below w s l (s p j) := by
  refine Multiset.mem_sum.mpr ⟨j,Finset.mem_erase.mpr ⟨hji,Finset.mem_range.mpr hj⟩,?_⟩
  rwa [below, if_pos hv]

/-- The other children are the same where the memories agree on their pages. -/
theorem rest_congr (h : ∀ j < w, j ≠ i → (s p j).v = true → ∀ x ∈ pages w s l (s p j).ppn,
    t x = s x) : ∑ j ∈ (Finset.range w).erase i, below w t l (s p j) =
      ∑ j ∈ (Finset.range w).erase i, below w s l (s p j) := by
  refine Finset.sum_congr rfl fun j hj => ?_
  obtain ⟨hji,hj⟩ := Finset.mem_erase.mp hj
  unfold below
  split
  case isTrue hv => exact pages_congr (h j (Finset.mem_range.mp hj) hji hv)
  case isFalse => rfl

theorem lowest_le (hw : 0 < w) (h : lowest w s n l p = some q) :
    pages w s 1 q ≤ pages w s (l + 1) p := by
  induction l generalizing p with
  | zero =>
    obtain rfl := Option.some.inj h
    exact le_refl _
  | succ l ih =>
    rw [lowest] at h
    split at h
    case isTrue hv => exact (ih h).trans (pages_child_le (Nat.mod_lt _ hw) hv)
    case isFalse => cases h

/-- A table is not the page of one of its values. -/
theorem lowest_ne (hw : 0 < w) (h : lowest w s n l p = some q) (hv : (s q (digit w 0 n)).v = true)
    (hnd : (pages w s (l + 1) p).Nodup) : q ≠ (s q (digit w 0 n)).ppn := by
  have hlt : digit w 0 n < w := Nat.mod_lt _ hw
  have hq := Multiset.nodup_of_le (lowest_le hw h) hnd
  rw [pages_split hlt, below, if_pos hv] at hq
  exact fun e => Multiset.disjoint_left.mp (Multiset.nodup_add.mp hq).2.2
    (Multiset.mem_singleton_self q)
    (Multiset.mem_add.mpr (.inl (Multiset.mem_singleton.mpr e)))

theorem lowest_congr (hw : 0 < w) (h : ∀ x ∈ pages w s (l + 1) p, t x = s x) :
    lowest w t n l p = lowest w s n l p := by
  induction l generalizing p with
  | zero => rfl
  | succ l ih =>
    rw [lowest, lowest, h p mem_pages_self]
    split
    case isTrue hv => exact ih fun x hx => h x (mem_pages_child (Nat.mod_lt _ hw) hv hx)
    case isFalse => rfl

theorem value_congr (hw : 0 < w) (h : ∀ x ∈ pages w s (l + 1) p, t x = s x) :
    value w t n l p = value w s n l p := by
  rw [value, value, lowest_congr hw h]
  cases hq : lowest w s n l p with
  | none => rfl
  | some q =>
    have hmem := Multiset.mem_of_le (lowest_le hw hq) mem_pages_self
    rw [Option.bind_some, Option.bind_some, h q hmem]

theorem value_succ : value w s n (l + 1) p = if (s p (digit w (l + 1) n)).v = true then
    value w s n l (s p (digit w (l + 1) n)).ppn else none := by
  rw [value, lowest]
  split
  · rfl
  · rfl

theorem value_empty (h : ∀ j, (s p j).v = false) : value w s n l p = none := by
  cases l with
  | zero => exact if_neg (by rw [h]; exact Bool.noConfusion)
  | succ l => rw [value_succ, if_neg (by rw [h]; exact Bool.noConfusion)]

/-- A change inside one tree of height `l + 1`: the pages `old` leave it, `new` come into it, and
its values are `val` after it. -/
structure Change (w : ℕ) (s t : ℕ → ℕ → Cell F) (l p : ℕ) (old new : Multiset ℕ)
    (val : ℕ → Option (Cell F)) : Prop where
  pages : pages w t (l + 1) p + old = pages w s (l + 1) p + new
  frame : ∀ x, x ∉ Radix.pages w s (l + 1) p → x ∉ new → t x = s x
  value : ∀ n, value w t n l p = val n

theorem Change.refl : Change w s s l p 0 0 fun n => Radix.value w s n l p :=
  ⟨rfl,fun _ _ _ => rfl,fun _ => rfl⟩

theorem Change.trans (h : Change w s t l p 0 new val) (g : Change w t u l p old new' val') :
    Change w s u l p old (new + new') val' := by
  have hpages := h.pages
  rw [add_zero] at hpages
  refine ⟨?_,fun x hx hn => ?_,g.value⟩
  · rw [g.pages, hpages, add_assoc]
  · rw [Multiset.mem_add, not_or] at hn
    rw [g.frame x (by rw [hpages, Multiset.mem_add]; exact not_or.mpr ⟨hx,hn.1⟩) hn.2,
      h.frame x hx hn.1]

/-- A change in a child leaves its parent. -/
theorem Change.parent (hi : i < w) (hv : (s p i).v = true)
    (hnd : (Radix.pages w s (l + 2) p + new).Nodup)
    (h : Change w s t l (s p i).ppn old new val) : t p = s p := by
  have hs := pages_split (s := s) (l := l + 1) (p := p) hi
  rw [below, if_pos hv] at hs
  rw [hs] at hnd
  obtain ⟨hall,_,hnew⟩ := Multiset.nodup_add.mp hnd
  apply h.frame
  · exact fun hx => Multiset.disjoint_left.mp (Multiset.nodup_add.mp hall).2.2
      (Multiset.mem_singleton_self p) (Multiset.mem_add.mpr (.inl hx))
  · exact Multiset.disjoint_left.mp hnew
      (Multiset.mem_add.mpr (.inl (Multiset.mem_singleton_self p)))

/-- A change in a child is one in the tree. -/
theorem Change.lift (hw : 0 < w) (hi : i < w) (hv : (s p i).v = true)
    (hnd : (Radix.pages w s (l + 2) p + new).Nodup)
    (h : Change w s t l (s p i).ppn old new val) :
    Change w s t (l + 1) p old new
      fun n => if digit w (l + 1) n = i then val n else Radix.value w s n (l + 1) p := by
  have hbelow : below w s (l + 1) (s p i) = Radix.pages w s (l + 1) (s p i).ppn := if_pos hv
  have hsame := h.parent hi hv hnd
  rw [pages_split hi, hbelow] at hnd
  obtain ⟨hall,_,hnew⟩ := Multiset.nodup_add.mp hnd
  obtain ⟨_,_,hchild⟩ := Multiset.nodup_add.mp (Multiset.nodup_add.mp hall).2.1
  have hother : ∀ j < w, j ≠ i → (s p j).v = true → ∀ x ∈ Radix.pages w s (l + 1) (s p j).ppn,
      t x = s x := by
    intro j hj hji hvj x hx
    have hrest := mem_rest hj hji hvj hx
    apply h.frame
    · exact fun hc => Multiset.disjoint_left.mp hchild hc hrest
    · exact Multiset.disjoint_left.mp hnew
        (Multiset.mem_add.mpr (.inr (Multiset.mem_add.mpr (.inr hrest))))
  refine ⟨?_,fun x hx hn => h.frame x (fun hc => hx (mem_pages_child hi hv hc)) hn,fun n => ?_⟩
  · have hsum := rest_congr hother
    have ht := pages_split (s := t) (l := l + 1) (p := p) hi
    have hbelow' : below w t (l + 1) (s p i) = Radix.pages w t (l + 1) (s p i).ppn := if_pos hv
    have hs := pages_split (s := s) (l := l + 1) (p := p) hi
    rw [hsame, hsum, hbelow'] at ht
    rw [ht, hs, hbelow]
    generalize ∑ j ∈ (Finset.range w).erase i, below w s (l + 1) (s p j) = rest
    calc {p} + (Radix.pages w t (l + 1) (s p i).ppn + rest) + old
        = {p} + rest + (Radix.pages w t (l + 1) (s p i).ppn + old) := by ac_rfl
      _ = {p} + rest + (Radix.pages w s (l + 1) (s p i).ppn + new) := by rw [h.pages]
      _ = {p} + (Radix.pages w s (l + 1) (s p i).ppn + rest) + new := by ac_rfl
  · rw [value_succ, hsame]
    by_cases hd : digit w (l + 1) n = i
    · rw [if_pos hd, hd, if_pos hv, h.value]
    · rw [if_neg hd, value_succ]
      split
      case isTrue hvj => exact value_congr hw (hother _ (Nat.mod_lt _ hw) hd hvj)
      case isFalse => rfl

theorem setCell_update {f : ℕ → Cell F} (h : p ≠ q) : setCell (Function.update s q f) p i c =
    Function.update (setCell s p i c) q f := by
  rw [setCell, setCell, Function.update_of_ne h, Function.update_comm h.symm]

theorem setCell_self : setCell s p i c p = Function.update (s p) i c := Function.update_self ..

theorem setCell_of_ne (h : x ≠ p) : setCell s p i c x = s x := Function.update_of_ne h ..

/-- The other cells of the table that is set. -/
theorem sum_setCell (f : Cell F → Multiset ℕ) :
    ∑ j ∈ (Finset.range w).erase i, f (setCell s p i c p j) =
      ∑ j ∈ (Finset.range w).erase i, f (s p j) := by
  refine Finset.sum_congr rfl fun j hj => ?_
  rw [setCell_self, Function.update_of_ne (Finset.ne_of_mem_erase hj)]

/-- A value is set in a table of height one. -/
theorem Change.leaf (hi : i < w) : Change w s (setCell s p i c) 0 p (s p i).page c.page
    fun n => if digit w 0 n = i then c.toOption else Radix.value w s n 0 p := by
  refine ⟨?_,fun x hx _ => setCell_of_ne fun e => hx (e ▸ mem_pages_self),fun n => ?_⟩
  · have hleaf : ∀ s : ℕ → ℕ → Cell F, below w s 0 = Cell.page := fun _ => rfl
    rw [pages_split hi, pages_split hi, hleaf, hleaf, sum_setCell, setCell_self,
      Function.update_self]
    ac_rfl
  · change Cell.toOption _ = if _ then _ else Cell.toOption _
    rw [setCell_self]
    split
    case isTrue hd => rw [hd, Function.update_self]
    case isFalse hd => rw [Function.update_of_ne hd]

/-- Keys with the same indices in a tree of height `l + 1`. -/
def Same (w l n k : ℕ) : Prop := ∀ j < l + 1, digit w j n = digit w j k

instance : DecidableRel (Same w l) := fun _ _ => inferInstanceAs (Decidable (∀ j < l + 1, _))

theorem same_zero {k : ℕ} : Same w 0 n k ↔ digit w 0 n = digit w 0 k := by
  simp only [Same, Nat.forall_lt_succ_right, Nat.not_lt_zero, false_imp_iff, implies_true, true_and]

theorem same_succ {k : ℕ} :
    Same w (l + 1) n k ↔ Same w l n k ∧ digit w (l + 1) n = digit w (l + 1) k :=
  Nat.forall_lt_succ_right

/-- A value is set in the lowest table of its key. -/
theorem Change.set (hw : 0 < w) (hq : lowest w s n l p = some q)
    (hnd : (Radix.pages w s (l + 1) p + c.page).Nodup) :
    Change w s (setCell s q (digit w 0 n) c) l p (s q (digit w 0 n)).page c.page
      fun k => if Same w l k n then c.toOption else Radix.value w s k l p := by
  induction l generalizing p with
  | zero =>
    obtain rfl := Option.some.inj hq
    simp only [same_zero]
    exact Change.leaf (Nat.mod_lt _ hw)
  | succ l ih =>
    rw [lowest] at hq
    split at hq
    case isFalse => cases hq
    case isTrue hv =>
      have hlt : digit w (l + 1) n < w := Nat.mod_lt _ hw
      have hup := (ih hq (nodup_child hlt hv hnd)).lift hw hlt hv hnd
      refine ⟨hup.pages,hup.frame,fun k => (hup.value k).trans ?_⟩
      simp only [same_succ]
      by_cases hd : digit w (l + 1) k = digit w (l + 1) n
      · rw [if_pos hd]
        by_cases hs : Same w l k n
        · rw [if_pos hs, if_pos ⟨hs,hd⟩]
        · rw [if_neg hs, if_neg fun h => hs h.1, value_succ, hd, if_pos hv]
      · rw [if_neg hd, if_neg fun h => hd h.2]

/-- An empty table is put into an empty cell of a higher one. -/
theorem Change.grow {z : ℕ → Cell F} {f : F} (hw : 0 < w) (hz : ∀ j, (z j).v = false) (hi : i < w)
    (hv : (s p i).v = false) (hnd : (Radix.pages w s (l + 2) p + {q}).Nodup) :
    Change w s (setCell (Function.update s q z) p i ⟨true,q,f⟩) (l + 1) p 0 {q}
      fun n => Radix.value w s n (l + 1) p := by
  obtain ⟨hall,_,hdisj⟩ := Multiset.nodup_add.mp hnd
  have hq : q ∉ Radix.pages w s (l + 2) p := fun h =>
    Multiset.disjoint_left.mp hdisj h (Multiset.mem_singleton_self q)
  have hpq : p ≠ q := fun e => hq (e ▸ mem_pages_self)
  have hself : setCell (Function.update s q z) p i ⟨true,q,f⟩ p =
      Function.update (s p) i ⟨true,q,f⟩ := by
    rw [setCell_self, Function.update_of_ne hpq]
  have hnew : setCell (Function.update s q z) p i ⟨true,q,f⟩ q = z := by
    rw [setCell_of_ne hpq.symm, Function.update_self]
  have hrest : ∀ x, x ≠ p → x ≠ q → setCell (Function.update s q z) p i ⟨true,q,f⟩ x = s x :=
    fun x h1 h2 => by rw [setCell_of_ne h1, Function.update_of_ne h2]
  generalize setCell (Function.update s q z) p i ⟨true,q,f⟩ = t at hself hnew hrest ⊢
  have hs := pages_split (s := s) (l := l + 1) (p := p) hi
  have ht := pages_split (s := t) (l := l + 1) (p := p) hi
  have hempty : below w s (l + 1) (s p i) = 0 := if_neg (by rw [hv]; exact Bool.noConfusion)
  rw [hs] at hall
  have hother : ∀ j < w, j ≠ i → (s p j).v = true → ∀ x ∈ Radix.pages w s (l + 1) (s p j).ppn,
      t x = s x := by
    intro j hj hji hvj x hx
    apply hrest
    · rintro rfl
      exact Multiset.disjoint_left.mp (Multiset.nodup_add.mp hall).2.2
        (Multiset.mem_singleton_self x) (Multiset.mem_add.mpr (.inr (mem_rest hj hji hvj hx)))
    · rintro rfl
      exact hq (mem_pages_child hj hvj hx)
  have htable : Radix.pages w t (l + 1) q = {q} := pages_empty fun j => by rw [hnew, hz]
  refine ⟨?_,fun x hx hn => ?_,fun n => ?_⟩
  · have hsum : ∑ j ∈ (Finset.range w).erase i, below w t (l + 1) (t p j) =
        ∑ j ∈ (Finset.range w).erase i, below w s (l + 1) (s p j) := by
      rw [← rest_congr hother]
      refine Finset.sum_congr rfl fun j hj => ?_
      rw [hself, Function.update_of_ne (Finset.ne_of_mem_erase hj)]
    have hbelow : below w t (l + 1) (t p i) = {q} := by
      rw [hself, Function.update_self, below, if_pos rfl, htable]
    rw [ht, hs, hsum, hbelow, hempty]
    ac_rfl
  · exact hrest x (fun e => hx (e ▸ mem_pages_self)) fun e => hn (Multiset.mem_singleton.mpr e)
  · rw [value_succ, value_succ, hself]
    by_cases hd : digit w (l + 1) n = i
    · rw [hd, Function.update_self, if_pos rfl, hv, value_empty fun j => by rw [hnew, hz]]
      rfl
    · rw [Function.update_of_ne hd]
      split
      case isTrue hvj => exact value_congr hw (hother _ (Nat.mod_lt _ hw) hd hvj)
      case isFalse => rfl

end Trees

end CShellXv6.Radix
