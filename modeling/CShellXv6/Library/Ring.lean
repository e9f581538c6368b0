import Mathlib.Data.List.Induction
import Mathlib.Data.List.Nodup
import Mathlib.Data.Option.Basic
import Mathlib.Logic.Function.Basic

/-! # Rings of cells with two pointers

A doubly linked list that is closed by a head cell. The pointers are two
functions on the cells, the head being `none`, and an update of a pointer is an
update of a function. What the list is read as is the list of cells that lie
between the head and itself.
-/
namespace CShellXv6.Ring
variable {α : Type*}

/-- The pointers of all cells. -/
structure Links (α : Type*) where
  next : Option α → Option α
  prev : Option α → Option α

/-- The cells of `l` lie between `x` and `y`, read forwards and backwards. -/
def Between (r : Links α) : Option α → List α → Option α → Prop
  | x, [], y => r.next x = y ∧ r.prev y = x
  | x, a :: l, y => r.next x = some a ∧ r.prev (some a) = x ∧ Between r (some a) l y

/-- The ring consists of the cells of `l` in this order. -/
structure Spells (r : Links α) (l : List α) : Prop where
  between : Between r none l none
  nodup : l.Nodup

/-- The head alone. -/
def closed : Links α := ⟨fun _ => none,fun _ => none⟩

theorem spells_closed : Spells (closed : Links α) [] :=
  ⟨⟨rfl,rfl⟩,List.nodup_nil⟩

/-- Follows one of the pointers to the first cell that passes the test, and stops at the
head. -/
def seek (follow : Option α → Option α) (p : α → Bool) : Option α → ℕ → Option α
  | some a, n + 1 => if p a then some a else seek follow p (follow (some a)) n
  | _, _ => none

@[simp] theorem seek_head (follow : Option α → Option α) (p : α → Bool) (n : ℕ) :
    seek follow p none n = none := by
  cases n <;> rfl

section Reading
variable {r : Links α} {x y : Option α} {l k : List α} {a : α}

theorem Between.append_iff :
    Between r x (l ++ a :: k) y ↔ Between r x l (some a) ∧ Between r (some a) k y := by
  induction l generalizing x with
  | nil => simp [Between, and_assoc]
  | cons b l ih => simp [Between, ih, and_assoc]

theorem Between.seek_next (h : Between r x l none) (p : α → Bool) {n : ℕ}
    (hn : l.length ≤ n) : seek r.next p (r.next x) n = l.find? p := by
  induction l generalizing x n with
  | nil =>
    rw [h.1, seek_head]
    rfl
  | cons b l ih =>
    obtain ⟨hx,_,hl⟩ := h
    obtain ⟨m,rfl⟩ : ∃ m, n = m + 1 := ⟨n - 1,by rw [List.length_cons] at hn; omega⟩
    rw [hx, seek, List.find?_cons]
    cases hb : p b with
    | true => rfl
    | false =>
      simp only [Bool.false_eq_true, if_false]
      exact ih hl (by rw [List.length_cons] at hn; omega)

theorem Between.seek_prev (h : Between r none l y) (p : α → Bool) {n : ℕ}
    (hn : l.length ≤ n) : seek r.prev p (r.prev y) n = l.reverse.find? p := by
  induction l using List.reverseRecOn generalizing y n with
  | nil =>
    rw [h.2, seek_head]
    rfl
  | append_singleton l b ih =>
    obtain ⟨hl,_,hy⟩ := Between.append_iff.mp h
    obtain ⟨m,rfl⟩ : ∃ m, n = m + 1 :=
      ⟨n - 1,by rw [List.length_append, List.length_singleton] at hn; omega⟩
    rw [hy, seek, List.reverse_concat, List.find?_cons]
    cases hb : p b with
    | true => rfl
    | false =>
      simp only [Bool.false_eq_true, if_false]
      exact ih hl (by rw [List.length_append, List.length_singleton] at hn; omega)

/-- Only the pointers between the cells matter. -/
theorem Between.congr {r' : Links α} (h : Between r x l y)
    (hnext : ∀ z, z = x ∨ z ∈ l.map some → r'.next z = r.next z)
    (hprev : ∀ z, z = y ∨ z ∈ l.map some → r'.prev z = r.prev z) : Between r' x l y := by
  induction l generalizing x with
  | nil => exact ⟨(hnext x (.inl rfl)).trans h.1,(hprev y (.inl rfl)).trans h.2⟩
  | cons b l ih =>
    obtain ⟨hx,hb,hl⟩ := h
    have hmem : some b ∈ (b :: l).map some := List.mem_cons_self
    refine ⟨(hnext x (.inl rfl)).trans hx,(hprev _ (.inr hmem)).trans hb,ih hl ?_ ?_⟩
    · intro z hz
      rcases hz with rfl | hz
      · exact hnext _ (.inr hmem)
      · exact hnext z (.inr (List.mem_cons_of_mem _ hz))
    · intro z hz
      rcases hz with rfl | hz
      · exact hprev z (.inl rfl)
      · exact hprev z (.inr (List.mem_cons_of_mem _ hz))

theorem Between.prev_mem {x : Option α} {b : α} (h : Between r x (b :: l) (some a)) :
    r.prev (some a) ∈ (b :: l).map some := by
  induction l generalizing x b with
  | nil => exact h.2.2.2 ▸ List.mem_cons_self
  | cons c l ih => exact List.mem_cons_of_mem _ (ih h.2.2)

theorem Between.next_mem {y : Option α} (h : Between r (some a) l y) :
    r.next (some a) = y ∨ r.next (some a) ∈ l.map some := by
  cases l with
  | nil => exact .inl h.1
  | cons b l => exact .inr (h.1 ▸ List.mem_cons_self)

end Reading

section Updates
variable [DecidableEq α] {r : Links α} {l : List α} {a : α}

/-- Takes a cell out: `a->next->prev = a->prev; a->prev->next = a->next`. -/
def Links.unlink (r : Links α) (a : α) : Links α :=
  let r := { r with prev := Function.update r.prev (r.next (some a)) (r.prev (some a)) }
  { r with next := Function.update r.next (r.prev (some a)) (r.next (some a)) }

/-- Puts a cell after the head: `a->next = head.next; a->prev = &head;
head.next->prev = a; head.next = a`. -/
def Links.pushFront (r : Links α) (a : α) : Links α :=
  let r := { r with next := Function.update r.next (some a) (r.next none) }
  let r := { r with prev := Function.update r.prev (some a) none }
  let r := { r with prev := Function.update r.prev (r.next none) (some a) }
  { r with next := Function.update r.next none (some a) }

theorem Links.unlink_next (r : Links α) (a : α) (hn : r.next (some a) ≠ some a) :
    (r.unlink a).next = Function.update r.next (r.prev (some a)) (r.next (some a)) := by
  simp only [Links.unlink, Function.update_of_ne hn.symm]

theorem Links.unlink_prev (r : Links α) (a : α) :
    (r.unlink a).prev = Function.update r.prev (r.next (some a)) (r.prev (some a)) := rfl

/-- The neighbours of a cell that is taken out become neighbours. -/
theorem Between.unlink {x y : Option α} {k : List α} (hl : Between r x l (some a))
    (hk : Between r (some a) k y) (ha : some a ∉ x :: (l ++ k).map some) (hy : some a ≠ y)
    (hx : (x :: (l ++ k).map some).Nodup) (hyl : y ∉ (l ++ k).map some) :
    Between (r.unlink a) x (l ++ k) y := by
  have hself : r.next (some a) ≠ some a := by
    intro h
    rcases hk.next_mem with h' | h'
    · exact hy (h.symm.trans h')
    · rw [h] at h'
      exact ha (List.mem_cons_of_mem _ (by rw [List.map_append]; exact List.mem_append_right _ h'))
  induction l generalizing x with
  | nil =>
    have hax : r.prev (some a) = x := hl.2
    cases k with
    | nil =>
      constructor
      · rw [Links.unlink_next r a hself, hax, Function.update_self]
        exact hk.1
      · rw [Links.unlink_prev, hk.1, Function.update_self]
        exact hax
    | cons b k =>
      obtain ⟨hn,hp,hrest⟩ := hk
      have hb : r.next (some a) = some b := hn
      simp only [List.nil_append, List.map_cons, List.nodup_cons, List.mem_cons, not_or]
        at hx ha hyl
      refine ⟨?_,?_,hrest.congr ?_ ?_⟩
      · rw [Links.unlink_next r a hself, hax, Function.update_self]
        exact hb
      · rw [Links.unlink_prev, hb, Function.update_self]
        exact hax
      · intro z hz
        rw [Links.unlink_next r a hself, hax]
        apply Function.update_of_ne
        rintro rfl
        rcases hz with hz | hz
        · exact hx.1.1 hz
        · exact hx.1.2 hz
      · intro z hz
        rw [Links.unlink_prev, hb]
        apply Function.update_of_ne
        rintro rfl
        rcases hz with hz | hz
        · exact hyl.1 hz.symm
        · exact hx.2.1 hz
  | cons b l ih =>
    have hmem := hl.prev_mem
    obtain ⟨hn,hp,hrest⟩ := hl
    simp only [List.cons_append, List.map_cons, List.map_append, List.nodup_cons, List.mem_cons,
      List.mem_append, not_or] at hx ha hyl hmem
    have hxa : x ≠ r.prev (some a) := by
      rintro rfl
      rcases hmem with h | h
      · exact hx.1.1 h
      · exact hx.1.2.1 h
    have hba : some b ≠ r.next (some a) := by
      intro h
      rcases hk.next_mem with h' | h'
      · exact hyl.1 (h'.symm.trans h.symm)
      · rw [← h] at h'
        exact hx.2.1.2 h'
    refine ⟨?_,?_,ih hrest ?_ ?_ ?_⟩
    · rw [Links.unlink_next r a hself, Function.update_of_ne hxa]
      exact hn
    · rw [Links.unlink_prev, Function.update_of_ne hba]
      exact hp
    · simp only [List.map_append, List.mem_cons, List.mem_append, not_or]
      exact ha.2
    · simp only [List.map_append, List.nodup_cons, List.mem_append, not_or]
      exact hx.2
    · simp only [List.map_append, List.mem_append, not_or]
      exact hyl.2

theorem Spells.unlink {k : List α} (h : Spells r (l ++ a :: k)) : Spells (r.unlink a) (l ++ k) := by
  obtain ⟨hl,hk⟩ := Between.append_iff.mp h.between
  obtain ⟨ha,hd⟩ := List.nodup_middle.mp h.nodup |> List.nodup_cons.mp
  refine ⟨hl.unlink hk ?_ (Option.some_ne_none a) ?_ ?_,hd⟩
  · simpa using ha
  · simpa using hd.map (Option.some_injective _)
  · simp

theorem Links.pushFront_next (r : Links α) (a : α) : (r.pushFront a).next =
    Function.update (Function.update r.next (some a) (r.next none)) none (some a) := rfl

theorem Links.pushFront_prev (r : Links α) (a : α) : (r.pushFront a).prev =
    Function.update (Function.update r.prev (some a) none) (r.next none) (some a) := by
  simp only [Links.pushFront, Function.update_of_ne (Option.some_ne_none a).symm]

theorem Spells.pushFront (h : Spells r l) (ha : a ∉ l) : Spells (r.pushFront a) (a :: l) := by
  have hnext : ∀ z, z ≠ none → z ≠ some a → (r.pushFront a).next z = r.next z := by
    intro z h0 h1
    rw [Links.pushFront_next, Function.update_of_ne h0, Function.update_of_ne h1]
  have hprev : ∀ z, z ≠ r.next none → z ≠ some a → (r.pushFront a).prev z = r.prev z := by
    intro z h0 h1
    rw [Links.pushFront_prev, Function.update_of_ne h0, Function.update_of_ne h1]
  have hstart : (r.pushFront a).next (some a) = r.next none := by
    rw [Links.pushFront_next, Function.update_of_ne (Option.some_ne_none a), Function.update_self]
  have hback : (r.pushFront a).prev (r.next none) = some a := by
    rw [Links.pushFront_prev, Function.update_self]
  have hhead : r.next none ≠ some a → (r.pushFront a).prev (some a) = none := by
    intro h0
    rw [Links.pushFront_prev, Function.update_of_ne h0.symm, Function.update_self]
  have hfirst : (r.pushFront a).next none = some a := by
    rw [Links.pushFront_next, Function.update_self]
  obtain ⟨hb,hd⟩ := h
  refine ⟨⟨hfirst,?_⟩,List.nodup_cons.mpr ⟨ha,hd⟩⟩
  cases l with
  | nil =>
    rw [hb.1] at hstart hback hhead
    exact ⟨hhead (Option.some_ne_none a).symm,hstart,hback⟩
  | cons b l =>
    obtain ⟨hn,hp,hrest⟩ := hb
    rw [hn] at hstart hback hhead hprev
    obtain ⟨hab,hal⟩ := not_or.mp (mt List.mem_cons.mpr ha)
    refine ⟨hhead (fun e => hab (Option.some.inj e).symm),hstart,hback,hrest.congr ?_ ?_⟩
    · rintro z (rfl | hz)
      · exact hnext _ (Option.some_ne_none b) (fun e => hab (Option.some.inj e).symm)
      · obtain ⟨c,hc,rfl⟩ := List.mem_map.mp hz
        exact hnext _ (Option.some_ne_none c) (fun e => hal (Option.some.inj e ▸ hc))
    · rintro z (rfl | hz)
      · exact hprev _ (Option.some_ne_none b).symm (Option.some_ne_none a).symm
      · obtain ⟨c,hc,rfl⟩ := List.mem_map.mp hz
        apply hprev
        · exact fun e => (List.nodup_cons.mp hd).1 (Option.some.inj e ▸ hc)
        · exact fun e => hal (Option.some.inj e ▸ hc)

theorem Spells.foldl_pushFront {k : List α} (h : Spells r l) (hk : (k.reverse ++ l).Nodup) :
    Spells (k.foldl Links.pushFront r) (k.reverse ++ l) := by
  induction k generalizing r l with
  | nil => exact h
  | cons a k ih =>
    rw [List.reverse_cons, List.append_assoc, List.singleton_append] at hk ⊢
    have ha : a ∉ l := (List.nodup_cons.mp (List.nodup_append.mp hk).2.1).1
    exact ih (h.pushFront ha) hk

end Updates

end CShellXv6.Ring
