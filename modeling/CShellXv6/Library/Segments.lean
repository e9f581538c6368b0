import Mathlib.Data.List.Basic

/-! # Segments of sequences

A stretch of a sequence as a list, and the list in which a stretch is replaced by
another list, which may reach beyond the end.
-/
namespace CShellXv6.Segments
variable {α : Type*} {f g : ℕ → α} {xs ys zs : List α} {a b m n off size : ℕ}

/-- The `n` entries of a sequence from place `a` on. -/
def segment (f : ℕ → α) (a n : ℕ) : List α := (List.range' a n).map f

/-- A list with the entries from place `off` on replaced by those of another list. -/
def overwrite (xs : List α) (off : ℕ) (ys : List α) : List α :=
  xs.take off ++ ys ++ xs.drop (off + ys.length)

@[simp] theorem length_segment : (segment f a n).length = n := by
  rw [segment, List.length_map, List.length_range']

theorem segment_zero : segment f a 0 = [] := rfl

theorem segment_append : segment f a m ++ segment f (a + m) n = segment f a (m + n) := by
  rw [segment, segment, segment, ← List.map_append, List.range'_append_1]

theorem segment_congr (h : ∀ x, a ≤ x → x < a + n → f x = g x) :
    segment f a n = segment g a n := by
  apply List.map_congr_left
  intro x hx
  obtain ⟨h1,h2⟩ := List.mem_range'_1.mp hx
  exact h x h1 h2

theorem segment_shift : segment (fun x => f (b + x)) a n = segment f (b + a) n := by
  rw [segment, segment, ← List.map_add_range', List.map_map]
  rfl

theorem drop_segment : (segment f a n).drop m = segment f (a + m) (n - m) := by
  rw [segment, segment, ← List.map_drop, List.drop_range', Nat.mul_one]

theorem take_segment : (segment f a n).take m = segment f a (min m n) := by
  have hsplit : segment f a n = segment f a (min m n) ++ segment f (a + min m n) (n - min m n) := by
    rw [segment_append, Nat.add_sub_cancel' (Nat.min_le_right m n)]
  rcases Nat.le_total m n with hle | hle
  · rw [Nat.min_eq_left hle] at hsplit ⊢
    rw [hsplit, List.take_left' length_segment]
  · rw [Nat.min_eq_right hle, List.take_of_length_le (by rwa [length_segment])]

/-- Overwriting one segment by another, place by place. -/
theorem overwrite_segment (h : off ≤ size) : overwrite (segment f 0 size) off (segment g 0 m) =
    segment (fun x => if off ≤ x ∧ x < off + m then g (x - off) else f x) 0
      (max size (off + m)) := by
  have hfirst : segment f 0 off =
      segment (fun x => if off ≤ x ∧ x < off + m then g (x - off) else f x) 0 off := by
    refine segment_congr fun x _ hx => ?_
    rw [if_neg (by omega)]
  have hmid : segment g 0 m =
      segment (fun x => if off ≤ x ∧ x < off + m then g (x - off) else f x) off m := by
    rw [← Nat.add_zero off, ← segment_shift]
    refine segment_congr fun x _ hx => ?_
    rw [if_pos (by omega), Nat.add_zero, Nat.add_sub_cancel_left]
  have hlast : segment f (off + m) (size - (off + m)) =
      segment (fun x => if off ≤ x ∧ x < off + m then g (x - off) else f x) (off + m)
        (size - (off + m)) := by
    refine segment_congr fun x hx _ => ?_
    rw [if_neg (by omega)]
  have hlen : max size (off + m) = off + m + (size - (off + m)) := by omega
  rw [overwrite, take_segment, drop_segment, length_segment, Nat.min_eq_left h, Nat.zero_add,
    hfirst, hmid, hlast, hlen, ← segment_append, ← segment_append, Nat.zero_add, Nat.zero_add]

theorem overwrite_nil : overwrite xs off [] = xs := by
  rw [overwrite, List.append_nil, List.length_nil, Nat.add_zero, List.take_append_drop]

theorem length_overwrite (h : off ≤ xs.length) :
    (overwrite xs off ys).length = max xs.length (off + ys.length) := by
  rw [overwrite, List.length_append, List.length_append, List.length_take_of_le h, List.length_drop]
  omega

/-- Two stretches, one after the other. -/
theorem overwrite_append (h : off ≤ xs.length) :
    overwrite (overwrite xs off ys) (off + ys.length) zs = overwrite xs off (ys ++ zs) := by
  have hlen : (xs.take off ++ ys).length = off + ys.length := by
    rw [List.length_append, List.length_take_of_le h]
  have hdrop : (xs.take off ++ ys ++ xs.drop (off + ys.length)).drop
      (off + ys.length + zs.length) = xs.drop (off + (ys ++ zs).length) := by
    rw [List.drop_append, hlen, Nat.add_sub_cancel_left,
      List.drop_of_length_le (by omega), List.nil_append, List.drop_drop, List.length_append,
      Nat.add_assoc]
  rw [overwrite, overwrite, List.take_left' hlen, hdrop, overwrite,
    ← List.append_assoc (xs.take off)]

end CShellXv6.Segments
