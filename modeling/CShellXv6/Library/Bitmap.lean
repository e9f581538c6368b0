import Mathlib.Data.Nat.Bitwise
import Mathlib.Logic.Function.Basic

/-! # Bits in a sequence of bytes

Bit `k` is bit `k % 8` of byte `k / 8`.
-/
namespace CShellXv6.Bitmap
variable {f : ℕ → UInt8} {j k : ℕ}

def mask (k : ℕ) : UInt8 := 1 <<< UInt8.ofNat (k % 8)

def test (f : ℕ → UInt8) (k : ℕ) : Bool := decide (f (k / 8) &&& mask k ≠ 0)

def set (f : ℕ → UInt8) (k : ℕ) : ℕ → UInt8 := Function.update f (k / 8) (f (k / 8) ||| mask k)

def clear (f : ℕ → UInt8) (k : ℕ) : ℕ → UInt8 :=
  Function.update f (k / 8) (f (k / 8) &&& ~~~mask k)

theorem toNat_mask (k : ℕ) : (mask k).toNat = 2 ^ (k % 8) := by
  have h : ∀ i < 8, (1 <<< UInt8.ofNat i : UInt8).toNat = 2 ^ i := by decide
  exact h _ (Nat.mod_lt k (by decide))

theorem testBit_not_mask (k j : ℕ) :
    (~~~mask k).toNat.testBit (j % 8) = decide (j % 8 ≠ k % 8) := by
  have h : ∀ i < 8, ∀ l < 8, (~~~(1 <<< UInt8.ofNat i) : UInt8).toNat.testBit l =
      decide (l ≠ i) := by decide
  exact h _ (Nat.mod_lt k (by decide)) _ (Nat.mod_lt j (by decide))

theorem and_mask_ne_zero (x : UInt8) (k : ℕ) :
    x &&& mask k ≠ 0 ↔ x.toNat.testBit (k % 8) = true := by
  rw [ne_eq, ← UInt8.toNat_inj, UInt8.toNat_and, toNat_mask, UInt8.toNat_zero, Nat.and_two_pow]
  cases x.toNat.testBit (k % 8) with
  | false => simp
  | true => simp

theorem test_eq_testBit (f : ℕ → UInt8) (k : ℕ) : test f k = (f (k / 8)).toNat.testBit (k % 8) := by
  apply Bool.eq_iff_iff.mpr
  rw [test, decide_eq_true_iff, and_mask_ne_zero]

theorem test_set : test (set f k) j = (decide (j = k) || test f j) := by
  rw [test_eq_testBit, test_eq_testBit, set]
  by_cases hbyte : j / 8 = k / 8
  · rw [hbyte, Function.update_self, UInt8.toNat_or, Nat.testBit_or, toNat_mask,
      Nat.testBit_two_pow, Bool.or_comm]
    congr 1
    exact decide_eq_decide.mpr (by omega)
  · have hne : j ≠ k := fun h => hbyte (by rw [h])
    rw [Function.update_of_ne hbyte, decide_eq_false hne, Bool.false_or]

theorem test_clear : test (clear f k) j = (decide (j ≠ k) && test f j) := by
  rw [test_eq_testBit, test_eq_testBit, clear]
  by_cases hbyte : j / 8 = k / 8
  · rw [hbyte, Function.update_self, UInt8.toNat_and, Nat.testBit_and, testBit_not_mask,
      Bool.and_comm]
    congr 1
    exact decide_eq_decide.mpr (by omega)
  · have hne : j ≠ k := fun h => hbyte (by rw [h])
    rw [Function.update_of_ne hbyte, decide_eq_true hne, Bool.true_and]

end CShellXv6.Bitmap
