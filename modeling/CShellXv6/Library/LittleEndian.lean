import Mathlib.Logic.Function.Basic
import Mathlib.Algebra.GroupWithZero.Nat

/-! # Numbers stored byte by byte

Memory is a function from addresses to bytes. A number of a given width is
stored with its least significant byte first; storing one and reading it back,
and what a store leaves alone.
-/
namespace CShellXv6.LittleEndian
variable {f g : ℕ → UInt8} {off off' w w' v : ℕ}

/-- The number in the `w` bytes from `off` on. -/
def getLE (f : ℕ → UInt8) (off : ℕ) : ℕ → ℕ
  | 0 => 0
  | w + 1 => (f off).toNat + 256 * getLE f (off + 1) w

/-- Stores a number in the `w` bytes from `off` on. -/
def setLE (f : ℕ → UInt8) (off : ℕ) : ℕ → ℕ → ℕ → UInt8
  | 0, _ => f
  | w + 1, v => setLE (Function.update f off (UInt8.ofNat v)) (off + 1) w (v / 256)

theorem setLE_of_outside {i : ℕ} (h : i < off ∨ off + w ≤ i) : setLE f off w v i = f i := by
  induction w generalizing f off v with
  | zero => rfl
  | succ w ih => rw [setLE, ih (by omega), Function.update_of_ne (by omega)]

theorem getLE_congr (h : ∀ i, off ≤ i → i < off + w → f i = g i) :
    getLE f off w = getLE g off w := by
  induction w generalizing off with
  | zero => rfl
  | succ w ih =>
    rw [getLE, getLE, h off (Nat.le_refl off) (by omega),
      ih fun i h1 h2 => h i (by omega) (by omega)]

theorem getLE_setLE_of_disjoint (h : off' + w' ≤ off ∨ off + w ≤ off') :
    getLE (setLE f off w v) off' w' = getLE f off' w' :=
  getLE_congr fun i h1 h2 => setLE_of_outside (by omega)

theorem getLE_setLE : getLE (setLE f off w v) off w = v % 256 ^ w := by
  induction w generalizing f off v with
  | zero => rw [getLE, Nat.pow_zero, Nat.mod_one]
  | succ w ih =>
    have hbyte : (setLE f off (w + 1) v off).toNat = v % 256 := by
      rw [setLE, setLE_of_outside (.inl (Nat.lt_succ_self off)), Function.update_self]
      rfl
    rw [getLE, hbyte, setLE, ih, Nat.pow_succ', Nat.mod_mul]

theorem getLE_setLE_of_lt (h : v < 256 ^ w) : getLE (setLE f off w v) off w = v := by
  rw [getLE_setLE, Nat.mod_eq_of_lt h]

theorem getLE_zero : getLE (fun _ => 0) off w = 0 := by
  induction w generalizing off with
  | zero => rfl
  | succ w ih => rw [getLE, ih]; rfl

/-- Stores numbers of width `w` one after the other. -/
def setAll (f : ℕ → UInt8) (off w : ℕ) : List ℕ → ℕ → UInt8
  | [] => f
  | v :: vs => setAll (setLE f off w v) (off + w) w vs

/-- The first `m` numbers of width `w` from `off` on. -/
def getAll (f : ℕ → UInt8) (off w : ℕ) : ℕ → List ℕ
  | 0 => []
  | m + 1 => getLE f off w :: getAll f (off + w) w m

theorem setAll_of_before {vs : List ℕ} {i : ℕ} (h : i < off) : setAll f off w vs i = f i := by
  induction vs generalizing f off with
  | nil => rfl
  | cons v vs ih => rw [setAll, ih (by omega), setLE_of_outside (.inl h)]

theorem setAll_of_after {vs : List ℕ} {i : ℕ} (h : off + w * vs.length ≤ i) :
    setAll f off w vs i = f i := by
  induction vs generalizing f off with
  | nil => rfl
  | cons v vs ih =>
    rw [List.length_cons, Nat.mul_succ] at h
    rw [setAll, ih (by omega), setLE_of_outside (.inr (by omega))]

theorem getAll_congr {m : ℕ} (h : ∀ i, off ≤ i → i < off + w * m → f i = g i) :
    getAll f off w m = getAll g off w m := by
  induction m generalizing off with
  | zero => rfl
  | succ m ih =>
    rw [Nat.mul_succ] at h
    rw [getAll, getAll, getLE_congr fun i h1 h2 => h i h1 (by omega),
      ih fun i h1 h2 => h i (by omega) (by omega)]

theorem getAll_setAll {vs : List ℕ} (h : ∀ v ∈ vs, v < 256 ^ w) :
    getAll (setAll f off w vs) off w vs.length = vs := by
  induction vs generalizing f off with
  | nil => rfl
  | cons v vs ih =>
    obtain ⟨hv,hvs⟩ := List.forall_mem_cons.mp h
    rw [List.length_cons, getAll, setAll, ih hvs]
    have hfirst : getLE (setAll (setLE f off w v) (off + w) w vs) off w = v := by
      rw [getLE_congr fun i _ hi => setAll_of_before hi, getLE_setLE_of_lt hv]
    rw [hfirst]

theorem getAll_eq_map (m : ℕ) :
    getAll f off w m = (List.range m).map fun k => getLE f (off + w * k) w := by
  induction m generalizing off with
  | zero => rfl
  | succ m ih =>
    rw [getAll, ih, List.range_succ_eq_map, List.map_cons, List.map_map, Nat.mul_zero, Nat.add_zero]
    congr 1
    apply List.map_congr_left
    intro k _
    rw [Function.comp_apply, Nat.mul_succ, Nat.add_assoc, Nat.add_comm w]

end CShellXv6.LittleEndian
