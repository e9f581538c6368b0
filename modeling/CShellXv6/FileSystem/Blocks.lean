import CShellXv6.Library.Bitmap
import CShellXv6.FileSystem.Log

/-! # The free map

What file system code does to the disk as bread shows it, block by block, together
with the blocks that it passes to log_write. The allocator of blocks, and what it
does to the bits of the free map.
-/
namespace CShellXv6.Files
open Log (Block)

def BSIZE : ℕ := 1024
def BPB : ℕ := BSIZE * 8
def IPB : ℕ := 16

/-- The fields of the super block that the code reads. -/
structure Superblock where
  size : ℕ
  ninodes : ℕ
  inodestart : ℕ
  bmapstart : ℕ

/-- The block of the free map with the bit of block `b`. -/
def Superblock.BBLOCK (sb : Superblock) (b : ℕ) : ℕ := b / BPB + sb.bmapstart

/-- The block with inode `i`. -/
def Superblock.IBLOCK (sb : Superblock) (i : ℕ) : ℕ := i / IPB + sb.inodestart

def Superblock.datastart (sb : Superblock) : ℕ := sb.bmapstart + sb.size / BPB + 1

/-- How mkfs lays out a disk. -/
structure Layout (sb : Superblock) : Prop where
  inodes : sb.inodestart + sb.ninodes / IPB + 1 ≤ sb.bmapstart
  data : sb.datastart ≤ sb.size
  bounded : sb.size ≤ 256 ^ 4

/-- The disk inside an operation, and the blocks it has logged. -/
structure Trans where
  disk : ℕ → Block
  logged : List ℕ

/-- Changes a block and logs it. -/
def Trans.write (t : Trans) (b : ℕ) (v : Block) : Trans :=
  ⟨Function.update t.disk b v,b :: t.logged⟩

def bzero (b : ℕ) (t : Trans) : Trans := t.write b fun _ => 0

/-- The inner loop of balloc, with `k` bits to go from bit `bi` on. -/
def scan (sb : Superblock) (data : Block) (b : ℕ) : ℕ → ℕ → Option ℕ
  | 0, _ => none
  | k + 1, bi =>
    if b + bi < sb.size then
      if Bitmap.test data bi = false then some bi else scan sb data b k (bi + 1)
    else none

/-- The outer loop of balloc, with at most `k` blocks of the free map to go. -/
def ballocFrom (sb : Superblock) (t : Trans) : ℕ → ℕ → Option (ℕ × Trans)
  | 0, _ => none
  | k + 1, b =>
    if b < sb.size then
      match scan sb (t.disk (sb.BBLOCK b)) b BPB 0 with
      | some bi => some (b + bi,
          bzero (b + bi) (t.write (sb.BBLOCK b) (Bitmap.set (t.disk (sb.BBLOCK b)) bi)))
      | none => ballocFrom sb t k (b + BPB)
    else none

/-- Takes the first free block; the source returns 0 when there is none. -/
def balloc (sb : Superblock) (t : Trans) : Option (ℕ × Trans) :=
  ballocFrom sb t (sb.size / BPB + 1) 0

/-- Panics when the block is free. -/
def bfree (sb : Superblock) (b : ℕ) (t : Trans) : Option Trans :=
  if Bitmap.test (t.disk (sb.BBLOCK b)) (b % BPB) = false then none
  else some (t.write (sb.BBLOCK b) (Bitmap.clear (t.disk (sb.BBLOCK b)) (b % BPB)))

/-- Whether the free map marks a block as in use. -/
def used (sb : Superblock) (disk : ℕ → Block) (b : ℕ) : Bool :=
  Bitmap.test (disk (sb.BBLOCK b)) (b % BPB)

section Bits
variable {sb : Superblock} {t u : Trans} {b c k bi : ℕ}

theorem Superblock.BBLOCK_lt (hb : b < sb.size) : sb.BBLOCK b < sb.datastart := by
  have := Nat.div_le_div_right (c := BPB) (Nat.le_of_lt hb)
  unfold Superblock.BBLOCK Superblock.datastart
  omega

@[simp] theorem Trans.write_self {v : Block} : (t.write b v).disk b = v := Function.update_self ..

theorem Trans.write_of_ne {v : Block} (h : c ≠ b) : (t.write b v).disk c = t.disk c :=
  Function.update_of_ne h ..

theorem scan_some {data : Block} (h : scan sb data b k bi = some c) :
    c < bi + k ∧ b + c < sb.size ∧ Bitmap.test data c = false := by
  induction k generalizing bi with
  | zero => cases h
  | succ k ih =>
    rw [scan] at h
    split at h
    case isTrue hlt =>
      split at h
      case isTrue hfree =>
        obtain rfl := Option.some.inj h
        exact ⟨by omega,hlt,hfree⟩
      case isFalse =>
        obtain ⟨h1,h2⟩ := ih h
        exact ⟨by omega,h2⟩
    case isFalse => cases h

theorem scan_none {data : Block} (h : scan sb data b k bi = none) (hc : bi ≤ c) (hk : c < bi + k)
    (hlt : b + c < sb.size) : Bitmap.test data c = true := by
  induction k generalizing bi with
  | zero => omega
  | succ k ih =>
    rw [scan, if_pos (by omega)] at h
    split at h
    case isTrue => cases h
    case isFalse hused =>
      by_cases hcb : c = bi
      · rw [hcb]
        exact (Bool.not_eq_false _).mp hused
      · exact ih h (by omega) (by omega)

/-- The block as balloc leaves it. -/
structure Allocated (sb : Superblock) (t u : Trans) (b : ℕ) : Prop where
  size : b < sb.size
  free : used sb t.disk b = false
  zero : u.disk b = fun _ => 0
  bits : ∀ c, b ≠ sb.BBLOCK c → used sb u.disk c = (decide (c = b) || used sb t.disk c)
  rest : ∀ c, c ≠ b → c ≠ sb.BBLOCK b → u.disk c = t.disk c
  logged : u.logged = b :: sb.BBLOCK b :: t.logged

/-- Changing one bit of the free map. -/
theorem used_write {v : Block} {p : Bool} (hv : ∀ j, Bitmap.test v j =
    if j = b % BPB then p else Bitmap.test (t.disk (sb.BBLOCK b)) j) :
    used sb (t.write (sb.BBLOCK b) v).disk c = if c = b then p else used sb t.disk c := by
  unfold used
  by_cases hblock : sb.BBLOCK c = sb.BBLOCK b
  · have hdiv : c / BPB = b / BPB := Nat.add_right_cancel hblock
    rw [hblock, Trans.write_self, hv]
    have hiff : c % BPB = b % BPB ↔ c = b := by
      constructor
      · intro hmod
        rw [← Nat.div_add_mod c BPB, ← Nat.div_add_mod b BPB, hdiv, hmod]
      · rintro rfl
        rfl
    simp only [hiff]
  · have hne : c ≠ b := fun h => hblock (by rw [h])
    rw [Trans.write_of_ne hblock, if_neg hne]

theorem allocated_of_set (hsize : b < sb.size) (hfree : used sb t.disk b = false) :
    Allocated sb t (bzero b (t.write (sb.BBLOCK b)
      (Bitmap.set (t.disk (sb.BBLOCK b)) (b % BPB)))) b := by
  refine ⟨hsize,hfree,Trans.write_self,fun c hc => ?_,fun c h1 h2 => ?_,rfl⟩
  · have hsame : used sb (bzero b (t.write (sb.BBLOCK b)
        (Bitmap.set (t.disk (sb.BBLOCK b)) (b % BPB)))).disk c =
        used sb (t.write (sb.BBLOCK b) (Bitmap.set (t.disk (sb.BBLOCK b)) (b % BPB))).disk c := by
      rw [used, used, bzero, Trans.write_of_ne hc.symm]
    rw [hsame, used_write (p := true)]
    · split
      case isTrue h => simp [h]
      case isFalse h => simp [h]
    · intro j
      rw [Bitmap.test_set]
      split
      case isTrue h => simp [h]
      case isFalse h => simp [h]
  · rw [bzero, Trans.write_of_ne h1, Trans.write_of_ne h2]

/-- The bits of one block of the free map. -/
theorem used_group (sb : Superblock) (g : ℕ) (hbi : bi < BPB) :
    sb.BBLOCK (BPB * g + bi) = sb.BBLOCK (BPB * g) ∧ (BPB * g + bi) % BPB = bi := by
  have hpos : 0 < BPB := by decide
  unfold Superblock.BBLOCK
  rw [Nat.mul_add_div hpos, Nat.mul_div_cancel_left g hpos, Nat.div_eq_of_lt hbi, Nat.add_zero,
    Nat.mul_add_mod, Nat.mod_eq_of_lt hbi]
  exact ⟨rfl,rfl⟩

theorem ballocFrom_some {g : ℕ} {x : ℕ × Trans} (h : ballocFrom sb t k (BPB * g) = some x) :
    Allocated sb t x.2 x.1 := by
  induction k generalizing g with
  | zero => cases h
  | succ k ih =>
    rw [ballocFrom] at h
    split at h
    case isTrue =>
      split at h
      case h_1 bi hscan =>
        obtain ⟨hbi,hsize,hfree⟩ := scan_some hscan
        rw [Nat.zero_add] at hbi
        obtain ⟨hblock,hmod⟩ := used_group sb g hbi
        obtain rfl := Option.some.inj h
        have hset := allocated_of_set (t := t) hsize (by rw [used, hblock, hmod]; exact hfree)
        rwa [hblock, hmod] at hset
      case h_2 => exact ih (g := g + 1) h
    case isFalse => cases h

theorem ballocFrom_none {g : ℕ} (h : ballocFrom sb t k (BPB * g) = none) (hb : BPB * g ≤ b)
    (hk : b < BPB * (g + k)) (hsize : b < sb.size) : used sb t.disk b = true := by
  induction k generalizing g with
  | zero =>
    rw [Nat.add_zero] at hk
    omega
  | succ k ih =>
    rw [ballocFrom, if_pos (Nat.lt_of_le_of_lt hb hsize)] at h
    split at h
    case h_1 => cases h
    case h_2 hscan =>
      by_cases hin : b < BPB * (g + 1)
      · obtain ⟨bi,rfl⟩ := Nat.exists_eq_add_of_le hb
        have hbi : bi < BPB := by
          rw [Nat.mul_succ] at hin
          omega
        obtain ⟨hblock,hmod⟩ := used_group sb g hbi
        rw [used, hblock, hmod]
        exact scan_none hscan (Nat.zero_le bi) (by rwa [Nat.zero_add]) hsize
      · exact ih (g := g + 1) h (Nat.le_of_not_lt hin) (by rwa [Nat.add_assoc, Nat.add_comm 1 k])

theorem balloc_some {x : ℕ × Trans} (h : balloc sb t = some x) : Allocated sb t x.2 x.1 :=
  ballocFrom_some (g := 0) h

/-- balloc fails only when no block is free. -/
theorem balloc_none (h : balloc sb t = none) (hsize : b < sb.size) : used sb t.disk b = true := by
  apply ballocFrom_none (g := 0) h (Nat.zero_le b) _ hsize
  have hdiv := Nat.lt_mul_div_succ sb.size (show 0 < BPB by decide)
  rw [Nat.zero_add]
  exact Nat.lt_trans hsize hdiv

theorem bfree_spec (h : used sb t.disk b = true) :
    ∃ u, bfree sb b t = some u ∧ (∀ c, used sb u.disk c = (decide (c ≠ b) && used sb t.disk c)) ∧
      (∀ c, c ≠ sb.BBLOCK b → u.disk c = t.disk c) ∧ u.logged = sb.BBLOCK b :: t.logged := by
  refine ⟨_,if_neg (by rw [← used, h]; exact Bool.noConfusion),fun c => ?_,
    fun c hc => Trans.write_of_ne hc,rfl⟩
  rw [used_write (p := false)]
  · split
    case isTrue h => simp [h]
    case isFalse h => simp [h]
  · intro j
    rw [Bitmap.test_clear]
    split
    case isTrue h => simp [h]
    case isFalse h => simp [h]

end Bits

end CShellXv6.Files
