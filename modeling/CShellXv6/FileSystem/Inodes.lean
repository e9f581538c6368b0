import CShellXv6.Library.LittleEndian
import CShellXv6.FileSystem.Blocks

/-! # Inodes and the blocks they own

An inode holds the addresses of its blocks in slots: the direct ones, the one of the
indirect block, and those in the indirect block. Every block in a slot is marked in
the free map and is in no other slot, of this inode or of another, and no block is
marked that is in no slot; bmap, which takes blocks from the free map, keeps this, and
no file changes by it.
-/
namespace CShellXv6.Files
open Log (Block)
open LittleEndian

def NDIRECT : ℕ := 12
def NINDIRECT : ℕ := BSIZE / 4
def MAXFILE : ℕ := NDIRECT + NINDIRECT

/-- An inode in memory. -/
structure Inode where
  type : ℕ
  major : ℕ
  minor : ℕ
  nlink : ℕ
  size : ℕ
  addrs : ℕ → ℕ

def Inode.setAddr (ip : Inode) (k a : ℕ) : Inode :=
  { ip with addrs := Function.update ip.addrs k a }

/-- Takes a block for an empty slot of the inode itself; 0 is no block. -/
def fill (sb : Superblock) (ip : Inode) (k : ℕ) (t : Trans) : ℕ × Trans × Inode :=
  if ip.addrs k = 0 then
    match balloc sb t with
    | none => (0,t,ip)
    | some (a,u) => (a,u,ip.setAddr k a)
  else (ip.addrs k,t,ip)

/-- The address of block `bn` of the file, taking a block if there is none; panics when `bn` is out
of range. -/
def bmap (sb : Superblock) (ip : Inode) (bn : ℕ) (t : Trans) : Option (ℕ × Trans × Inode) :=
  if bn < NDIRECT then some (fill sb ip bn t)
  else if bn - NDIRECT < NINDIRECT then
    match fill sb ip NDIRECT t with
    | (addr,t,ip) =>
      if addr = 0 then some (0,t,ip)
      else if getLE (t.disk addr) (4 * (bn - NDIRECT)) 4 = 0 then
        match balloc sb t with
        | none => some (0,t,ip)
        | some (a,u) => some (a,u.write addr (setLE (u.disk addr) (4 * (bn - NDIRECT)) 4 a),ip)
      else some (getLE (t.disk addr) (4 * (bn - NDIRECT)) 4,t,ip)
  else none

/-- The address in a slot. -/
def addrOf (disk : ℕ → Block) (ip : Inode) (k : ℕ) : ℕ :=
  if k ≤ NDIRECT then ip.addrs k
  else if ip.addrs NDIRECT = 0 ∨ MAXFILE < k then 0
  else getLE (disk (ip.addrs NDIRECT)) (4 * (k - NDIRECT - 1)) 4

/-- The slot of block `bn` of a file. -/
def slot (bn : ℕ) : ℕ := if bn < NDIRECT then bn else bn + 1

/-- Block `bn` of a file; a block that is not there reads as zeroes. -/
def fileBlock (disk : ℕ → Block) (ip : Inode) (bn : ℕ) : Block :=
  if addrOf disk ip (slot bn) = 0 then fun _ => 0 else disk (addrOf disk ip (slot bn))

/-- The free map and the slots of all inodes agree. -/
structure Consistent (sb : Superblock) (disk : ℕ → Block) (ino : ℕ → Inode) : Prop where
  reserved : ∀ b < sb.datastart, used sb disk b = true
  owned : ∀ i k, addrOf disk (ino i) k ≠ 0 → sb.datastart ≤ addrOf disk (ino i) k ∧
    addrOf disk (ino i) k < sb.size ∧ used sb disk (addrOf disk (ino i) k) = true
  unique : ∀ i k j l, addrOf disk (ino i) k ≠ 0 →
    addrOf disk (ino i) k = addrOf disk (ino j) l → i = j ∧ k = l
  kept : ∀ b, sb.datastart ≤ b → b < sb.size → used sb disk b = true →
    ∃ i k, addrOf disk (ino i) k = b

section Slots
variable {sb : Superblock} {t u : Trans} {disk : ℕ → Block} {ino ino' : ℕ → Inode} {ip : Inode}
  {a b i j k l bn : ℕ}

theorem slot_ne : slot bn ≠ NDIRECT := by
  unfold slot
  split
  · omega
  · omega

theorem slot_inj {bn' : ℕ} (h : slot bn = slot bn') : bn = bn' := by
  unfold slot at h
  split at h
  · split at h
    · exact h
    · omega
  · split at h
    · omega
    · omega

theorem addrOf_direct (h : k ≤ NDIRECT) : addrOf disk ip k = ip.addrs k := if_pos h

theorem addrOf_entry (h : NDIRECT < k) (hk : k ≤ MAXFILE) (ha : ip.addrs NDIRECT ≠ 0) :
    addrOf disk ip k = getLE (disk (ip.addrs NDIRECT)) (4 * (k - NDIRECT - 1)) 4 := by
  rw [addrOf, if_neg (Nat.not_le.mpr h), if_neg (not_or.mpr ⟨ha,Nat.not_lt.mpr hk⟩)]

theorem addrOf_none (h : NDIRECT < k) (ha : ip.addrs NDIRECT = 0 ∨ MAXFILE < k) :
    addrOf disk ip k = 0 := by
  rw [addrOf, if_neg (Nat.not_le.mpr h), if_pos ha]

/-- The address in a slot depends on the inode and on its indirect block. -/
theorem addrOf_congr {disk' : ℕ → Block} {ip' : Inode} (hk : k ≤ NDIRECT → ip'.addrs k = ip.addrs k)
    (hind : NDIRECT < k → ip'.addrs NDIRECT = ip.addrs NDIRECT)
    (hdisk : ip.addrs NDIRECT ≠ 0 → disk' (ip.addrs NDIRECT) = disk (ip.addrs NDIRECT)) :
    addrOf disk' ip' k = addrOf disk ip k := by
  unfold addrOf
  split
  case isTrue h => exact hk h
  case isFalse h =>
    rw [hind (Nat.lt_of_not_le h)]
    split
    · rfl
    case isFalse h => rw [hdisk (not_or.mp h).1]

theorem Consistent.datastart_le (h : Consistent sb disk ino) (ha : used sb disk a = false) :
    sb.datastart ≤ a := by
  by_contra hlt
  rw [h.reserved a (Nat.lt_of_not_le hlt)] at ha
  cases ha

/-- A block that is free is in no slot. -/
theorem Consistent.fresh (h : Consistent sb disk ino) (ha : used sb disk a = false)
    (hb : addrOf disk (ino j) l ≠ 0) : addrOf disk (ino j) l ≠ a := by
  intro e
  have hused := (h.owned j l hb).2.2
  rw [e, ha] at hused
  cases hused

/-- A block in a slot stays as it is when another is taken. -/
theorem Consistent.rest (h : Consistent sb t.disk ino) (hal : Allocated sb t u a)
    (hb : addrOf t.disk (ino j) l ≠ 0) :
    u.disk (addrOf t.disk (ino j) l) = t.disk (addrOf t.disk (ino j) l) := by
  apply hal.rest _ (h.fresh hal.free hb)
  have h1 := Superblock.BBLOCK_lt hal.size
  have h2 := (h.owned j l hb).1
  omega

/-- Consistency looks at the slots and at the free map. -/
theorem Consistent.congr {disk' : ℕ → Block} (h : Consistent sb disk ino) (hlay : Layout sb)
    (haddr : ∀ j k, addrOf disk' (ino' j) k = addrOf disk (ino j) k)
    (hbits : ∀ c < sb.size, used sb disk' c = used sb disk c) : Consistent sb disk' ino' := by
  refine ⟨fun b hb => ?_,fun j k hx => ?_,fun j k j' k' hx heq => ?_,fun b h1 h2 hb => ?_⟩
  · rw [hbits b (Nat.lt_of_lt_of_le hb hlay.data), h.reserved b hb]
  · rw [haddr] at hx ⊢
    obtain ⟨h1,h2,h3⟩ := h.owned j k hx
    exact ⟨h1,h2,by rw [hbits _ h2, h3]⟩
  · rw [haddr] at hx
    rw [haddr, haddr] at heq
    exact h.unique j k j' k' hx heq
  · rw [hbits b h2] at hb
    obtain ⟨j,k,hjk⟩ := h.kept b h1 h2 hb
    exact ⟨j,k,(haddr j k).trans hjk⟩

section Assign
variable {disk' : ℕ → Block}

/-- A free block is put into an empty slot. -/
theorem Consistent.assign (h : Consistent sb t.disk ino) (hlay : Layout sb)
    (hal : Allocated sb t u a) (hempty : addrOf t.disk (ino i) k = 0)
    (hA : ∀ j l, addrOf disk' (ino' j) l = if j = i ∧ l = k then a else addrOf t.disk (ino j) l)
    (hbits : ∀ c < sb.size, used sb disk' c = used sb u.disk c) : Consistent sb disk' ino' := by
  have hdata := h.datastart_le hal.free
  have hused : ∀ c < sb.size, used sb disk' c = (decide (c = a) || used sb t.disk c) := by
    intro c hc
    have hlt := Superblock.BBLOCK_lt hc
    rw [hbits c hc, hal.bits c (by omega)]
  constructor
  case reserved =>
    intro b hb
    rw [hused b (Nat.lt_of_lt_of_le hb hlay.data), h.reserved b hb, Bool.or_true]
  case owned =>
    intro j l hne
    by_cases hjl : j = i ∧ l = k
    · rw [hA, if_pos hjl]
      exact ⟨hdata,hal.size,by rw [hused a hal.size, decide_eq_true rfl, Bool.true_or]⟩
    · rw [hA, if_neg hjl] at hne ⊢
      obtain ⟨h1,h2,h3⟩ := h.owned j l hne
      exact ⟨h1,h2,by rw [hused _ h2, h3, Bool.or_true]⟩
  case unique =>
    intro j l j' l' hne heq
    rw [hA] at hne
    rw [hA, hA] at heq
    split at heq
    case isTrue hjl =>
      split at heq
      case isTrue hjl' => exact ⟨hjl.1.trans hjl'.1.symm,hjl.2.trans hjl'.2.symm⟩
      case isFalse hjl' =>
        rw [if_pos hjl, heq] at hne
        exact absurd heq.symm (h.fresh hal.free hne)
    case isFalse hjl =>
      rw [if_neg hjl] at hne
      split at heq
      case isTrue hjl' => exact absurd heq (h.fresh hal.free hne)
      case isFalse hjl' => exact h.unique j l j' l' hne heq
  case kept =>
    intro b h1 h2 hb
    by_cases hba : b = a
    · exact ⟨i,k,by rw [hA, if_pos ⟨rfl,rfl⟩, hba]⟩
    · rw [hused b h2, decide_eq_false hba, Bool.false_or] at hb
      obtain ⟨j,l,hjl⟩ := h.kept b h1 h2 hb
      refine ⟨j,l,?_⟩
      rw [hA, if_neg, hjl]
      rintro ⟨rfl,rfl⟩
      have hpos : 0 < sb.datastart := Nat.succ_pos _
      omega

/-- No file changes by it: the block is zero, as a block that is not there reads. -/
theorem Consistent.fileBlock_assign (h : Consistent sb t.disk ino) (hal : Allocated sb t u a)
    (hempty : addrOf t.disk (ino i) k = 0)
    (hA : ∀ j l, addrOf disk' (ino' j) l = if j = i ∧ l = k then a else addrOf t.disk (ino j) l)
    (hzero : disk' a = fun _ => 0)
    (hrest : ∀ b, b ≠ a → b ≠ sb.BBLOCK a → (b ≠ 0 → b ≠ (ino i).addrs NDIRECT) →
      disk' b = t.disk b) :
    fileBlock disk' (ino' j) bn = fileBlock t.disk (ino j) bn := by
  unfold fileBlock
  rw [hA]
  by_cases hjl : j = i ∧ slot bn = k
  · rw [if_pos hjl, hzero, hjl.1, hjl.2, if_pos hempty]
    split
    · rfl
    · rfl
  · rw [if_neg hjl]
    split
    · rfl
    case isFalse hne =>
      apply hrest _ (h.fresh hal.free hne)
      · have h1 := Superblock.BBLOCK_lt hal.size
        have h2 := (h.owned j _ hne).1
        omega
      · intro _ e
        exact slot_ne (h.unique j _ i NDIRECT hne (e.trans (addrOf_direct (Nat.le_refl _)).symm)).2

end Assign

/-- What a call that takes blocks for inode `i` leaves: the slots that were filled, the other files,
and the blocks below the free map. It logs blocks of the free map and blocks in the slots `ks`. -/
structure Extended (sb : Superblock) (i : ℕ) (ino : ℕ → Inode) (t u : Trans) (ip : Inode)
    (ks : List ℕ) : Prop where
  consistent : Consistent sb u.disk (Function.update ino i ip)
  keeps : ∀ j k, addrOf t.disk (ino j) k ≠ 0 →
    addrOf u.disk (Function.update ino i ip j) k = addrOf t.disk (ino j) k
  others : ∀ j bn, j ≠ i → fileBlock u.disk (ino j) bn = fileBlock t.disk (ino j) bn
  same : ∃ addrs, ip = { ino i with addrs := addrs } ∧ ∀ k, NDIRECT < k → addrs k = (ino i).addrs k
  low : ∀ b < sb.bmapstart, u.disk b = t.disk b
  logged : ∀ b ∈ u.logged, b ∈ t.logged ∨ (∃ c < sb.size, b = sb.BBLOCK c) ∨
    ∃ k ∈ ks, b ≠ 0 ∧ b = addrOf u.disk ip k

/-- A call that leaves the file itself, too. -/
structure Grown (sb : Superblock) (i : ℕ) (ino : ℕ → Inode) (t u : Trans) (ip : Inode)
    (ks : List ℕ) : Prop extends Extended sb i ino t u ip ks where
  own : ∀ bn, fileBlock u.disk ip bn = fileBlock t.disk (ino i) bn

theorem Extended.refl (h : Consistent sb t.disk ino) (ks : List ℕ) :
    Extended sb i ino t t (ino i) ks := by
  have hself : Function.update ino i (ino i) = ino := Function.update_eq_self i ino
  exact ⟨by rwa [hself],fun j k _ => by rw [hself],fun _ _ _ => rfl,⟨_,rfl,fun _ _ => rfl⟩,
    fun _ _ => rfl,fun b hb => .inl hb⟩

theorem Extended.mono {ks ls : List ℕ} (h : Extended sb i ino t u ip ks) (hsub : ks ⊆ ls) :
    Extended sb i ino t u ip ls := by
  refine ⟨h.consistent,h.keeps,h.others,h.same,h.low,fun b hb => ?_⟩
  exact (h.logged b hb).imp_right (Or.imp_right fun ⟨k,hk,hbk⟩ => ⟨k,hsub hk,hbk⟩)

theorem Extended.trans {v : Trans} {ip' : Inode} {ks : List ℕ} (h : Extended sb i ino t u ip ks)
    (g : Extended sb i (Function.update ino i ip) u v ip' ks) : Extended sb i ino t v ip' ks := by
  have hkeep := g.keeps
  have hcons := g.consistent
  simp only [Function.update_idem] at hkeep hcons
  refine ⟨hcons,fun j k hne => ?_,fun j bn hj => ?_,?_,
    fun b hb => (g.low b hb).trans (h.low b hb),fun b hb => ?_⟩
  · rw [hkeep j k (by rw [h.keeps j k hne]; exact hne), h.keeps j k hne]
  · have hg := g.others j bn hj
    rw [Function.update_of_ne hj] at hg
    exact hg.trans (h.others j bn hj)
  · obtain ⟨addrs,hsame,hrest⟩ := h.same
    obtain ⟨addrs',hsame',hrest'⟩ := g.same
    rw [Function.update_self, hsame] at hsame' hrest'
    exact ⟨addrs',hsame',fun k hk => (hrest' k hk).trans (hrest k hk)⟩
  · rcases g.logged b hb with hu | hmap | hslot
    · rcases h.logged b hu with ht | hmap | ⟨k,hk,hne,hbk⟩
      · exact .inl ht
      · exact .inr (.inl hmap)
      · have hstay := hkeep i k (by rw [Function.update_self, ← hbk]; exact hne)
        rw [Function.update_self, Function.update_self] at hstay
        exact .inr (.inr ⟨k,hk,hne,by rw [hstay, hbk]⟩)
    · exact .inr (.inl hmap)
    · exact .inr (.inr hslot)

theorem Grown.refl (h : Consistent sb t.disk ino) (ks : List ℕ) : Grown sb i ino t t (ino i) ks :=
  ⟨.refl h ks,fun _ => rfl⟩

theorem Grown.mono {ks ls : List ℕ} (h : Grown sb i ino t u ip ks) (hsub : ks ⊆ ls) :
    Grown sb i ino t u ip ls := ⟨h.toExtended.mono hsub,h.own⟩

theorem Grown.trans {v : Trans} {ip' : Inode} {ks : List ℕ} (h : Grown sb i ino t u ip ks)
    (g : Grown sb i (Function.update ino i ip) u v ip' ks) : Grown sb i ino t v ip' ks := by
  refine ⟨h.toExtended.trans g.toExtended,fun bn => ?_⟩
  have hg := g.own bn
  rw [Function.update_self] at hg
  exact hg.trans (h.own bn)

theorem Consistent.grown (h : Consistent sb t.disk ino) (hlay : Layout sb)
    (hal : Allocated sb t u a) {v : Trans} {ks : List ℕ} (hempty : addrOf t.disk (ino i) k = 0)
    (hA : ∀ j l, addrOf v.disk (Function.update ino i ip j) l =
      if j = i ∧ l = k then a else addrOf t.disk (ino j) l)
    (hbits : ∀ c < sb.size, used sb v.disk c = used sb u.disk c)
    (hzero : v.disk a = fun _ => 0)
    (hrest : ∀ b, b ≠ a → b ≠ sb.BBLOCK a → (b ≠ 0 → b ≠ (ino i).addrs NDIRECT) →
      v.disk b = t.disk b)
    (hsame : ∃ addrs, ip = { ino i with addrs := addrs } ∧
      ∀ k, NDIRECT < k → addrs k = (ino i).addrs k) (hk : k ∈ ks)
    (hlogged : ∀ b ∈ v.logged, b ∈ u.logged ∨ ∃ k ∈ ks, b ≠ 0 ∧ b = addrOf v.disk ip k) :
    Grown sb i ino t v ip ks := by
  have hdata := h.datastart_le hal.free
  have hstart : sb.bmapstart < sb.datastart := Nat.lt_succ_of_le (Nat.le_add_right _ _)
  have hblocks : ∀ j bn, fileBlock v.disk (Function.update ino i ip j) bn =
      fileBlock t.disk (ino j) bn := fun j bn => h.fileBlock_assign hal hempty hA hzero hrest
  refine ⟨⟨h.assign hlay hal hempty hA hbits,fun j l hne => ?_,fun j bn hj => ?_,hsame,fun b hb => ?_,
    fun b hb => ?_⟩,fun bn => ?_⟩
  · rw [hA, if_neg]
    rintro ⟨rfl,rfl⟩
    exact hne hempty
  · have hj' := hblocks j bn
    rwa [Function.update_of_ne hj] at hj'
  · have hle : sb.bmapstart ≤ sb.BBLOCK a := Nat.le_add_left _ _
    refine hrest b (by omega) (by omega) fun hne e => ?_
    have hind : addrOf t.disk (ino i) NDIRECT = b := (addrOf_direct (Nat.le_refl _)).trans e.symm
    have := (h.owned i NDIRECT (hind ▸ hne)).1
    omega
  · rcases hlogged b hb with hu | hslot
    · rw [hal.logged, List.mem_cons, List.mem_cons] at hu
      rcases hu with rfl | rfl | ht
      · have hself := hA i k
        rw [Function.update_self, if_pos ⟨rfl,rfl⟩] at hself
        exact .inr (.inr ⟨k,hk,by omega,hself.symm⟩)
      · exact .inr (.inl ⟨a,hal.size,rfl⟩)
      · exact .inl ht
    · exact .inr (.inr hslot)
  · have hi := hblocks i bn
    rwa [Function.update_self] at hi

/-- A block for a slot of the inode itself. -/
theorem addrOf_setAddr (h : Consistent sb t.disk ino) (hal : Allocated sb t u a) (hk : k ≤ NDIRECT)
    (hempty : (ino i).addrs k = 0) (j l : ℕ) :
    addrOf u.disk (Function.update ino i ((ino i).setAddr k a) j) l =
      if j = i ∧ l = k then a else addrOf t.disk (ino j) l := by
  have hind : ∀ j, (ino j).addrs NDIRECT ≠ 0 →
      u.disk ((ino j).addrs NDIRECT) = t.disk ((ino j).addrs NDIRECT) := by
    intro j hne
    have hslot : addrOf t.disk (ino j) NDIRECT = (ino j).addrs NDIRECT :=
      addrOf_direct (Nat.le_refl _)
    rw [← hslot] at hne ⊢
    exact h.rest hal hne
  by_cases hj : j = i
  · subst hj
    rw [Function.update_self]
    by_cases hl : l = k
    · rw [if_pos ⟨rfl,hl⟩, hl, addrOf_direct hk]
      exact Function.update_self ..
    · rw [if_neg (fun h => hl h.2)]
      by_cases hkn : k = NDIRECT ∧ NDIRECT < l
      · obtain ⟨rfl,hlt⟩ := hkn
        rw [addrOf_none hlt (.inl hempty)]
        by_cases hmax : MAXFILE < l
        · exact addrOf_none hlt (.inr hmax)
        · have haddr : ((ino j).setAddr NDIRECT a).addrs NDIRECT = a := by
            simp only [Inode.setAddr, Function.update_self]
          by_cases ha : a = 0
          · exact addrOf_none hlt (.inl (haddr.trans ha))
          · rw [addrOf_entry hlt (Nat.le_of_not_lt hmax) (by rwa [haddr]), haddr, hal.zero,
              getLE_zero]
      · apply addrOf_congr (fun _ => Function.update_of_ne hl ..) (fun hlt => ?_) (hind j)
        exact Function.update_of_ne (fun e => hkn ⟨e.symm,hlt⟩) ..
  · rw [Function.update_of_ne hj, if_neg (fun h => hj h.1)]
    exact addrOf_congr (fun _ => rfl) (fun _ => rfl) (hind j)

/-- What a call gives back: the address in the slot, or 0 when no block is free. -/
def Gives (sb : Superblock) (k addr : ℕ) (t : Trans) (ip : Inode) : Prop :=
  addr = addrOf t.disk ip k ∧ (addr = 0 → ∀ b < sb.size, used sb t.disk b = true)

theorem fill_grown (h : Consistent sb t.disk ino) (hlay : Layout sb) (hk : k ≤ NDIRECT) :
    Grown sb i ino t (fill sb (ino i) k t).2.1 (fill sb (ino i) k t).2.2 [k] ∧
    Gives sb k (fill sb (ino i) k t).1 (fill sb (ino i) k t).2.1 (fill sb (ino i) k t).2.2 := by
  unfold fill
  split
  case isTrue hempty =>
    have hslot : addrOf t.disk (ino i) k = 0 := (addrOf_direct hk).trans hempty
    cases hb : balloc sb t with
    | none => exact ⟨Grown.refl h _,hslot.symm,fun _ b hlt => balloc_none hb hlt⟩
    | some x =>
      obtain ⟨a,u⟩ := x
      have hal := balloc_some hb
      have hdata := h.datastart_le hal.free
      have hA := addrOf_setAddr h hal hk hempty
      have hself := hA i k
      rw [Function.update_self, if_pos ⟨rfl,rfl⟩] at hself
      refine ⟨h.grown hlay hal hslot hA (fun _ _ => rfl) hal.zero
        (fun b h1 h2 _ => hal.rest b h1 h2)
        ⟨_,rfl,fun l hl => Function.update_of_ne (by omega) ..⟩ (List.mem_singleton.mpr rfl)
        (fun b hb => .inl hb),hself.symm,fun ha => ?_⟩
      have hpos : 0 < sb.datastart := Nat.succ_pos _
      change a = 0 at ha
      change sb.datastart ≤ a at hdata
      omega
  case isFalse hne =>
    exact ⟨Grown.refl h _,(addrOf_direct hk).symm,fun ha => absurd ha hne⟩

/-- A block for an entry of the indirect block. -/
theorem addrOf_setEntry (h : Consistent sb t.disk ino) (hlay : Layout sb) (hal : Allocated sb t u a)
    (hind : (ino i).addrs NDIRECT ≠ 0) (hk : NDIRECT < k) (hmax : k ≤ MAXFILE) (j l : ℕ) :
    addrOf (u.write ((ino i).addrs NDIRECT)
      (setLE (u.disk ((ino i).addrs NDIRECT)) (4 * (k - NDIRECT - 1)) 4 a)).disk (ino j) l =
      if j = i ∧ l = k then a else addrOf t.disk (ino j) l := by
  have hslot : ∀ j, addrOf t.disk (ino j) NDIRECT = (ino j).addrs NDIRECT :=
    fun j => addrOf_direct (Nat.le_refl _)
  by_cases hl : l ≤ NDIRECT
  · rw [addrOf_direct hl, addrOf_direct hl, if_neg]
    rintro ⟨_,rfl⟩
    omega
  have hl := Nat.lt_of_not_le hl
  by_cases hnone : (ino j).addrs NDIRECT = 0 ∨ MAXFILE < l
  · rw [addrOf_none hl hnone, addrOf_none hl hnone, if_neg]
    rintro ⟨rfl,rfl⟩
    exact hnone.elim hind (Nat.not_lt.mpr hmax)
  obtain ⟨hj,hlmax⟩ := not_or.mp hnone
  have hlmax := Nat.le_of_not_lt hlmax
  have hrest := h.rest hal (j := j) (l := NDIRECT) (by rwa [hslot])
  rw [hslot] at hrest
  rw [addrOf_entry hl hlmax hj, addrOf_entry hl hlmax hj]
  by_cases hji : j = i
  · subst hji
    rw [Trans.write_self, hrest]
    by_cases hlk : l = k
    · rw [if_pos ⟨rfl,hlk⟩, hlk, getLE_setLE_of_lt (Nat.lt_of_lt_of_le hal.size hlay.bounded)]
    · rw [if_neg (fun h => hlk h.2), getLE_setLE_of_disjoint (by omega)]
  · have hne : (ino j).addrs NDIRECT ≠ (ino i).addrs NDIRECT := by
      intro e
      rw [← hslot, ← hslot] at e
      exact hji (h.unique j NDIRECT i NDIRECT (by rwa [hslot]) e).1
    rw [Trans.write_of_ne hne, hrest, if_neg (fun h => hji h.1)]

theorem entry_grown (h : Consistent sb t.disk ino) (hlay : Layout sb) (hal : Allocated sb t u a)
    (hind : (ino i).addrs NDIRECT ≠ 0) (hk : NDIRECT < k) (hmax : k ≤ MAXFILE)
    (hempty : addrOf t.disk (ino i) k = 0) :
    Grown sb i ino t (u.write ((ino i).addrs NDIRECT)
      (setLE (u.disk ((ino i).addrs NDIRECT)) (4 * (k - NDIRECT - 1)) 4 a)) (ino i) [k,NDIRECT] ∧
    Gives sb k a (u.write ((ino i).addrs NDIRECT)
      (setLE (u.disk ((ino i).addrs NDIRECT)) (4 * (k - NDIRECT - 1)) 4 a)) (ino i) := by
  have hself : Function.update ino i (ino i) = ino := Function.update_eq_self i ino
  have hslot : addrOf t.disk (ino i) NDIRECT = (ino i).addrs NDIRECT :=
    addrOf_direct (Nat.le_refl _)
  have hdata := h.datastart_le hal.free
  have hpos : 0 < sb.datastart := Nat.succ_pos _
  have hown := h.owned i NDIRECT (by rwa [hslot])
  have hfresh := h.fresh hal.free (j := i) (l := NDIRECT) (by rwa [hslot])
  rw [hslot] at hown hfresh
  have hA := addrOf_setEntry h hlay hal hind hk hmax
  have hik := hA i k
  rw [if_pos ⟨rfl,rfl⟩] at hik
  refine ⟨h.grown hlay hal hempty (by rwa [hself]) (fun c hc => ?_) ?_ (fun b h1 h2 h3 => ?_)
    ⟨_,rfl,fun _ _ => rfl⟩ (List.mem_cons_self ..) fun b hb => ?_,hik.symm,fun ha => by omega⟩
  · have hlt := Superblock.BBLOCK_lt hc
    rw [used, used, Trans.write_of_ne (by omega)]
  · rw [Trans.write_of_ne hfresh.symm, hal.zero]
  · have hne : b ≠ (ino i).addrs NDIRECT := fun e => h3 (e ▸ hind) e
    rw [Trans.write_of_ne hne, hal.rest b h1 h2]
  · rcases List.mem_cons.mp hb with rfl | hb
    · exact .inr ⟨NDIRECT,by simp,hind,(addrOf_direct (Nat.le_refl _)).symm⟩
    · exact .inl hb

theorem bmap_grown {addr : ℕ} (h : Consistent sb t.disk ino) (hlay : Layout sb)
    (hb : bmap sb (ino i) bn t = some (addr,u,ip)) :
    Grown sb i ino t u ip [slot bn,NDIRECT] ∧ Gives sb (slot bn) addr u ip := by
  unfold bmap at hb
  split at hb
  case isTrue hlt =>
    have hslot : slot bn = bn := if_pos hlt
    obtain ⟨hgrown,hgives⟩ := fill_grown (i := i) h hlay (Nat.le_of_lt hlt)
    rw [Option.some.inj hb] at hgrown hgives
    rw [hslot]
    exact ⟨hgrown.mono (by simp),hgives⟩
  case isFalse hge =>
  split at hb
  case isFalse => cases hb
  case isTrue hmax =>
    have hslot : slot bn = bn + 1 := if_neg hge
    have hk : NDIRECT < bn + 1 := by omega
    have hoff : bn + 1 - NDIRECT - 1 = bn - NDIRECT := by omega
    have hle : bn + 1 ≤ MAXFILE := by
      unfold MAXFILE
      omega
    obtain ⟨hgrown,hgives⟩ := fill_grown (i := i) (k := NDIRECT) h hlay (Nat.le_refl _)
    generalize fill sb (ino i) NDIRECT t = x at hb hgrown hgives
    obtain ⟨a,v,ip'⟩ := x
    obtain ⟨hindirect,hfull⟩ := hgives
    rw [addrOf_direct (Nat.le_refl _)] at hindirect
    dsimp only at hb hgrown hindirect hfull
    rw [hslot]
    split at hb
    case isTrue hzero =>
      obtain ⟨rfl,rfl,rfl⟩ := by simpa using hb
      refine ⟨hgrown.mono (by simp),?_,fun _ => hfull hzero⟩
      exact (addrOf_none hk (.inl (hindirect ▸ hzero))).symm
    case isFalse hne =>
      have hind : (Function.update ino i ip' i).addrs NDIRECT ≠ 0 := by
        rw [Function.update_self, ← hindirect]
        exact hne
      have hentry : addrOf v.disk (Function.update ino i ip' i) (bn + 1) = _ :=
        addrOf_entry hk hle hind
      rw [Function.update_self, ← hindirect, hoff] at hentry
      split at hb
      case isTrue hempty =>
        cases hal : balloc sb v with
        | none =>
          rw [hal] at hb
          obtain ⟨rfl,rfl,rfl⟩ := by simpa using hb
          exact ⟨hgrown.mono (by simp),(hentry.trans hempty).symm,
            fun _ b hlt => balloc_none hal hlt⟩
        | some y =>
          obtain ⟨a',w⟩ := y
          rw [hal] at hb
          obtain ⟨rfl,rfl,rfl⟩ := by simpa using hb
          have hnew := entry_grown hgrown.consistent hlay (balloc_some hal) hind hk hle
            (by rw [Function.update_self, hentry]; exact hempty)
          rw [Function.update_self, ← hindirect, hoff] at hnew
          exact ⟨(hgrown.mono (by simp)).trans hnew.1,hnew.2⟩
      case isFalse hfilled =>
        obtain ⟨rfl,rfl,rfl⟩ := by simpa using hb
        exact ⟨hgrown.mono (by simp),hentry.symm,fun ha => absurd ha hfilled⟩

end Slots

end CShellXv6.Files
