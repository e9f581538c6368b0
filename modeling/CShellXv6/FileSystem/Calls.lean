import Mathlib.Data.Finset.Card
import CShellXv6.FileSystem.ReadWrite

/-! # Calls on files

itrunc gives the blocks of a file back to the free map. filewrite cuts a write into
operations that each fit into the log. Any sequence of calls is served as it would be
by a table of byte lists, one for each inode.
-/
namespace CShellXv6.Files
open Log (Block MAXOPBLOCKS)
open LittleEndian
open Segments

/-- Frees the blocks of a list; 0 is no block. -/
def bfreeAll (sb : Superblock) : List ℕ → Trans → Option Trans
  | [], t => some t
  | a :: rest, t => if a = 0 then bfreeAll sb rest t else (bfree sb a t).bind (bfreeAll sb rest)

/-- An inode without blocks. -/
def Inode.emptied (ip : Inode) : Inode := { ip with addrs := fun _ => 0, size := 0 }

def itrunc (sb : Superblock) (i : ℕ) (ip : Inode) (t : Trans) : Option (Trans × Inode) :=
  ((bfreeAll sb ((List.range NDIRECT).map ip.addrs) t).bind fun t =>
    if ip.addrs NDIRECT = 0 then some t
    else (bfreeAll sb (getAll (t.disk (ip.addrs NDIRECT)) 0 4 NINDIRECT) t).bind
      (bfree sb (ip.addrs NDIRECT))).map fun t =>
    (iupdate sb i ip.emptied t,ip.emptied)

/-- An inode that is not in use. -/
def Inode.blank : Inode := ⟨0,0,0,0,0,fun _ => 0⟩

/-- A disk without files, of ten blocks. -/
def emptyDisk : ℕ → Block :=
  Function.update (Function.update (fun _ _ => 0) 2 (putInode (fun _ => 0) 0 .blank)) 4
    fun x => if x = 0 then 31 else 0

section Truncating
variable {sb : Superblock} {t u : Trans} {ino : ℕ → Inode} {ip : Inode} {i : ℕ}
  {as bs ks : List ℕ} {A : ℕ → ℕ}

theorem bfreeAll_append :
    bfreeAll sb (as ++ bs) t = (bfreeAll sb as t).bind (bfreeAll sb bs) := by
  induction as generalizing t with
  | nil => rfl
  | cons a as ih =>
    rw [List.cons_append, bfreeAll, bfreeAll]
    split
    · exact ih
    · rw [Option.bind_assoc]
      exact congrArg (Option.bind _) (funext fun u => ih)

theorem bfreeAll_zero (h : ∀ a ∈ as, a = 0) : bfreeAll sb as t = some t := by
  induction as with
  | nil => rfl
  | cons a as ih =>
    obtain ⟨ha,has⟩ := List.forall_mem_cons.mp h
    rw [bfreeAll, if_pos ha, ih has]

/-- What freeing the blocks in some slots changes. -/
structure Freed (sb : Superblock) (ks : List ℕ) (A : ℕ → ℕ) (t u : Trans) : Prop where
  bits : ∀ c, used sb u.disk c = true ↔
    used sb t.disk c = true ∧ ∀ k ∈ ks, A k ≠ 0 → A k ≠ c
  rest : ∀ b, (∀ k ∈ ks, A k ≠ 0 → b ≠ sb.BBLOCK (A k)) → u.disk b = t.disk b
  logged : ∀ b ∈ u.logged, b ∈ t.logged ∨ ∃ k ∈ ks, A k ≠ 0 ∧ b = sb.BBLOCK (A k)

/-- No block is freed twice when no two slots have the same. -/
theorem bfreeAll_spec (hnd : ks.Nodup) (hinj : ∀ k l, A k ≠ 0 → A k = A l → k = l)
    (hused : ∀ k ∈ ks, A k ≠ 0 → used sb t.disk (A k) = true) :
    ∃ u, bfreeAll sb (ks.map A) t = some u ∧ Freed sb ks A t u := by
  induction ks generalizing t with
  | nil =>
    refine ⟨t,rfl,fun c => ?_,fun _ _ => rfl,fun b hb => .inl hb⟩
    simp
  | cons k ks ih =>
    obtain ⟨hk,hnd⟩ := List.nodup_cons.mp hnd
    obtain ⟨hfirst,hused⟩ := List.forall_mem_cons.mp hused
    rw [List.map_cons, bfreeAll]
    by_cases hzero : A k = 0
    · obtain ⟨u,hu,hf⟩ := ih hnd hused
      rw [if_pos hzero]
      refine ⟨u,hu,fun c => ?_,fun b hb => hf.rest b (List.forall_mem_cons.mp hb).2,
        fun b hb => ?_⟩
      · rw [hf.bits, List.forall_mem_cons]
        exact and_congr_right fun _ => ⟨fun h => ⟨fun hne => absurd hzero hne,h⟩,And.right⟩
      · rcases hf.logged b hb with hb | ⟨l,hl,h⟩
        · exact .inl hb
        · exact .inr ⟨l,List.mem_cons_of_mem _ hl,h⟩
    · obtain ⟨v,hv,hbits,hrest,hlog⟩ := bfree_spec (hfirst hzero)
      have hstill : ∀ l ∈ ks, A l ≠ 0 → used sb v.disk (A l) = true := by
        intro l hl hne
        have hkl : A l ≠ A k := fun e => hk (hinj l k hne e ▸ hl)
        rw [hbits, hused l hl hne, decide_eq_true hkl, Bool.true_and]
      obtain ⟨u,hu,hf⟩ := ih hnd hstill
      rw [if_neg hzero, hv]
      refine ⟨u,hu,fun c => ?_,fun b hb => ?_,fun b hb => ?_⟩
      · rw [hf.bits, hbits, List.forall_mem_cons, Bool.and_eq_true, decide_eq_true_iff]
        constructor
        · rintro ⟨⟨hne,hc⟩,hl⟩
          exact ⟨hc,fun _ => hne.symm,hl⟩
        · rintro ⟨hc,hne,hl⟩
          exact ⟨⟨(hne hzero).symm,hc⟩,hl⟩
      · obtain ⟨h1,h2⟩ := List.forall_mem_cons.mp hb
        rw [hf.rest b h2, hrest b (h1 hzero)]
      · rcases hf.logged b hb with hb | ⟨l,hl,h⟩
        · rw [hlog] at hb
          rcases List.mem_cons.mp hb with rfl | hb
          · exact .inr ⟨k,List.mem_cons_self ..,hzero,rfl⟩
          · exact .inl hb
        · exact .inr ⟨l,List.mem_cons_of_mem _ hl,h⟩

/-- The blocks in slots of an inode can be freed. -/
theorem Consistent.bfreeAll_slots (h : Consistent sb t.disk ino) (hnd : ks.Nodup) :
    ∃ u, bfreeAll sb (ks.map (addrOf t.disk (ino i))) t = some u ∧
      Freed sb ks (addrOf t.disk (ino i)) t u :=
  bfreeAll_spec hnd (fun k l hne e => (h.unique i k i l hne e).2)
    fun k _ hne => (h.owned i k hne).2.2

/-- The slots in the order in which itrunc frees their blocks. -/
def allSlots : List ℕ := List.range NDIRECT ++ (List.range' (NDIRECT + 1) NINDIRECT ++ [NDIRECT])

theorem mem_allSlots {k : ℕ} : k ∈ allSlots ↔ k ≤ MAXFILE := by
  simp only [allSlots, List.mem_append, List.mem_range, List.mem_range'_1, List.mem_singleton,
    MAXFILE]
  omega

theorem nodup_allSlots : allSlots.Nodup := by
  refine List.nodup_append.mpr ⟨List.nodup_range,List.nodup_append.mpr
    ⟨List.nodup_range',List.nodup_singleton _,fun a ha b hb => ?_⟩,fun a ha b hb => ?_⟩
  · have hlow := (List.mem_range'_1.mp ha).1
    have heq := List.mem_singleton.mp hb
    omega
  · simp only [List.mem_range, List.mem_append, List.mem_range'_1, List.mem_singleton] at ha hb
    omega

/-- The addresses in the indirect block are those of the slots after it. -/
theorem getAll_entries (hind : ip.addrs NDIRECT ≠ 0) :
    getAll (t.disk (ip.addrs NDIRECT)) 0 4 NINDIRECT =
      (List.range' (NDIRECT + 1) NINDIRECT).map (addrOf t.disk ip) := by
  rw [getAll_eq_map, List.range'_eq_map_range, List.map_map]
  apply List.map_congr_left
  intro k hk
  have hlt := List.mem_range.mp hk
  have hoff : NDIRECT + 1 + k - NDIRECT - 1 = k := by omega
  rw [Function.comp_apply, addrOf_entry (by omega) (by unfold MAXFILE; omega) hind, hoff,
    Nat.zero_add]

/-- itrunc frees the blocks in all slots: the indirect block is not changed before it is read. -/
theorem itrunc_eq (h : Consistent sb t.disk ino) :
    itrunc sb i (ino i) t = (bfreeAll sb (allSlots.map (addrOf t.disk (ino i))) t).map fun t =>
      (iupdate sb i (ino i).emptied t,(ino i).emptied) := by
  have hdirect : (List.range NDIRECT).map (ino i).addrs =
      (List.range NDIRECT).map (addrOf t.disk (ino i)) := by
    apply List.map_congr_left
    intro k hk
    rw [addrOf_direct (Nat.le_of_lt (List.mem_range.mp hk))]
  obtain ⟨u,hu,hf⟩ := h.bfreeAll_slots (i := i) (List.nodup_range (n := NDIRECT))
  have hlast : addrOf t.disk (ino i) NDIRECT = (ino i).addrs NDIRECT :=
    addrOf_direct (Nat.le_refl _)
  rw [itrunc, allSlots, List.map_append, bfreeAll_append, hdirect, hu, Option.bind_some,
    Option.bind_some, List.map_append, bfreeAll_append, List.map_singleton, hlast]
  congr 1
  split
  case isTrue hind =>
    rw [bfreeAll_zero, Option.bind_some, bfreeAll, if_pos hind, bfreeAll]
    intro a ha
    obtain ⟨k,hk,rfl⟩ := List.mem_map.mp ha
    exact addrOf_none (List.mem_range'_1.mp hk).1 (.inl hind)
  case isFalse hind =>
    have hsame : u.disk ((ino i).addrs NDIRECT) = t.disk ((ino i).addrs NDIRECT) := by
      refine hf.rest _ fun k _ hne e => ?_
      have h1 := Superblock.BBLOCK_lt (h.owned i k hne).2.1
      have h2 := (h.owned i NDIRECT (by rwa [hlast])).1
      omega
    rw [hsame, getAll_entries hind]
    congr 1
    funext v
    rw [bfreeAll, if_neg hind]
    exact (Option.bind_fun_some _).symm

/-- The disk after the blocks of inode `i` are given back. -/
structure Truncated (sb : Superblock) (i : ℕ) (ino : ℕ → Inode) (t u : Trans) : Prop where
  mounted : Mounted sb u.disk (Function.update ino i (ino i).emptied)
  others : ∀ j, j ≠ i → bytes u.disk (ino j) = bytes t.disk (ino j)
  freed : ∀ c, used sb u.disk c = false ↔ used sb t.disk c = false ∨
    c ≠ 0 ∧ ∃ k, addrOf t.disk (ino i) k = c
  logged : ∀ b ∈ u.logged, b ∈ t.logged ∨ b = sb.IBLOCK i ∨ ∃ c < sb.size, b = sb.BBLOCK c

theorem addrOf_emptied {disk : ℕ → Block} (ip : Inode) (k : ℕ) : addrOf disk ip.emptied k = 0 := by
  by_cases hk : k ≤ NDIRECT
  · exact addrOf_direct hk
  · exact addrOf_none (Nat.lt_of_not_le hk) (.inl rfl)

/-- The blocks of no other file are among those that are freed. -/
theorem Freed.truncated (h : Mounted sb t.disk ino) (hlay : Layout sb) (hi : i < sb.ninodes)
    (hf : Freed sb allSlots (addrOf t.disk (ino i)) t u) :
    Truncated sb i ino t (iupdate sb i (ino i).emptied u) := by
  have hslots : ∀ k, addrOf t.disk (ino i) k ≠ 0 → k ∈ allSlots := by
    intro k hne
    rw [mem_allSlots]
    by_contra hgt
    have hlt := Nat.lt_of_not_le hgt
    exact hne (addrOf_none (by unfold MAXFILE at hlt; omega) (.inr hlt))
  have hmap : ∀ k, addrOf t.disk (ino i) k ≠ 0 →
      sb.bmapstart ≤ sb.BBLOCK (addrOf t.disk (ino i) k) ∧
      sb.BBLOCK (addrOf t.disk (ino i) k) < sb.datastart :=
    fun k hne => ⟨Nat.le_add_left _ _,Superblock.BBLOCK_lt (h.owned i k hne).2.1⟩
  have hlow : ∀ b < sb.bmapstart, u.disk b = t.disk b := fun b hb =>
    hf.rest b fun k _ hne e => by have := hmap k hne; omega
  have hdata : ∀ b, sb.datastart ≤ b → u.disk b = t.disk b := fun b hb =>
    hf.rest b fun k _ hne e => by have := hmap k hne; omega
  have haddr : ∀ j k, addrOf u.disk (ino j) k = addrOf t.disk (ino j) k := by
    intro j k
    refine addrOf_congr (fun _ => rfl) (fun _ => rfl) fun hind => ?_
    have hslot : addrOf t.disk (ino j) NDIRECT = (ino j).addrs NDIRECT :=
      addrOf_direct (Nat.le_refl _)
    rw [← hslot] at hind ⊢
    exact hdata _ (h.owned j NDIRECT hind).1
  have hA : ∀ j k, addrOf u.disk (Function.update ino i (ino i).emptied j) k =
      if j = i then 0 else addrOf t.disk (ino j) k := by
    intro j k
    split
    case isTrue hj => rw [hj, Function.update_self, addrOf_emptied]
    case isFalse hj => rw [Function.update_of_ne hj, haddr j k]
  have hcons : Consistent sb u.disk (Function.update ino i (ino i).emptied) := by
    constructor
    case reserved =>
      intro b hb
      refine (hf.bits b).mpr ⟨h.reserved b hb,fun k _ hne e => ?_⟩
      have := (h.owned i k hne).1
      omega
    case owned =>
      intro j k hne
      rw [hA] at hne ⊢
      by_cases hj : j = i
      · exact absurd (if_pos hj) hne
      rw [if_neg hj] at hne ⊢
      obtain ⟨h1,h2,h3⟩ := h.owned j k hne
      exact ⟨h1,h2,(hf.bits _).mpr ⟨h3,fun l _ hl e => hj (h.unique i l j k hl e).1.symm⟩⟩
    case unique =>
      intro j k j' k' hne heq
      rw [hA] at hne
      rw [hA, hA] at heq
      by_cases hj : j = i
      · exact absurd (if_pos hj) hne
      rw [if_neg hj] at hne heq
      by_cases hj' : j' = i
      · exact absurd (heq.trans (if_pos hj')) hne
      · rw [if_neg hj'] at heq
        exact h.unique j k j' k' hne heq
    case kept =>
      intro b h1 h2 hb
      obtain ⟨hold,hnot⟩ := (hf.bits b).mp hb
      obtain ⟨j,k,hjk⟩ := h.kept b h1 h2 hold
      have hpos : 0 < sb.datastart := Nat.succ_pos _
      have hne : addrOf t.disk (ino j) k ≠ 0 := by omega
      refine ⟨j,k,?_⟩
      rw [hA, if_neg, hjk]
      rintro rfl
      exact hnot k (hslots k hne) hne hjk
  obtain ⟨hcons',haddr',hblock,hbits⟩ := hcons.write_low hlay (hlay.IBLOCK_lt hi) (fun _ => rfl)
    (v := putInode (u.disk (sb.IBLOCK i)) (i % IPB * 64) (ino i).emptied)
  have hother : ∀ j k, j ≠ i → addrOf (iupdate sb i (ino i).emptied u).disk (ino j) k =
      addrOf t.disk (ino j) k := by
    intro j k hj
    have hj' := haddr' j k
    rw [Function.update_of_ne hj] at hj'
    exact hj'.trans (haddr j k)
  have hfit : (ino i).emptied.Fits :=
    ⟨(h.fits i).type,(h.fits i).major,(h.fits i).minor,(h.fits i).nlink,Nat.pow_pos (by decide),
      fun _ => Nat.pow_pos (by decide),fun _ _ => rfl⟩
  have hdense : ∀ j, Dense (iupdate sb i (ino i).emptied u).disk
      (Function.update ino i (ino i).emptied j) := by
    intro j x hx
    by_cases hj : j = i
    · rw [hj, Function.update_self] at hx
      exact absurd hx (Nat.not_lt_zero x)
    · rw [Function.update_of_ne hj] at hx ⊢
      rw [hother j _ hj]
      exact h.dense j x hx
  refine ⟨h.store hlay hfit (Nat.zero_le _) hi hlow hcons' hdense,fun j hj => ?others,
    fun c => ?freed,fun b hb => ?logged⟩
  case others =>
    refine bytes_congr rfl fun bn => ?_
    have hj' := hblock j bn
    rw [Function.update_of_ne hj] at hj'
    refine hj'.trans ?_
    unfold fileBlock
    rw [haddr]
    split
    · rfl
    case isFalse hne => exact hdata _ (h.owned j _ hne).1
  case freed =>
    rw [iupdate, hbits, ← Bool.not_eq_true, hf.bits]
    constructor
    · intro hnot
      by_cases hc : used sb t.disk c = true
      · right
        by_contra hno
        exact hnot ⟨hc,fun k _ hne e => hno ⟨e ▸ hne,k,e⟩⟩
      · exact .inl ((Bool.not_eq_true _).mp hc)
    · rintro (hc | ⟨hne,k,rfl⟩) ⟨h1,h2⟩
      · rw [hc] at h1
        cases h1
      · exact h2 k (hslots k hne) hne rfl
  case logged =>
    rcases List.mem_cons.mp hb with rfl | hb
    · exact .inr (.inl rfl)
    · rcases hf.logged b hb with hb | ⟨k,_,hne,hbk⟩
      · exact .inl hb
      · exact .inr (.inr ⟨_,(h.owned i k hne).2.1,hbk⟩)

/-- No block of the inode is free already, so bfree does not panic. -/
theorem itrunc_freed (h : Mounted sb t.disk ino) :
    ∃ u, itrunc sb i (ino i) t = some (iupdate sb i (ino i).emptied u,(ino i).emptied) ∧
      Freed sb allSlots (addrOf t.disk (ino i)) t u := by
  obtain ⟨u,hu,hf⟩ := h.bfreeAll_slots (i := i) nodup_allSlots
  refine ⟨u,?_,hf⟩
  rw [itrunc_eq h.toConsistent, hu]
  rfl

theorem layout_emptyDisk : Layout ⟨10,1,2,4⟩ := ⟨by decide,by decide,by decide⟩

theorem mounted_emptyDisk : Mounted ⟨10,1,2,4⟩ emptyDisk fun _ => .blank := by
  have hnone : ∀ k, addrOf emptyDisk .blank k = 0 := addrOf_emptied .blank
  have hfree : ∀ b < 10, 5 ≤ b → used ⟨10,1,2,4⟩ emptyDisk b = false := by decide
  have hfit : Inode.blank.Fits := ⟨by decide,by decide,by decide,by decide,by decide,
    fun _ => Nat.pow_pos (by decide),fun _ _ => rfl⟩
  have hblock : emptyDisk 2 = putInode (fun _ => 0) 0 .blank := by
    rw [emptyDisk, Function.update_of_ne (by decide), Function.update_self]
  refine ⟨⟨by decide,fun _ k hne => absurd (hnone k) hne,fun _ k _ _ hne => absurd (hnone k) hne,
    fun b h1 h2 hb => ?_⟩,fun _ x hx => absurd hx (Nat.not_lt_zero x),fun _ => Nat.zero_le _,
    fun _ => hfit,fun _ _ _ => rfl,fun i hi => ?_⟩
  · rw [hfree b h2 h1] at hb
    cases hb
  · obtain rfl : i = 0 := Nat.lt_one_iff.mp hi
    change getInode (emptyDisk 2) 0 = _
    rw [hblock, getInode_putInode hfit]

end Truncating

/-- The most that filewrite passes to writei in one operation. -/
def chunk : ℕ := (MAXOPBLOCKS - 1 - 1 - 2) / 2 * BSIZE

/-- Where filewrite is: the bytes counted so far, the offset of the open file, the inode, the disk,
and the blocks that each operation has logged. -/
structure Progress where
  i : ℕ
  off : ℕ
  ip : Inode
  disk : ℕ → Block
  ops : List (List ℕ)

def filewriteLoop (sb : Superblock) (inum : ℕ) (src : ℕ → UInt8) (fault : ℕ → Option ℕ) (n : ℕ) :
    ℕ → Progress → Option Progress
  | 0, s => some s
  | fuel + 1, s =>
    if s.i < n then
      let n1 := if chunk < n - s.i then chunk else n - s.i
      match writei sb inum s.ip (fun x => src (s.i + x)) (fun x => fault (s.i + x)) s.off n1
        ⟨s.disk,[]⟩ with
      | none => none
      | some (r,t,ip) =>
        let off := if 0 < r then s.off + r.toNat else s.off
        if r = n1 then
          filewriteLoop sb inum src fault n fuel ⟨s.i + n1,off,ip,t.disk,s.ops ++ [t.logged]⟩
        else some ⟨s.i,off,ip,t.disk,s.ops ++ [t.logged]⟩
    else some s

/-- filewrite for a file on the disk. -/
def filewrite (sb : Superblock) (inum : ℕ) (writable : Bool) (src : ℕ → UInt8)
    (fault : ℕ → Option ℕ) (n : ℤ) (s : Progress) : Option (ℤ × Progress) :=
  if writable = false ∨ n < 0 then some (-1,s)
  else (filewriteLoop sb inum src fault n.toNat n.toNat { s with i := 0 }).map fun s =>
    (if s.i = n.toNat then n else -1,s)

section Filewrite
variable {sb : Superblock} {disk disk' disk'' : ℕ → Block} {ino : ℕ → Inode} {ip ip' : Inode}
  {i off n m stop extra : ℕ} {src : ℕ → UInt8} {fault : ℕ → Option ℕ} {s : Progress}

theorem Replaced.refl (h : Mounted sb disk ino) :
    Replaced sb i ino src off 0 0 disk disk (ino i) := by
  refine ⟨by rwa [Function.update_eq_self],?_,fun _ _ => rfl⟩
  rw [segment_zero, overwrite_nil, List.take_of_length_le]
  rw [length_bytes]
  exact Nat.le_max_left _ _

theorem Replaced.size (hoff : off ≤ (ino i).size)
    (h : Replaced sb i ino src off stop extra disk disk' ip) :
    ip.size = max (ino i).size (off + stop) := by
  have hlen : (bytes disk' ip).length = ip.size := length_bytes
  rw [← hlen, h.own, List.length_take,
    length_overwrite (by rwa [length_bytes]), length_bytes, length_segment]
  omega

/-- A write goes on where a complete one ended. -/
theorem Replaced.trans (hoff : off ≤ (ino i).size)
    (h : Replaced sb i ino src off m 0 disk disk' ip)
    (g : Replaced sb i (Function.update ino i ip) (fun x => src (m + x)) (off + m) stop extra disk'
      disk'' ip') : Replaced sb i ino src off (m + stop) extra disk disk'' ip' := by
  have hm := g.mounted
  rw [Function.update_idem] at hm
  have hfirst : bytes disk' ip = overwrite (bytes disk (ino i)) off (segment src 0 m) := by
    rw [h.own, Nat.add_zero, List.take_of_length_le]
    rw [length_overwrite (by rwa [length_bytes]), length_bytes, length_segment]
  have hseg : segment src 0 m ++ segment (fun x => src (m + x)) 0 (stop + extra) =
      segment src 0 (m + stop + extra) := by
    have happ := segment_append (f := src) (a := 0) (m := m) (n := stop + extra)
    rw [Nat.zero_add] at happ
    rw [segment_shift, Nat.add_zero, happ, Nat.add_assoc]
  refine ⟨hm,?_,fun j hj => ?_⟩
  · have happ : overwrite (overwrite (bytes disk (ino i)) off (segment src 0 m))
        (off + (segment src 0 m).length) (segment (fun x => src (m + x)) 0 (stop + extra)) = _ :=
      overwrite_append (by rwa [length_bytes])
    rw [length_segment, hseg] at happ
    have hown := g.own
    rw [Function.update_self, hfirst, happ, h.size hoff] at hown
    rw [hown]
    congr 1
    omega
  · have hj' := g.others j hj
    rw [Function.update_of_ne hj] at hj'
    exact hj'.trans (h.others j hj)

/-- The blocks that one operation logs are few enough for the log. -/
theorem length_touched (hn : n ≤ chunk) :
    (touched sb i disk ip off n).length ≤ sb.size / BPB + 7 := by
  have hcount : (off + n - 1) / BSIZE + 1 - off / BSIZE ≤ 4 := by
    unfold chunk MAXOPBLOCKS BSIZE at hn
    unfold BSIZE
    omega
  simp only [touched, List.length_append, List.length_cons, List.length_map, List.length_range,
    List.length_range']
  omega

/-- How filewrite ends: `done` bytes are written and the offset has moved by them. -/
structure Progressed (sb : Superblock) (inum : ℕ) (ino : ℕ → Inode) (src : ℕ → UInt8)
    (fault : ℕ → Option ℕ) (n done extra : ℕ) (s s' : Progress) : Prop extends
    Replaced sb inum ino (fun x => src (s.i + x)) s.off done extra s.disk s'.disk s'.ip where
  bound : s.i + done + extra ≤ n
  off : s'.off = s.off + done
  all : s'.i = n ↔ s.i + done = n
  extra : extra ≠ 0 → ∃ k, fault k ≠ none
  early : s.i + done < n → (∃ k, fault k ≠ none) ∨ (∀ b < sb.size, used sb s'.disk b = true) ∨
    (ino inum).size < s.off ∨ MAXFILE * BSIZE < s.off + (n - s.i)
  ops : ∀ op ∈ s'.ops, op ∈ s.ops ∨ op.toFinset.card ≤ sb.size / BPB + 7

theorem card_logged {l : List ℕ} (h : ∀ b ∈ l, b ∈ touched sb i disk ip off n) (hn : n ≤ chunk) :
    l.toFinset.card ≤ sb.size / BPB + 7 := by
  have hsub : l.toFinset ⊆ (touched sb i disk ip off n).toFinset := by
    intro b hb
    rw [List.mem_toFinset] at hb ⊢
    exact h b hb
  calc l.toFinset.card ≤ (touched sb i disk ip off n).toFinset.card := Finset.card_le_card hsub
    _ ≤ (touched sb i disk ip off n).length := List.toFinset_card_le _
    _ ≤ sb.size / BPB + 7 := length_touched hn

theorem mem_ops_append {ops : List (List ℕ)} {l : List ℕ} (hl : l.toFinset.card ≤ m) :
    ∀ op ∈ ops ++ [l], op ∈ ops ∨ op.toFinset.card ≤ m := by
  intro op hop
  rcases List.mem_append.mp hop with hop | hop
  · exact .inl hop
  · rw [List.mem_singleton.mp hop]
    exact .inr hl

theorem filewriteLoop_spec {inum fuel : ℕ} (src : ℕ → UInt8) (fault : ℕ → Option ℕ)
    (h : Mounted sb s.disk ino) (hlay : Layout sb) (hi : inum < sb.ninodes)
    (hip : s.ip = ino inum) (hs : s.i ≤ n) (hfuel : n ≤ s.i + fuel) :
    ∃ done extra s', filewriteLoop sb inum src fault n fuel s = some s' ∧
      Progressed sb inum ino src fault n done extra s s' := by
  induction fuel generalizing s ino with
  | zero =>
    exact ⟨0,0,s,rfl,hip ▸ .refl h,by omega,rfl,Iff.rfl,fun h => absurd rfl h,fun h => by omega,
      fun op hop => .inl hop⟩
  | succ fuel ih =>
    rw [filewriteLoop]
    by_cases hlt : s.i < n
    case neg =>
      rw [if_neg hlt]
      exact ⟨0,0,s,rfl,hip ▸ .refl h,by omega,rfl,Iff.rfl,fun h => absurd rfl h,fun h => by omega,
        fun op hop => .inl hop⟩
    have hchunk : 0 < chunk := by decide
    rw [if_pos hlt]
    dsimp only
    generalize hn1 : (if chunk < n - s.i then chunk else n - s.i) = n1
    have hle : n1 ≤ chunk ∧ n1 ≤ n - s.i ∧ 0 < n1 := by
      split at hn1
      · omega
      · omega
    obtain ⟨hmost,hrest,hpos⟩ := hle
    rcases writei_spec (t := ⟨s.disk,[]⟩) (fun x => src (s.i + x)) (fun x => fault (s.i + x)) s.off
      n1 h hlay hi with ⟨hbad,hw⟩ | ⟨hoff,stop,extra,u,ip,hw,hst⟩
    · rw [hip, hw]
      dsimp only
      rw [if_neg (show ¬ (0 : ℤ) < -1 by decide), if_neg (show ¬ (-1 : ℤ) = n1 by omega)]
      exact ⟨0,0,_,rfl,.refl h,by omega,rfl,Iff.rfl,fun h => absurd rfl h,
        fun _ => .inr (.inr (hbad.imp_right fun hlarge => by omega)),
        mem_ops_append (Nat.zero_le _)⟩
    have hlog : u.logged.toFinset.card ≤ sb.size / BPB + 7 :=
      card_logged (fun b hb => (hst.logged b hb).resolve_left (List.not_mem_nil)) hmost
    have hbound := hst.bound
    have hmove : (if (0 : ℤ) < stop then s.off + (stop : ℤ).toNat else s.off) = s.off + stop := by
      split
      · rw [Int.toNat_natCast]
      · omega
    rw [hip, hw]
    dsimp only
    rw [hmove]
    by_cases hfull : stop = n1
    · obtain rfl := hfull
      obtain rfl : extra = 0 := by omega
      obtain ⟨done,extra,s',hloop,hp⟩ := ih (s := ⟨s.i + stop,s.off + stop,ip,u.disk,
        s.ops ++ [u.logged]⟩) hst.mounted (by rw [Function.update_self]) (by dsimp only; omega)
        (by dsimp only; omega)
      have hnext := hp.toReplaced
      have hbd := hp.bound
      simp only [Nat.add_assoc] at hnext hbd
      rw [if_pos rfl, hloop]
      refine ⟨stop + done,extra,s',rfl,hst.toReplaced.trans hoff hnext,by omega,?_,?_,hp.extra,?_,
        ?_⟩
      · rw [hp.off, Nat.add_assoc]
      · rw [hp.all, Nat.add_assoc]
      · intro hless
        have hsize := hst.toReplaced.size hoff
        refine (hp.early (by dsimp only; omega)).imp_right (Or.imp_right ?_)
        rintro (hgap | hlarge)
        · rw [Function.update_self, hsize] at hgap
          dsimp only at hgap
          omega
        · dsimp only at hlarge
          exact .inr (by omega)
      · intro op hop
        rcases hp.ops op hop with hop | hop
        · exact mem_ops_append hlog op hop
        · exact .inr hop
    · rw [if_neg (by omega)]
      refine ⟨stop,extra,_,rfl,hst.toReplaced,by omega,rfl,by dsimp only; omega,
        fun hne => ⟨_,hst.extra hne⟩,fun _ => ?_,mem_ops_append hlog⟩
      exact (hst.early (by omega)).imp (fun hf => ⟨_,hf⟩) .inl

/-- filewrite does as one call of writei would, chunk by chunk, and no chunk logs more blocks than
begin_op reserves. -/
theorem filewrite_overwrites {inum : ℕ} (src : ℕ → UInt8) (fault : ℕ → Option ℕ) (n : ℕ)
    (h : Mounted sb s.disk ino) (hlay : Layout sb) (hi : inum < sb.ninodes) (hip : s.ip = ino inum)
    (hops : s.ops = []) (hsize : sb.size < 4 * BPB) :
    ∃ done extra s',
      filewrite sb inum true src fault n s = some (if done = n then (n : ℤ) else -1,s') ∧
      Progressed sb inum ino src fault n done extra { s with i := 0 } s' ∧
      ∀ op ∈ s'.ops, op.toFinset.card ≤ MAXOPBLOCKS := by
  obtain ⟨done,extra,s',hloop,hp⟩ := filewriteLoop_spec (s := { s with i := 0 }) src fault
    (n := n) h hlay hi hip (Nat.zero_le n) (Nat.le_add_left n 0)
  refine ⟨done,extra,s',?_,hp,fun op hop => ?_⟩
  · have hdone : s'.i = n ↔ done = n := by
      rw [hp.all, Nat.zero_add]
    rw [filewrite, if_neg (by simp), Int.toNat_natCast, hloop]
    simp only [Option.map_some, hdone]
  · rcases hp.ops op hop with hop | hop
    · rw [hops] at hop
      cases hop
    · have hmap : sb.size / BPB < 4 := Nat.div_lt_of_lt_mul (by rwa [Nat.mul_comm])
      unfold MAXOPBLOCKS
      omega

theorem filewrite_overwrites_empty : ∃ done extra s',
    filewrite ⟨10,1,2,4⟩ 0 true (fun _ => 7) (fun _ => none) 5000
      ⟨0,0,.blank,emptyDisk,[]⟩ = some (if done = 5000 then 5000 else -1,s') ∧
    Progressed ⟨10,1,2,4⟩ 0 (fun _ => .blank) (fun _ => 7) (fun _ => none) 5000
      done extra ⟨0,0,.blank,emptyDisk,[]⟩ s' ∧
    ∀ op ∈ s'.ops, op.toFinset.card ≤ MAXOPBLOCKS :=
  filewrite_overwrites (fun _ => 7) (fun _ => none) 5000 mounted_emptyDisk layout_emptyDisk
    Nat.one_pos rfl rfl (by decide)

end Filewrite

/-- A call on the file of an inode, with what the copies from or to the caller do. -/
inductive Call
  | read (i : ℕ) (ok : ℕ → Bool) (off n : ℕ)
  | write (i : ℕ) (src : ℕ → UInt8) (fault : ℕ → Option ℕ) (off n : ℕ)
  | trunc (i : ℕ)

/-- Calls name an inode of the disk; the places that a read asks for have 32 bits. -/
def Call.Valid (sb : Superblock) : Call → Prop
  | .read i _ off n => i < sb.ninodes ∧ off + n < 2 ^ 32
  | .write i _ _ _ _ => i < sb.ninodes
  | .trunc i => i < sb.ninodes

/-- What a call gives back, and whether no block is free after it. -/
structure Reply where
  ret : ℤ
  data : List UInt8
  full : Bool

def isFull (sb : Superblock) (disk : ℕ → Block) : Bool := (List.range sb.size).all (used sb disk)

/-- A call on a disk, with the inodes in memory. -/
def serve (sb : Superblock) (disk : ℕ → Block) (ino : ℕ → Inode) :
    Call → Option (Reply × (ℕ → Block) × (ℕ → Inode))
  | .read i ok off n => (readi sb (ino i) ok off n ⟨disk,[]⟩).map fun x =>
      (⟨x.1,x.2.1,isFull sb x.2.2.1.disk⟩,x.2.2.1.disk,Function.update ino i x.2.2.2)
  | .write i src fault off n => (writei sb i (ino i) src fault off n ⟨disk,[]⟩).map fun x =>
      (⟨x.1,[],isFull sb x.2.1.disk⟩,x.2.1.disk,Function.update ino i x.2.2)
  | .trunc i => (itrunc sb i (ino i) ⟨disk,[]⟩).map fun x =>
      (⟨0,[],isFull sb x.1.disk⟩,x.1.disk,Function.update ino i x.2)

def serveAll (sb : Superblock) : List Call → (ℕ → Block) → (ℕ → Inode) →
    Option (List Reply × (ℕ → Block) × (ℕ → Inode))
  | [], disk, ino => some ([],disk,ino)
  | c :: cs, disk, ino => (serve sb disk ino c).bind fun x =>
      (serveAll sb cs x.2.1 x.2.2).map fun y => (x.1 :: y.1,y.2)

/-- What a table of byte lists answers to a call, and the table after it. -/
inductive Answer (files : ℕ → List UInt8) : Call → Reply → (ℕ → List UInt8) → Prop
  | read {i ok off n full} : Answer files (.read i ok off n)
      ⟨(((files i).drop off).take n).length,((files i).drop off).take n,full⟩ files
  | unread {i ok off n full data} (k : ℕ) : ok k = false → data <+: ((files i).drop off).take n →
      Answer files (.read i ok off n) ⟨-1,data,full⟩ files
  | refuse {i src fault off n full} : (files i).length < off ∨ MAXFILE * BSIZE < off + n →
      Answer files (.write i src fault off n) ⟨-1,[],full⟩ files
  | write {i src fault off n full} (stop extra : ℕ) : off ≤ (files i).length → stop + extra ≤ n →
      (extra ≠ 0 → fault stop ≠ none) → (stop < n → fault stop ≠ none ∨ full = true) →
      Answer files (.write i src fault off n) ⟨stop,[],full⟩ (Function.update files i
        ((overwrite (files i) off (segment src 0 (stop + extra))).take
          (max (files i).length (off + stop))))
  | trunc {i full} : Answer files (.trunc i) ⟨0,[],full⟩ (Function.update files i [])

inductive Answers : (ℕ → List UInt8) → List Call → List Reply → (ℕ → List UInt8) → Prop
  | nil {files} : Answers files [] [] files
  | cons {files files' files'' c cs r rs} : Answer files c r files' → Answers files' cs rs files'' →
      Answers files (c :: cs) (r :: rs) files''

section Calls
variable {sb : Superblock} {disk disk' : ℕ → Block} {ino : ℕ → Inode} {ip : Inode} {i : ℕ}

theorem bytes_update (h : ∀ j, j ≠ i → bytes disk' (ino j) = bytes disk (ino j)) :
    (fun j => bytes disk' (Function.update ino i ip j)) =
      Function.update (fun j => bytes disk (ino j)) i (bytes disk' ip) := by
  funext j
  by_cases hj : j = i
  · rw [hj, Function.update_self, Function.update_self]
  · rw [Function.update_of_ne hj, Function.update_of_ne hj, h j hj]

theorem isFull_of_used (h : ∀ b < sb.size, used sb disk b = true) : isFull sb disk = true :=
  List.all_eq_true.mpr fun b hb => h b (List.mem_range.mp hb)

theorem serve_answer {c : Call} (h : Mounted sb disk ino) (hlay : Layout sb) (hc : c.Valid sb) :
    ∃ r disk' ino', serve sb disk ino c = some (r,disk',ino') ∧ Mounted sb disk' ino' ∧
      Answer (fun i => bytes disk (ino i)) c r fun i => bytes disk' (ino' i) := by
  cases c with
  | read i ok off n =>
    obtain ⟨r,data,hread,hdata⟩ := readi_spec (t := ⟨disk,[]⟩) sb ok (h.dense i) hc.2
    rw [serve, hread]
    refine ⟨_,_,_,rfl,by rwa [Function.update_eq_self],?_⟩
    rw [Function.update_eq_self]
    rcases hdata with ⟨hr,rfl⟩ | ⟨rfl,⟨k,hk⟩,hpre⟩
    · rw [hr]
      exact .read
    · exact .unread k hk hpre
  | write i src fault off n =>
    rcases writei_spec (t := ⟨disk,[]⟩) src fault off n h hlay hc with
      ⟨hbad,hw⟩ | ⟨hoff,stop,extra,u,ip,hw,hst⟩
    · rw [serve, hw]
      refine ⟨_,_,_,rfl,by rwa [Function.update_eq_self],?_⟩
      rw [Function.update_eq_self]
      exact .refuse (by rwa [length_bytes])
    · rw [serve, hw]
      refine ⟨_,_,_,rfl,hst.mounted,?_⟩
      rw [bytes_update hst.others, hst.own]
      have hans : Answer (fun i => bytes disk (ino i)) (.write i src fault off n)
          ⟨stop,[],isFull sb u.disk⟩ _ :=
        .write stop extra (by rwa [length_bytes]) hst.bound hst.extra
          fun hlt => (hst.early hlt).imp_right isFull_of_used
      rw [length_bytes] at hans
      exact hans
  | trunc i =>
    obtain ⟨u,hu,hf⟩ := itrunc_freed (i := i) (t := ⟨disk,[]⟩) h
    have htr := hf.truncated h hlay hc
    rw [serve, hu]
    refine ⟨_,_,_,rfl,htr.mounted,?_⟩
    rw [bytes_update htr.others]
    exact .trunc

/-- No sequence of calls panics, and each is served as a table of byte lists serves it. -/
theorem calls_as_files (cs : List Call) (h : Mounted sb disk ino) (hlay : Layout sb)
    (hcs : ∀ c ∈ cs, c.Valid sb) :
    ∃ rs disk' ino', serveAll sb cs disk ino = some (rs,disk',ino') ∧ Mounted sb disk' ino' ∧
      Answers (fun i => bytes disk (ino i)) cs rs fun i => bytes disk' (ino' i) := by
  induction cs generalizing disk ino with
  | nil => exact ⟨_,_,_,rfl,h,.nil⟩
  | cons c cs ih =>
    obtain ⟨hc,hcs⟩ := List.forall_mem_cons.mp hcs
    obtain ⟨r,disk₁,ino₁,hserve,h₁,hans⟩ := serve_answer h hlay hc
    obtain ⟨rs,disk₂,ino₂,hrest,h₂,hall⟩ := ih h₁ hcs
    refine ⟨r :: rs,disk₂,ino₂,?_,h₂,.cons hans hall⟩
    rw [serveAll, hserve, Option.bind_some, hrest]
    rfl

theorem calls_as_files_empty : ∃ rs disk' ino',
    serveAll ⟨10,1,2,4⟩ [.write 0 (fun _ => 7) (fun _ => none) 0 3,.read 0 (fun _ => true) 1 9,
      .trunc 0] emptyDisk (fun _ => .blank) = some (rs,disk',ino') ∧
    Mounted ⟨10,1,2,4⟩ disk' ino' ∧
    Answers (fun _ => bytes emptyDisk .blank)
      [.write 0 (fun _ => 7) (fun _ => none) 0 3,.read 0 (fun _ => true) 1 9,.trunc 0] rs
      fun i => bytes disk' (ino' i) := by
  refine calls_as_files _ mounted_emptyDisk layout_emptyDisk ?_
  simp only [List.forall_mem_cons, Call.Valid]
  exact ⟨Nat.one_pos,⟨Nat.one_pos,by decide⟩,Nat.one_pos,fun _ h => by cases h⟩

end Calls

end CShellXv6.Files
