import CShellXv6.Library.Segments
import CShellXv6.FileSystem.Contents

/-! # readi and writei

To its users a file is a list of bytes. readi gives out a stretch of it, writei replaces
one. Between calls the disk is mounted: its inodes and the free map agree, every block
below the size of a file is there, and the inodes in memory are those on the disk.
-/
namespace CShellXv6.Files
open Log (Block)
open LittleEndian
open Segments

/-- The loop of readi: the result, the bytes that reached the caller, and the disk and the inode,
which bmap may change. A copy at `tot` succeeds when `ok tot`. -/
def readLoop (sb : Superblock) (ok : ℕ → Bool) (off n : ℕ) :
    ℕ → ℕ → Inode → Trans → Option (ℤ × List UInt8 × Trans × Inode)
  | 0, tot, ip, t => some (tot,[],t,ip)
  | fuel + 1, tot, ip, t =>
    if tot < n then
      match bmap sb ip ((off + tot) / BSIZE) t with
      | none => none
      | some (addr,t,ip) =>
        if addr = 0 then some (tot,[],t,ip)
        else
          let o := (off + tot) % BSIZE
          let m := min (n - tot) (BSIZE - o)
          if ok tot = true then
            (readLoop sb ok off n fuel (tot + m) ip t).map fun x =>
              (x.1,segment (t.disk addr) o m ++ x.2.1,x.2.2)
          else some (-1,[],t,ip)
    else some (tot,[],t,ip)

def readi (sb : Superblock) (ip : Inode) (ok : ℕ → Bool) (off n : ℕ) (t : Trans) :
    Option (ℤ × List UInt8 × Trans × Inode) :=
  if ip.size < off ∨ (off + n) % 2 ^ 32 < off then some (0,[],t,ip)
  else
    let n := if ip.size < off + n then ip.size - off else n
    readLoop sb ok off n n 0 ip t

/-- The bytes of a file, up to its size. -/
def bytes (disk : ℕ → Block) (ip : Inode) : List UInt8 := segment (content disk ip) 0 ip.size

/-- Every block below the size of the file is there. -/
def Dense (disk : ℕ → Block) (ip : Inode) : Prop :=
  ∀ x < ip.size, addrOf disk ip (slot (x / BSIZE)) ≠ 0

/-- The disk between calls, with the inodes in memory. -/
structure Mounted (sb : Superblock) (disk : ℕ → Block) (ino : ℕ → Inode) : Prop extends
    Consistent sb disk ino where
  dense : ∀ i, Dense disk (ino i)
  small : ∀ i, (ino i).size ≤ MAXFILE * BSIZE
  fits : ∀ i, (ino i).Fits
  outside : ∀ i k, sb.ninodes ≤ i → (ino i).addrs k = 0
  stored : ∀ i < sb.ninodes, dinode sb disk i = ino i

section Reading
variable {sb : Superblock} {t : Trans} {disk : ℕ → Block} {ip : Inode} {ok : ℕ → Bool}
  {off n tot bn : ℕ}

@[simp] theorem length_bytes : (bytes disk ip).length = ip.size := length_segment

theorem bytes_congr {disk' : ℕ → Block} {ip' : Inode} (hsize : ip'.size = ip.size)
    (h : ∀ bn, fileBlock disk' ip' bn = fileBlock disk ip bn) :
    bytes disk' ip' = bytes disk ip := by
  rw [bytes, bytes, hsize]
  refine segment_congr fun x _ _ => ?_
  rw [content, content, h]

/-- bmap takes no block when there is one. -/
theorem bmap_mapped (h : addrOf t.disk ip (slot bn) ≠ 0) :
    bmap sb ip bn t = some (addrOf t.disk ip (slot bn),t,ip) := by
  unfold bmap
  split
  case isTrue hlt =>
    have hslot : slot bn = bn := if_pos hlt
    rw [hslot, addrOf_direct (Nat.le_of_lt hlt)] at h ⊢
    rw [fill, if_neg h]
  case isFalse hge =>
    have hslot : slot bn = bn + 1 := if_neg hge
    have hk : NDIRECT < bn + 1 := by omega
    rw [hslot] at h ⊢
    by_cases hnone : ip.addrs NDIRECT = 0 ∨ MAXFILE < bn + 1
    · exact absurd (addrOf_none hk hnone) h
    obtain ⟨hind,hmax⟩ := not_or.mp hnone
    rw [addrOf_entry hk (Nat.le_of_not_lt hmax) hind] at h ⊢
    have hoff : bn + 1 - NDIRECT - 1 = bn - NDIRECT := by omega
    rw [hoff] at h ⊢
    unfold MAXFILE at hmax
    rw [if_pos (by omega), fill, if_neg hind]
    dsimp only
    rw [if_neg hind, if_neg h]

/-- The bytes of a file inside one block. -/
theorem segment_content {m : ℕ} (hne : addrOf t.disk ip (slot ((off + tot) / BSIZE)) ≠ 0)
    (hm : m ≤ BSIZE - (off + tot) % BSIZE) :
    segment (t.disk (addrOf t.disk ip (slot ((off + tot) / BSIZE)))) ((off + tot) % BSIZE) m =
      segment (content t.disk ip) (off + tot) m := by
  have hleft := segment_shift (f := t.disk (addrOf t.disk ip (slot ((off + tot) / BSIZE))))
    (b := (off + tot) % BSIZE) (a := 0) (n := m)
  have hright := segment_shift (f := content t.disk ip) (b := off + tot) (a := 0) (n := m)
  rw [Nat.add_zero] at hleft hright
  rw [← hleft, ← hright]
  refine segment_congr fun x _ hx => ?_
  have hdiv : (off + tot + x) / BSIZE = (off + tot) / BSIZE := by
    unfold BSIZE at hm ⊢
    omega
  have hmod : (off + tot + x) % BSIZE = (off + tot) % BSIZE + x := by
    unfold BSIZE at hm ⊢
    omega
  rw [content, hdiv, hmod, fileBlock, if_neg hne]

/-- The loop gives out the stretch from `tot` on, or fails at a copy after a part of it. -/
theorem readLoop_spec (sb : Superblock) (ok : ℕ → Bool) {fuel : ℕ}
    (hmap : ∀ x, off ≤ x → x < off + n → addrOf t.disk ip (slot (x / BSIZE)) ≠ 0)
    (htot : tot ≤ n) (hfuel : n ≤ tot + fuel) :
    ∃ r data, readLoop sb ok off n fuel tot ip t = some (r,data,t,ip) ∧
      (r = n ∧ data = segment (content t.disk ip) (off + tot) (n - tot) ∨
        r = -1 ∧ (∃ k, ok k = false) ∧
          data <+: segment (content t.disk ip) (off + tot) (n - tot)) := by
  induction fuel generalizing tot with
  | zero =>
    obtain rfl : tot = n := by omega
    exact ⟨_,_,rfl,.inl ⟨rfl,by rw [Nat.sub_self, segment_zero]⟩⟩
  | succ fuel ih =>
    rw [readLoop]
    by_cases hlt : tot < n
    case neg =>
      obtain rfl : tot = n := by omega
      rw [if_neg hlt]
      exact ⟨_,_,rfl,.inl ⟨rfl,by rw [Nat.sub_self, segment_zero]⟩⟩
    have hne := hmap (off + tot) (Nat.le_add_right _ _) (Nat.add_lt_add_left hlt _)
    have hpos : 0 < BSIZE - (off + tot) % BSIZE := by
      unfold BSIZE
      omega
    rw [if_pos hlt, bmap_mapped hne]
    dsimp only
    rw [if_neg hne]
    by_cases hok : ok tot = true
    case neg =>
      rw [if_neg hok]
      exact ⟨_,_,rfl,.inr ⟨rfl,⟨tot,(Bool.not_eq_true _).mp hok⟩,List.nil_prefix⟩⟩
    generalize hm : min (n - tot) (BSIZE - (off + tot) % BSIZE) = m
    have hnext : tot + m ≤ n := by omega
    obtain ⟨r,data,hloop,hdata⟩ := ih hnext (by omega)
    have hsplit : segment (content t.disk ip) (off + tot) (n - tot) =
        segment (content t.disk ip) (off + tot) m ++
          segment (content t.disk ip) (off + (tot + m)) (n - (tot + m)) := by
      rw [← Nat.add_assoc, segment_append]
      congr 1
      omega
    rw [if_pos hok, hloop, segment_content hne (by omega), hsplit]
    refine ⟨_,_,rfl,?_⟩
    rcases hdata with ⟨hr,rfl⟩ | ⟨hr,hfail,hpre⟩
    · exact .inl ⟨hr,rfl⟩
    · exact .inr ⟨hr,hfail,(List.prefix_append_right_inj _).mpr hpre⟩

/-- readi changes nothing and gives out the stretch of the file that there is. -/
theorem readi_spec (sb : Superblock) (ok : ℕ → Bool) (hdense : Dense t.disk ip)
    (hn : off + n < 2 ^ 32) :
    ∃ r data, readi sb ip ok off n t = some (r,data,t,ip) ∧
      (r = data.length ∧ data = ((bytes t.disk ip).drop off).take n ∨
        r = -1 ∧ (∃ k, ok k = false) ∧ data <+: ((bytes t.disk ip).drop off).take n) := by
  rw [bytes, drop_segment, take_segment, Nat.zero_add, readi]
  by_cases hoff : ip.size < off
  · rw [if_pos (.inl hoff), Nat.sub_eq_zero_of_le (Nat.le_of_lt hoff), Nat.min_zero, segment_zero]
    exact ⟨_,_,rfl,.inl ⟨rfl,rfl⟩⟩
  · rw [if_neg (by rw [Nat.mod_eq_of_lt hn]; omega)]
    have hmin : (if ip.size < off + n then ip.size - off else n) = min n (ip.size - off) := by
      split
      · omega
      · omega
    dsimp only
    rw [hmin]
    have hmap : ∀ x, off ≤ x → x < off + min n (ip.size - off) →
        addrOf t.disk ip (slot (x / BSIZE)) ≠ 0 := fun x _ hx => hdense x (by omega)
    obtain ⟨r,data,hloop,hdata⟩ := readLoop_spec sb ok hmap (Nat.zero_le _) (Nat.le_add_left _ 0)
    refine ⟨r,data,hloop,?_⟩
    rw [Nat.add_zero, Nat.sub_zero] at hdata
    rcases hdata with ⟨rfl,rfl⟩ | hfail
    · exact .inl ⟨by rw [length_segment],rfl⟩
    · exact .inr hfail

end Reading

section Updating
variable {sb : Superblock} {t u : Trans} {ino ino' : ℕ → Inode} {ip : Inode} {i j b : ℕ} {v : Block}
  {ks : List ℕ}

/-- iupdate stores one inode. -/
theorem dinode_iupdate (h : ip.Fits) : dinode sb (iupdate sb i ip t).disk j =
    if j = i then ip else dinode sb t.disk j := by
  unfold dinode iupdate
  split
  case isTrue hj => rw [hj, Trans.write_self, getInode_putInode h]
  case isFalse hj =>
    by_cases hblock : sb.IBLOCK j = sb.IBLOCK i
    · have hdiv : j / IPB = i / IPB := Nat.add_right_cancel hblock
      rw [hblock, Trans.write_self]
      refine getInode_congr fun x h1 h2 => putInode_of_outside ?_
      unfold IPB at *
      omega
    · rw [Trans.write_of_ne hblock]

theorem Layout.IBLOCK_lt (h : Layout sb) (hi : i < sb.ninodes) : sb.IBLOCK i < sb.bmapstart := by
  have hdiv := Nat.div_le_div_right (c := IPB) (Nat.le_of_lt hi)
  have hle := h.inodes
  unfold Superblock.IBLOCK
  omega

/-- Blocks below the free map hold no file. -/
theorem Consistent.write_low (h : Consistent sb t.disk ino) (hlay : Layout sb)
    (hb : b < sb.bmapstart) (hino : ∀ j, (ino' j).addrs = (ino j).addrs) :
    Consistent sb (t.write b v).disk ino' ∧
    (∀ j k, addrOf (t.write b v).disk (ino' j) k = addrOf t.disk (ino j) k) ∧
    (∀ j bn, fileBlock (t.write b v).disk (ino' j) bn = fileBlock t.disk (ino j) bn) ∧
    ∀ c, used sb (t.write b v).disk c = used sb t.disk c := by
  have hstart : sb.bmapstart < sb.datastart := Nat.lt_succ_of_le (Nat.le_add_right _ _)
  have hrest : ∀ j k, addrOf t.disk (ino j) k ≠ 0 → addrOf t.disk (ino j) k ≠ b := by
    intro j k hne e
    have := (h.owned j k hne).1
    omega
  have haddr : ∀ j k, addrOf (t.write b v).disk (ino' j) k = addrOf t.disk (ino j) k := by
    intro j k
    refine addrOf_congr (fun _ => by rw [hino]) (fun _ => by rw [hino]) fun hind => ?_
    have hslot : addrOf t.disk (ino j) NDIRECT = (ino j).addrs NDIRECT :=
      addrOf_direct (Nat.le_refl _)
    rw [← hslot] at hind ⊢
    exact Trans.write_of_ne (hrest j NDIRECT hind)
  have hbits : ∀ c, used sb (t.write b v).disk c = used sb t.disk c := by
    intro c
    have hle : sb.bmapstart ≤ sb.BBLOCK c := Nat.le_add_left _ _
    rw [used, used, Trans.write_of_ne (by omega)]
  refine ⟨h.congr hlay haddr fun c _ => hbits c,haddr,fun j bn => ?_,hbits⟩
  unfold fileBlock
  rw [haddr]
  split
  · rfl
  case isFalse hne => exact Trans.write_of_ne (hrest j _ hne)

/-- The addresses that bmap puts into an inode fit into it. -/
theorem Extended.fits (h : Extended sb i ino t u ip ks) (hlay : Layout sb) (hi : (ino i).Fits) :
    ip.Fits := by
  have hcons := h.consistent
  obtain ⟨addrs,rfl,hrest⟩ := h.same
  refine ⟨hi.type,hi.major,hi.minor,hi.nlink,hi.size,fun k => ?_,
    fun k hk => (hrest k hk).trans (hi.rest k hk)⟩
  by_cases hk : k ≤ NDIRECT
  · have hown := hcons.owned i k
    rw [Function.update_self, addrOf_direct hk] at hown
    by_cases hzero : addrs k = 0
    · exact lt_of_eq_of_lt hzero (by decide)
    · exact Nat.lt_of_lt_of_le (hown hzero).2.1 hlay.bounded
  · have hk := Nat.lt_of_not_le hk
    exact lt_of_eq_of_lt ((hrest k hk).trans (hi.rest k hk)) (by decide)

/-- An inode is stored and the disk is as before a call again. -/
theorem Mounted.store (h : Mounted sb t.disk ino) (hlay : Layout sb) (hfit : ip.Fits)
    (hsmall : ip.size ≤ MAXFILE * BSIZE) (hi : i < sb.ninodes)
    (hlow : ∀ b < sb.bmapstart, u.disk b = t.disk b)
    (hcons : Consistent sb (iupdate sb i ip u).disk (Function.update ino i ip))
    (hdense : ∀ j, Dense (iupdate sb i ip u).disk (Function.update ino i ip j)) :
    Mounted sb (iupdate sb i ip u).disk (Function.update ino i ip) := by
  refine ⟨hcons,hdense,?_,?_,fun j k hj => ?_,fun j hj => ?_⟩
  · exact (Function.forall_update_iff ino fun _ ip => ip.size ≤ MAXFILE * BSIZE).mpr
      ⟨hsmall,fun j _ => h.small j⟩
  · exact (Function.forall_update_iff ino fun _ ip => ip.Fits).mpr ⟨hfit,fun j _ => h.fits j⟩
  · rw [Function.update_of_ne (by omega)]
    exact h.outside j k hj
  · rw [dinode_iupdate hfit]
    split
    case isTrue hji => rw [hji, Function.update_self]
    case isFalse hji =>
      rw [Function.update_of_ne hji, dinode, hlow _ (hlay.IBLOCK_lt hj)]
      exact h.stored j hj

end Updating

section Writing
variable {sb : Superblock} {t u : Trans} {disk disk' : ℕ → Block} {ino : ℕ → Inode} {ip : Inode}
  {i off n stop extra : ℕ} {src : ℕ → UInt8} {fault : ℕ → Option ℕ}

/-- The disk after `stop` bytes of a write at `off`, and `extra` bytes of a copy that failed, which
count only below the size. -/
structure Replaced (sb : Superblock) (i : ℕ) (ino : ℕ → Inode) (src : ℕ → UInt8)
    (off stop extra : ℕ) (disk disk' : ℕ → Block) (ip : Inode) : Prop where
  mounted : Mounted sb disk' (Function.update ino i ip)
  own : bytes disk' ip = (overwrite (bytes disk (ino i)) off (segment src 0 (stop + extra))).take
    (max (ino i).size (off + stop))
  others : ∀ j, j ≠ i → bytes disk' (ino j) = bytes disk (ino j)

/-- The blocks that a write of `n` bytes at `off` may log: the inode, the free map, the indirect
block and the blocks of the stretch. -/
def touched (sb : Superblock) (i : ℕ) (disk : ℕ → Block) (ip : Inode) (off n : ℕ) : List ℕ :=
  sb.IBLOCK i :: (List.range (sb.size / BPB + 1)).map (· + sb.bmapstart) ++
    (NDIRECT :: (List.range' (off / BSIZE) ((off + n - 1) / BSIZE + 1 - off / BSIZE)).map slot).map
      (addrOf disk ip)

/-- How writei ends when it does not refuse the request. -/
structure Written (sb : Superblock) (i : ℕ) (ino : ℕ → Inode) (src : ℕ → UInt8)
    (fault : ℕ → Option ℕ) (off n stop extra : ℕ) (t u : Trans) (ip : Inode) : Prop extends
    Replaced sb i ino src off stop extra t.disk u.disk ip where
  bound : stop + extra ≤ n
  extra : extra ≠ 0 → fault stop ≠ none
  early : stop < n → fault stop ≠ none ∨ ∀ b < sb.size, used sb u.disk b = true
  logged : ∀ b ∈ u.logged, b ∈ t.logged ∨ b ∈ touched sb i u.disk ip off n

/-- The inode that the loop leaves, with its new size, is stored. -/
theorem Stopped.written (h : Mounted sb t.disk ino) (hlay : Layout sb)
    (hi : i < sb.ninodes) (hoff : off ≤ (ino i).size) (hmax : off + n ≤ MAXFILE * BSIZE)
    (hst : Stopped sb i ino src fault off n 0 stop extra t u ip (NDIRECT ::
      (List.range' (off / BSIZE) ((off + n - 1) / BSIZE + 1 - off / BSIZE)).map slot)) :
    Written sb i ino src fault off n stop extra t
      (iupdate sb i { ip with size := max (ino i).size (off + stop) } u)
      { ip with size := max (ino i).size (off + stop) } := by
  have hbound := hst.bound
  have hfit := hst.fits hlay (h.fits i)
  have hsmall : max (ino i).size (off + stop) ≤ MAXFILE * BSIZE :=
    Nat.max_le.mpr ⟨h.small i,by omega⟩
  generalize hsize : max (ino i).size (off + stop) = size at hsmall ⊢
  have hfit' : Inode.Fits { ip with size := size } :=
    ⟨hfit.type,hfit.major,hfit.minor,hfit.nlink,Nat.lt_of_le_of_lt hsmall (by decide),hfit.addrs,
      hfit.rest⟩
  have hino : ∀ j, (Function.update ino i { ip with size := size } j).addrs =
      (Function.update ino i ip j).addrs := by
    intro j
    by_cases hj : j = i
    · rw [hj, Function.update_self, Function.update_self]
    · rw [Function.update_of_ne hj, Function.update_of_ne hj]
  obtain ⟨hcons,haddr,hblock,hbits⟩ := hst.consistent.write_low hlay (hlay.IBLOCK_lt hi) hino
    (v := putInode (u.disk (sb.IBLOCK i)) (i % IPB * 64) { ip with size := size })
  have hself := haddr i
  have hown := hblock i
  rw [Function.update_self, Function.update_self] at hself hown
  have hcontent : ∀ x, content (iupdate sb i { ip with size := size } u).disk
      { ip with size := size } x =
      if off ≤ x ∧ x < off + (stop + extra) then src (x - off) else content t.disk (ino i) x := by
    intro x
    exact (congrFun (hown (x / BSIZE)) (x % BSIZE)).trans (hst.bytes x)
  have hdense : ∀ j, Dense (iupdate sb i { ip with size := size } u).disk
      (Function.update ino i { ip with size := size } j) := by
    intro j x hx
    by_cases hj : j = i
    · subst hj
      rw [Function.update_self] at hx ⊢
      rw [iupdate, hself]
      by_cases hold : x < (ino j).size
      · have hkeep := hst.keeps j _ (h.dense j x hold)
        rw [Function.update_self] at hkeep
        rw [hkeep]
        exact h.dense j x hold
      · exact hst.mapped x (by omega) (by dsimp only at hx; omega)
    · have hkeep := haddr j (slot (x / BSIZE))
      rw [Function.update_of_ne hj] at hx ⊢
      rw [Function.update_of_ne hj] at hkeep
      rw [iupdate, hkeep, hst.keeps j _ (h.dense j x hx)]
      exact h.dense j x hx
  refine ⟨⟨h.store hlay hfit' hsmall hi hst.low hcons hdense,?own,fun j hj => ?others⟩,hbound,
    hst.extra,fun hlt => (hst.early hlt).imp_right fun hfull b hb => (hbits b).trans (hfull b hb),
    fun b hb => ?logged⟩
  case own =>
    rw [bytes, bytes, overwrite_segment hoff, take_segment, ← hsize,
      Nat.min_eq_left (by omega)]
    rw [hsize]
    exact segment_congr fun x _ _ => hcontent x
  case others =>
    refine bytes_congr rfl fun bn => ?_
    have hj' := hblock j bn
    rw [Function.update_of_ne hj, Function.update_of_ne hj] at hj'
    exact hj'.trans (hst.others j bn hj)
  case logged =>
    rcases List.mem_cons.mp hb with rfl | hb
    · exact .inr (List.mem_append_left _ (List.mem_cons_self ..))
    · refine (hst.logged b hb).imp_right fun hor => ?_
      rcases hor with ⟨c,hc,rfl⟩ | ⟨k,hk,_,rfl⟩
      · apply List.mem_append_left _ (List.mem_cons_of_mem _ (List.mem_map_of_mem ?_))
        exact List.mem_range.mpr (Nat.lt_succ_of_le (Nat.div_le_div_right (Nat.le_of_lt hc)))
      · exact List.mem_append_right _ (List.mem_map.mpr ⟨k,hk,hself k⟩)

/-- writei refuses a request that leaves a gap or is too large, and otherwise replaces a stretch. -/
theorem writei_spec (src : ℕ → UInt8) (fault : ℕ → Option ℕ) (off n : ℕ)
    (h : Mounted sb t.disk ino) (hlay : Layout sb) (hi : i < sb.ninodes) :
    ((ino i).size < off ∨ MAXFILE * BSIZE < off + n) ∧
      writei sb i (ino i) src fault off n t = some (-1,t,ino i) ∨
    off ≤ (ino i).size ∧ ∃ (stop extra : ℕ) (u : Trans) (ip : Inode),
      writei sb i (ino i) src fault off n t = some ((stop : ℤ),u,ip) ∧
      Written sb i ino src fault off n stop extra t u ip := by
  unfold writei
  split
  case isTrue hbad =>
    refine .inl ⟨hbad.imp_right fun hwrap => ?_,rfl⟩
    have hlarge : MAXFILE * BSIZE < 2 ^ 32 := by decide
    by_contra hle
    rw [Nat.mod_eq_of_lt (by omega)] at hwrap
    omega
  case isFalse hgood =>
  split
  case isTrue hlarge => exact .inl ⟨.inr hlarge,rfl⟩
  case isFalse hmax =>
    have hoff : off ≤ (ino i).size := by omega
    have hks : ∀ x, off ≤ x → x < off + n → slot (x / BSIZE) ∈ NDIRECT ::
        (List.range' (off / BSIZE) ((off + n - 1) / BSIZE + 1 - off / BSIZE)).map slot := by
      intro x h1 h2
      apply List.mem_cons_of_mem _ (List.mem_map_of_mem (List.mem_range'_1.mpr _))
      unfold BSIZE
      omega
    obtain ⟨stop,extra,u,ip,hloop,hst⟩ := writeLoop_spec src fault h.toConsistent
      hlay (Nat.le_of_not_lt hmax) (Nat.zero_le n) (Nat.le_add_left n 0) hks
      (List.mem_cons_self ..)
    refine .inr ⟨hoff,stop,extra,_,_,?_,hst.written h hlay hi hoff (Nat.le_of_not_lt hmax)⟩
    obtain ⟨addrs,hip,_⟩ := hst.same
    have hsize : ip.size = (ino i).size := by rw [hip]
    have hnew : (if ip.size < off + stop then { ip with size := off + stop } else ip) =
        { ip with size := max (ino i).size (off + stop) } := by
      split
      case isTrue hlt => rw [Nat.max_eq_right (by omega)]
      case isFalse hge => rw [Nat.max_eq_left (by omega), ← hsize]
    rw [hloop]
    dsimp only [Option.map_some]
    rw [hnew]

end Writing

end CShellXv6.Files
