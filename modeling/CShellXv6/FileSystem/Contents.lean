import CShellXv6.FileSystem.Inodes

/-! # The contents of files

readi and writei go through a file block by block. To the caller a file is a sequence
of bytes: writei replaces those that it is given, wherever they lie in blocks, and
leaves the rest of the file and all other files as they are.
-/
namespace CShellXv6.Files
open Log (Block)
open LittleEndian

/-- The bytes of a file. -/
def content (disk : ℕ → Block) (ip : Inode) (x : ℕ) : UInt8 :=
  fileBlock disk ip (x / BSIZE) (x % BSIZE)

/-- A block with `m` bytes replaced from byte `o` on. -/
def copy (f : Block) (o m : ℕ) (s : ℕ → UInt8) : Block :=
  fun x => if o ≤ x ∧ x < o + m then s (x - o) else f x

/-- The inode in the 64 bytes from `o` on: four numbers of 16 bits, the size and the addresses. -/
def getInode (f : Block) (o : ℕ) : Inode :=
  let shorts := getAll f o 2 4
  let words := getAll f (o + 8) 4 (NDIRECT + 2)
  ⟨shorts.getD 0 0,shorts.getD 1 0,shorts.getD 2 0,shorts.getD 3 0,words.getD 0 0,
    fun k => words.getD (k + 1) 0⟩

def putInode (f : Block) (o : ℕ) (ip : Inode) : Block :=
  setAll (setAll f o 2 [ip.type,ip.major,ip.minor,ip.nlink]) (o + 8) 4
    (ip.size :: (List.range (NDIRECT + 1)).map ip.addrs)

/-- Inode `i` on the disk, as ilock reads it. -/
def dinode (sb : Superblock) (disk : ℕ → Block) (i : ℕ) : Inode :=
  getInode (disk (sb.IBLOCK i)) (i % IPB * 64)

def iupdate (sb : Superblock) (i : ℕ) (ip : Inode) (t : Trans) : Trans :=
  t.write (sb.IBLOCK i) (putInode (t.disk (sb.IBLOCK i)) (i % IPB * 64) ip)

/-- The loop of writei. The caller passes the bytes `src`; a copy at `tot` that fails after some
bytes is `fault tot`. -/
def writeLoop (sb : Superblock) (src : ℕ → UInt8) (fault : ℕ → Option ℕ) (off n : ℕ) :
    ℕ → ℕ → Inode → Trans → Option (ℕ × Trans × Inode)
  | 0, tot, ip, t => some (tot,t,ip)
  | fuel + 1, tot, ip, t =>
    if tot < n then
      match bmap sb ip ((off + tot) / BSIZE) t with
      | none => none
      | some (addr,t,ip) =>
        if addr = 0 then some (tot,t,ip)
        else
          let o := (off + tot) % BSIZE
          let m := min (n - tot) (BSIZE - o)
          match fault tot with
          | some k =>
            some (tot,t.write addr (copy (t.disk addr) o (min k m) fun x => src (tot + x)),ip)
          | none => writeLoop sb src fault off n fuel (tot + m) ip
              (t.write addr (copy (t.disk addr) o m fun x => src (tot + x)))
    else some (tot,t,ip)

def writei (sb : Superblock) (i : ℕ) (ip : Inode) (src : ℕ → UInt8) (fault : ℕ → Option ℕ)
    (off n : ℕ) (t : Trans) : Option (ℤ × Trans × Inode) :=
  if ip.size < off ∨ (off + n) % 2 ^ 32 < off then some (-1,t,ip)
  else if MAXFILE * BSIZE < off + n then some (-1,t,ip)
  else
    (writeLoop sb src fault off n n 0 ip t).map fun x =>
      let ip := if x.2.2.size < off + x.1 then { x.2.2 with size := off + x.1 } else x.2.2
      (x.1,iupdate sb i ip x.2.1,ip)

section Format
variable {f : Block} {o o' : ℕ} {ip : Inode}

/-- The values that fit into an inode on the disk. -/
structure Inode.Fits (ip : Inode) : Prop where
  type : ip.type < 256 ^ 2
  major : ip.major < 256 ^ 2
  minor : ip.minor < 256 ^ 2
  nlink : ip.nlink < 256 ^ 2
  size : ip.size < 256 ^ 4
  addrs : ∀ k, ip.addrs k < 256 ^ 4
  rest : ∀ k, NDIRECT < k → ip.addrs k = 0

theorem putInode_of_outside {x : ℕ} (h : x < o ∨ o + 64 ≤ x) : putInode f o ip x = f x := by
  have hlen : (ip.size :: (List.range (NDIRECT + 1)).map ip.addrs).length = 14 := by
    rw [List.length_cons, List.length_map, List.length_range]
    rfl
  rcases h with h | h
  · rw [putInode, setAll_of_before (by omega), setAll_of_before h]
  · rw [putInode, setAll_of_after (by rw [hlen]; omega), setAll_of_after]
    change o + 2 * 4 ≤ x
    omega

theorem getInode_congr {g : Block} (h : ∀ x, o ≤ x → x < o + 64 → f x = g x) :
    getInode f o = getInode g o := by
  have hshorts : getAll f o 2 4 = getAll g o 2 4 :=
    getAll_congr fun x h1 h2 => h x h1 (by omega)
  have hwords : getAll f (o + 8) 4 (NDIRECT + 2) = getAll g (o + 8) 4 (NDIRECT + 2) :=
    getAll_congr fun x h1 h2 => h x (by omega) (by unfold NDIRECT at h2; omega)
  rw [getInode, getInode, hshorts, hwords]

/-- Reading an inode back after it is written. -/
theorem getInode_putInode (h : ip.Fits) : getInode (putInode f o ip) o = ip := by
  have hshorts : getAll (putInode f o ip) o 2 4 = [ip.type,ip.major,ip.minor,ip.nlink] := by
    have hvs : ∀ v ∈ [ip.type,ip.major,ip.minor,ip.nlink], v < 256 ^ 2 := by
      simp only [List.mem_cons, List.not_mem_nil, or_false]
      rintro v (rfl | rfl | rfl | rfl)
      · exact h.type
      · exact h.major
      · exact h.minor
      · exact h.nlink
    have hall : getAll (setAll f o 2 [ip.type,ip.major,ip.minor,ip.nlink]) o 2 4 = _ :=
      getAll_setAll hvs
    rw [← hall]
    exact getAll_congr fun x _ h2 => setAll_of_before (by omega)
  have hwords : getAll (putInode f o ip) (o + 8) 4 (NDIRECT + 2) =
      ip.size :: (List.range (NDIRECT + 1)).map ip.addrs := by
    have hvs : ∀ v ∈ ip.size :: (List.range (NDIRECT + 1)).map ip.addrs, v < 256 ^ 4 := by
      intro v hv
      rcases List.mem_cons.mp hv with rfl | hv
      · exact h.size
      · obtain ⟨k,_,rfl⟩ := List.mem_map.mp hv
        exact h.addrs k
    have hall : getAll (putInode f o ip) (o + 8) 4 _ = _ := getAll_setAll hvs
    rwa [List.length_cons, List.length_map, List.length_range] at hall
  have haddrs : (fun k => ((List.range (NDIRECT + 1)).map ip.addrs).getD k 0) = ip.addrs := by
    funext k
    rw [List.getD_eq_getElem?_getD, List.getElem?_map]
    by_cases hk : k < NDIRECT + 1
    · rw [List.getElem?_range hk]
      rfl
    · rw [List.getElem?_eq_none (by rw [List.length_range]; omega), h.rest k (by omega)]
      rfl
  rw [getInode, hshorts, hwords]
  exact congrArg (Inode.mk ip.type ip.major ip.minor ip.nlink ip.size) haddrs

end Format

section Blocks
variable {sb : Superblock} {t u : Trans} {ino : ℕ → Inode} {ip : Inode} {i bn a : ℕ} {v : Block}

/-- Writing a block of a file changes that block of that file. -/
theorem Consistent.write (h : Consistent sb t.disk ino) (hlay : Layout sb)
    (ha : a = addrOf t.disk (ino i) (slot bn)) (hne : a ≠ 0) :
    Extended sb i ino t (t.write a v) (ino i) [slot bn] ∧
    (∀ k, addrOf (t.write a v).disk (ino i) k = addrOf t.disk (ino i) k) ∧
    ∀ bn', fileBlock (t.write a v).disk (ino i) bn' =
      if bn' = bn then v else fileBlock t.disk (ino i) bn' := by
  have hself : Function.update ino i (ino i) = ino := Function.update_eq_self i ino
  obtain ⟨hdata,_,_⟩ := h.owned i (slot bn) (ha ▸ hne)
  rw [← ha] at hdata
  have haddr : ∀ j k, addrOf (t.write a v).disk (ino j) k = addrOf t.disk (ino j) k := by
    intro j k
    refine addrOf_congr (fun _ => rfl) (fun _ => rfl) fun hind => Trans.write_of_ne fun e => ?_
    have hslot : addrOf t.disk (ino j) NDIRECT = (ino j).addrs NDIRECT :=
      addrOf_direct (Nat.le_refl _)
    have hsame := h.unique i (slot bn) j NDIRECT (ha ▸ hne) (by rw [hslot, ← ha, e])
    exact slot_ne hsame.2
  have hbits : ∀ c < sb.size, used sb (t.write a v).disk c = used sb t.disk c := by
    intro c hc
    have hlt := Superblock.BBLOCK_lt hc
    rw [used, used, Trans.write_of_ne (by omega)]
  have hblock : ∀ j bn', ¬ (j = i ∧ bn' = bn) →
      fileBlock (t.write a v).disk (ino j) bn' = fileBlock t.disk (ino j) bn' := by
    intro j bn' hne'
    unfold fileBlock
    rw [haddr]
    split
    · rfl
    case isFalse hx =>
      refine Trans.write_of_ne fun e => hne' ?_
      obtain ⟨hj,hs⟩ := h.unique j (slot bn') i (slot bn) hx (e.trans ha)
      exact ⟨hj,slot_inj hs⟩
  have hstart : sb.bmapstart < sb.datastart := Nat.lt_succ_of_le (Nat.le_add_right _ _)
  refine ⟨⟨?_,fun j k _ => ?_,fun j bn' hj => hblock j bn' fun e => hj e.1,
    ⟨_,rfl,fun _ _ => rfl⟩,fun b hb => Trans.write_of_ne (by omega),fun b hb => ?_⟩,haddr i,
    fun bn' => ?_⟩
  · rw [hself]
    exact h.congr hlay haddr hbits
  · rw [hself, haddr]
  · rcases List.mem_cons.mp hb with rfl | hb
    · exact .inr (.inr ⟨slot bn,List.mem_singleton.mpr rfl,hne,by rw [haddr, ← ha]⟩)
    · exact .inl hb
  · split
    case isTrue he =>
      rw [he, fileBlock, haddr, ← ha, if_neg hne, Trans.write_self]
    case isFalse he => exact hblock i bn' fun e => he e.2

theorem bmap_isSome (sb : Superblock) (ip : Inode) (t : Trans) (hbn : bn < MAXFILE) :
    (bmap sb ip bn t).isSome = true := by
  unfold MAXFILE at hbn
  unfold bmap
  split
  · rfl
  · rw [if_pos (by omega)]
    dsimp only
    split
    · rfl
    · split
      · cases balloc sb (fill sb ip NDIRECT t).2.1 with
        | none => rfl
        | some x => rfl
      · rfl

end Blocks

section Loop
variable {sb : Superblock} {t u : Trans} {ino : ℕ → Inode} {ip : Inode} {i off n tot : ℕ}
  {src : ℕ → UInt8} {fault : ℕ → Option ℕ} {ks : List ℕ}

/-- The file after the bytes from `tot` to `stop` of a write at `off`. -/
structure Wrote (sb : Superblock) (i : ℕ) (ino : ℕ → Inode) (src : ℕ → UInt8) (off tot stop : ℕ)
    (t u : Trans) (ip : Inode) (ks : List ℕ) : Prop extends Extended sb i ino t u ip ks where
  bytes : ∀ x, content u.disk ip x =
    if off + tot ≤ x ∧ x < off + stop then src (x - off) else content t.disk (ino i) x

theorem Wrote.refl (h : Consistent sb t.disk ino) :
    Wrote sb i ino src off tot tot t t (ino i) ks := by
  refine ⟨.refl h ks,fun x => ?_⟩
  rw [if_neg (by omega)]

theorem Wrote.trans {mid stop : ℕ} {v : Trans} {ip' : Inode} (h1 : tot ≤ mid) (h2 : mid ≤ stop)
    (h : Wrote sb i ino src off tot mid t u ip ks)
    (g : Wrote sb i (Function.update ino i ip) src off mid stop u v ip' ks) :
    Wrote sb i ino src off tot stop t v ip' ks := by
  refine ⟨h.toExtended.trans g.toExtended,fun x => ?_⟩
  have hg := g.bytes x
  rw [Function.update_self, h.bytes x] at hg
  rw [hg]
  by_cases hmid : off + mid ≤ x ∧ x < off + stop
  · rw [if_pos hmid, if_pos (by omega)]
  · rw [if_neg hmid]
    by_cases hfirst : off + tot ≤ x ∧ x < off + mid
    · rw [if_pos hfirst, if_pos (by omega)]
    · rw [if_neg hfirst, if_neg (by omega)]

/-- One round of the loop: the block, taken if need be, and the bytes that go into it. -/
theorem wrote_chunk (src : ℕ → UInt8) (m : ℕ) {addr : ℕ} (h : Consistent sb t.disk ino)
    (hlay : Layout sb)
    (hb : bmap sb (ino i) ((off + tot) / BSIZE) t = some (addr,u,ip)) (hne : addr ≠ 0)
    (hm : m ≤ BSIZE - (off + tot) % BSIZE) (hks : slot ((off + tot) / BSIZE) ∈ ks)
    (hind : NDIRECT ∈ ks) :
    Wrote sb i ino src off tot (tot + m) t
      (u.write addr (copy (u.disk addr) ((off + tot) % BSIZE) m fun x => src (tot + x))) ip ks ∧
    ∀ k, addrOf (u.write addr (copy (u.disk addr) ((off + tot) % BSIZE) m
      fun x => src (tot + x))).disk ip k = addrOf u.disk ip k := by
  obtain ⟨hgrown,hgives⟩ := bmap_grown h hlay hb
  have haddr := hgives.1
  have hw := hgrown.consistent.write (i := i) hlay (by rw [Function.update_self]; exact haddr) hne
    (v := copy (u.disk addr) ((off + tot) % BSIZE) m fun x => src (tot + x))
  rw [Function.update_self] at hw
  obtain ⟨hext,hsame,hblock⟩ := hw
  have hmono : [slot ((off + tot) / BSIZE),NDIRECT] ⊆ ks := by
    intro k hk
    simp only [List.mem_cons, List.not_mem_nil, or_false] at hk
    rcases hk with rfl | rfl
    · exact hks
    · exact hind
  refine ⟨⟨(hgrown.toExtended.mono hmono).trans (hext.mono (by simpa using hks)),fun x => ?_⟩,hsame⟩
  have hold : fileBlock u.disk ip ((off + tot) / BSIZE) = u.disk addr := by
    rw [fileBlock, ← haddr, if_neg hne]
  rw [content, hblock]
  unfold BSIZE at hm hold ⊢
  by_cases hx : x / 1024 = (off + tot) / 1024
  · rw [if_pos hx, copy]
    by_cases hin : off + tot ≤ x ∧ x < off + (tot + m)
    · rw [if_pos (by omega), if_pos hin]
      congr 1
      omega
    · rw [if_neg (by omega), if_neg hin, ← hold, hgrown.own, content, BSIZE, hx]
  · rw [if_neg hx, if_neg (by omega), hgrown.own]
    rfl

/-- How the loop of writei ends: it has written up to `stop`, and `extra` bytes of a copy that
failed; it stops early when a copy fails or no block is free. -/
structure Stopped (sb : Superblock) (i : ℕ) (ino : ℕ → Inode) (src : ℕ → UInt8)
    (fault : ℕ → Option ℕ) (off n tot stop extra : ℕ) (t u : Trans) (ip : Inode) (ks : List ℕ) :
    Prop extends Wrote sb i ino src off tot (stop + extra) t u ip ks where
  start : tot ≤ stop
  bound : stop + extra ≤ n
  mapped : ∀ x, off + tot ≤ x → x < off + stop → addrOf u.disk ip (slot (x / BSIZE)) ≠ 0
  extra : extra ≠ 0 → fault stop ≠ none
  early : stop < n → fault stop ≠ none ∨ ∀ b < sb.size, used sb u.disk b = true

theorem writeLoop_spec (src : ℕ → UInt8) (fault : ℕ → Option ℕ) {fuel : ℕ}
    (h : Consistent sb t.disk ino) (hlay : Layout sb)
    (hmax : off + n ≤ MAXFILE * BSIZE) (htot : tot ≤ n) (hfuel : n ≤ tot + fuel)
    (hks : ∀ x, off ≤ x → x < off + n → slot (x / BSIZE) ∈ ks) (hind : NDIRECT ∈ ks) :
    ∃ stop extra u ip, writeLoop sb src fault off n fuel tot (ino i) t = some (stop,u,ip) ∧
      Stopped sb i ino src fault off n tot stop extra t u ip ks := by
  induction fuel generalizing tot t ino with
  | zero =>
    refine ⟨tot,0,t,ino i,rfl,.refl h,Nat.le_refl _,htot,fun x h1 h2 => ?_,fun h => absurd rfl h,
      fun hlt => ?_⟩
    · omega
    · omega
  | succ fuel ih =>
    rw [writeLoop]
    by_cases hlt : tot < n
    case neg =>
      rw [if_neg hlt]
      exact ⟨tot,0,t,ino i,rfl,.refl h,Nat.le_refl _,htot,fun x h1 h2 => by omega,
        fun h => absurd rfl h,fun h => absurd h hlt⟩
    rw [if_pos hlt]
    have hbn : (off + tot) / BSIZE < MAXFILE := by
      unfold BSIZE at hmax ⊢
      omega
    have hslot := hks (off + tot) (Nat.le_add_right _ _) (Nat.add_lt_add_left hlt _)
    obtain ⟨⟨addr,v,ip⟩,hb⟩ := Option.isSome_iff_exists.mp (bmap_isSome sb (ino i) t hbn)
    obtain ⟨hgrown,haddr,hfull⟩ := bmap_grown h hlay hb
    rw [hb]
    dsimp only
    by_cases hzero : addr = 0
    · rw [if_pos hzero]
      have hmono : [slot ((off + tot) / BSIZE),NDIRECT] ⊆ ks :=
        List.cons_subset.mpr ⟨hslot,by simpa using hind⟩
      refine ⟨tot,0,v,ip,rfl,⟨hgrown.toExtended.mono hmono,fun x => ?_⟩,Nat.le_refl _,htot,
        fun x h1 h2 => by omega,fun h => absurd rfl h,fun _ => .inr (hfull hzero)⟩
      rw [if_neg (by omega), content, hgrown.own]
      rfl
    rw [if_neg hzero]
    cases hf : fault tot with
    | some k =>
      obtain ⟨hw,_⟩ := wrote_chunk src (min k (min (n - tot) (BSIZE - (off + tot) % BSIZE))) h hlay
        hb hzero (by omega) hslot hind
      refine ⟨tot,_,_,ip,rfl,hw,Nat.le_refl _,by omega,fun x h1 h2 => by omega,fun _ => ?_,
        fun _ => .inl ?_⟩
      · rw [hf]
        exact Option.some_ne_none k
      · rw [hf]
        exact Option.some_ne_none k
    | none =>
      obtain ⟨hw,hsame⟩ := wrote_chunk src (min (n - tot) (BSIZE - (off + tot) % BSIZE)) h hlay hb
        hzero (by omega) hslot hind
      have hpos : 0 < BSIZE - (off + tot) % BSIZE := by
        unfold BSIZE
        omega
      have hnext : tot + min (n - tot) (BSIZE - (off + tot) % BSIZE) ≤ n := by omega
      have hmore : n ≤ tot + min (n - tot) (BSIZE - (off + tot) % BSIZE) + fuel := by omega
      obtain ⟨stop,extra,w,ip',hloop,hst⟩ := ih hw.consistent hnext hmore
      rw [Function.update_self] at hloop
      refine ⟨stop,extra,w,ip',hloop,hw.trans (by omega) (by have := hst.start; omega) hst.toWrote,
        by have := hst.start; omega,hst.bound,fun x h1 h2 => ?_,hst.extra,hst.early⟩
      by_cases hx : x < off + (tot + min (n - tot) (BSIZE - (off + tot) % BSIZE))
      · -- the block of this round stays in its slot
        have hdiv : x / BSIZE = (off + tot) / BSIZE := by
          unfold BSIZE at hx ⊢
          omega
        have hmap : addrOf (v.write addr _).disk ip (slot (x / BSIZE)) = addr :=
          (hsame _).trans (by rw [hdiv]; exact haddr.symm)
        have hkeep := hst.keeps i (slot (x / BSIZE))
        rw [Function.update_self, Function.update_idem, Function.update_self, hmap] at hkeep
        rw [hkeep hzero]
        exact hzero
      · exact hst.mapped x (by omega) h2

end Loop

end CShellXv6.Files
