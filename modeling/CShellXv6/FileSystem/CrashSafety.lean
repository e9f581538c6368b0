import Mathlib.Data.List.GetD
import CShellXv6.FileSystem.Log

/-! # Crash safety of the log

The log makes the disk one that takes in the changes of operations all at once,
at moments when no operation is running, whatever the interleaving of the
operations and wherever the machine crashes, also while it recovers from an
earlier crash.
-/
namespace CShellXv6.Log
open Bio Transition LittleEndian
variable {n : ℕ} {P : Type} [DecidableEq P] [Fintype P]

/-- A disk whose changes become durable in one step. -/
structure Spec (P : Type) where
  durable : ℕ → Block
  volatile : ℕ → Block
  active : P → Bool

inductive Act (P : Type)
  | begin (p : P)
  | write (p : P) (k : ℕ) (v : Block)
  | finish (p : P)
  | commit
  | crash

def Spec.step (a : Spec P) : Act P → Option (Spec P)
  | .begin p => if a.active p = false then some { a with active := Function.update a.active p true }
    else none
  | .write p k v => if a.active p = true then
      some { a with volatile := Function.update a.volatile k v } else none
  | .finish p => if a.active p = true then
      some { a with active := Function.update a.active p false } else none
  | .commit => if ∀ p, a.active p = false then some { a with durable := a.volatile } else none
  | .crash => some { a with volatile := a.durable, active := fun _ => false }

/-- Not a block of the log. -/
def Home (start k : ℕ) : Prop := k < start ∨ start + LOGBLOCKS < k

instance (start k : ℕ) : Decidable (Home start k) := inferInstanceAs (Decidable (_ ∨ _))

/-- What recovery makes of a disk. -/
def recovered (start : ℕ) (disk : ℕ → Block) (k : ℕ) : Block :=
  let lh := getHead (disk start)
  if k ∈ lh then disk (start + lh.idxOf k + 1) else disk k

/-- How file system code uses the log: it changes blocks of the file system inside an operation,
logs a change before it gives up the buffer, and holds no buffer at the end of the operation. -/
def Follows (start : ℕ) (s : State n P) : Event n P → Prop
  | .bio _ (.bget _ dev _) => dev ≠ 0
  | .bio p (.modify _ b _) => s.role p = .op ∧ (s.bio.cache.buf b).dev = ROOTDEV ∧
      Home start (s.bio.cache.buf b).blockno
  | .bio p (.releasesleep _ b) => s.role p = .op →
      (s.bio.cache.buf b).data = s.bio.disk (s.bio.cache.buf b).dev (s.bio.cache.buf b).blockno ∨
      ((s.bio.cache.buf b).dev = ROOTDEV ∧ (s.bio.cache.buf b).blockno ∈ s.lh)
  | .logWrite _ b => (s.bio.cache.buf b).dev = ROOTDEV ∧ Home start (s.bio.cache.buf b).blockno ∧
      (s.bio.cache.buf b).blockno < 256 ^ 4
  | .endOp p => ∀ b, (s.bio.cache.buf b).lock ≠ some p
  | _ => True

/-- A header that recovery can follow. -/
structure LogOk (start : ℕ) (lh : List ℕ) : Prop where
  nodup : lh.Nodup
  home : ∀ k ∈ lh, Home start k
  bounded : ∀ k ∈ lh, k < 256 ^ 4
  length : lh.length ≤ LOGBLOCKS

/-- The pins are those of the blocks in `pend`. -/
structure Pinned (s : Bio.State n P Block) (pins : Fin n → ℕ) (pend : List ℕ) : Prop where
  pinned : ∀ k ∈ pend, ∃ b, (s.cache.buf b).dev = ROOTDEV ∧ (s.cache.buf b).blockno = k ∧ 0 < pins b
  only : ∀ b, 0 < pins b → (s.cache.buf b).dev = ROOTDEV ∧ (s.cache.buf b).blockno ∈ pend
  once : ∀ b, pins b ≤ 1

/-- The logged blocks that are not at home yet. -/
def pend (lh : List ℕ) : Option Phase → List ℕ
  | some (.installTrans tail) => lh.drop tail
  | some .clear => []
  | some .done => []
  | _ => lh

/-- How far the commit is on the disk. -/
def Stage (start : ℕ) (disk view : ℕ → Block) (lh : List ℕ) : Option Phase → Prop
  | some (.writeLog tail) => getHead (disk start) = [] ∧ tail ≤ lh.length ∧
      ∀ i < tail, disk (start + i + 1) = view (lh.getD i 0)
  | some .writeHead => getHead (disk start) = [] ∧
      ∀ i < lh.length, disk (start + i + 1) = view (lh.getD i 0)
  | some (.installTrans tail) => getHead (disk start) = lh ∧ tail ≤ lh.length ∧
      ∀ i < lh.length, disk (start + i + 1) = view (lh.getD i 0)
  | some .clear => getHead (disk start) = lh ∧
      ∀ i < lh.length, disk (start + i + 1) = view (lh.getD i 0)
  | some .done => getHead (disk start) = [] ∧ lh = []
  | _ => getHead (disk start) = []

/-- The state of the disk and the cache while the kernel is up. `c` is the process that commits and
where it is. -/
structure Up (start : ℕ) (s : State n P) (a : Spec P) (c : Option (P × Phase)) : Prop where
  mode : s.mode = .up
  wf : ∃ pins, Wf s.bio pins ∧ Pinned s.bio pins (pend s.lh (c.map Prod.snd))
  lhOk : LogOk start s.lh
  headOk : LogOk start (getHead (s.bio.disk ROOTDEV start))
  role : ∀ p phase, s.role p = .commit phase ↔ c = some (p,phase)
  committing : s.committing = c.isSome
  count : s.outstanding = (Finset.univ.filter fun p => s.role p = .op).card
  quiet : c ≠ none → s.outstanding = 0
  active : ∀ p, a.active p = true ↔ s.role p = .op
  volatile : ∀ k, Home start k → s.bio.view ROOTDEV k = a.volatile k
  durable : ∀ k, Home start k → recovered start (s.bio.disk ROOTDEV) k = a.durable k
  area : ∀ d k, d ≠ 0 → (d = ROOTDEV → ¬ Home start k) → s.bio.view d k = s.bio.disk d k
  clean : ∀ k, s.bio.view ROOTDEV k = s.bio.disk ROOTDEV k ∨ k ∈ pend s.lh (c.map Prod.snd) ∨
    ∃ b p, (s.bio.cache.buf b).dev = ROOTDEV ∧ (s.bio.cache.buf b).blockno = k ∧
      (s.bio.cache.buf b).lock = some p ∧ s.role p = .op
  stage : Stage start (s.bio.disk ROOTDEV) (s.bio.view ROOTDEV) s.lh (c.map Prod.snd)

/-- How far recovery is. -/
def Recovering (start : ℕ) (disk : ℕ → Block) (lh : List ℕ) : Mode → Prop
  | .readHead => True
  | .installTrans tail => lh = getHead (disk start) ∧
      ∀ i < tail, i < lh.length → disk (lh.getD i 0) = disk (start + i + 1)
  | .clear => lh = getHead (disk start) ∧
      ∀ i < lh.length, disk (lh.getD i 0) = disk (start + i + 1)
  | .up => False

/-- The state while the kernel recovers. -/
structure Down (start : ℕ) (s : State n P) (a : Spec P) : Prop where
  wf : Wf s.bio fun _ => 0
  log : s.outstanding = 0 ∧ s.committing = false ∧ (∀ p, s.role p = .idle)
  headOk : LogOk start (getHead (s.bio.disk ROOTDEV start))
  active : ∀ p, a.active p = false
  same : a.volatile = a.durable
  durable : ∀ k, Home start k → recovered start (s.bio.disk ROOTDEV) k = a.durable k
  view : ∀ d k, d ≠ 0 → s.bio.view d k = s.bio.disk d k
  stage : Recovering start (s.bio.disk ROOTDEV) s.lh s.mode

/-- The system and the disk it stands for. -/
def Stands (start : ℕ) (s : State n P) (a : Spec P) : Prop := Down start s a ∨ ∃ c, Up start s a c

section Headers
variable {start k i : ℕ} {lh : List ℕ} {disk disk' : ℕ → Block}

theorem not_home_log (hi : i < LOGBLOCKS) : ¬ Home start (start + i + 1) := by
  unfold Home
  omega

theorem Home.ne_start (h : Home start k) : k ≠ start := by
  unfold Home at h
  omega

theorem getD_mem (hi : i < lh.length) : lh.getD i 0 ∈ lh := by
  rw [List.getD_eq_getElem _ _ hi]
  exact List.getElem_mem hi

theorem drop_getD (hi : i < lh.length) : lh.drop i = lh.getD i 0 :: lh.drop (i + 1) := by
  rw [List.getD_eq_getElem _ _ hi]
  exact List.drop_eq_getElem_cons hi

theorem LogOk.idxOf_getD (h : LogOk start lh) (hi : i < lh.length) :
    lh.idxOf (lh.getD i 0) = i := by
  rw [List.getD_eq_getElem _ _ hi]
  exact h.nodup.idxOf_getElem i hi

theorem getD_idxOf (hk : k ∈ lh) : lh.idxOf k < lh.length ∧ lh.getD (lh.idxOf k) 0 = k := by
  have hi := List.idxOf_lt_length_of_mem hk
  refine ⟨hi,?_⟩
  rw [List.getD_eq_getElem _ _ hi]
  exact List.getElem_idxOf hi

theorem logOk_nil : LogOk start [] :=
  ⟨List.nodup_nil,by simp,by simp,Nat.zero_le _⟩

theorem recovered_of_nil (h : getHead (disk start) = []) : recovered start disk k = disk k := by
  simp [recovered, h]

theorem recovered_of_mem (h : k ∈ getHead (disk start)) :
    recovered start disk k = disk (start + (getHead (disk start)).idxOf k + 1) := if_pos h

theorem recovered_of_not_mem (h : k ∉ getHead (disk start)) : recovered start disk k = disk k :=
  if_neg h

/-- A write that recovery would make itself, or that it does not look at, changes nothing for it. -/
theorem recovered_update {v : Block} {j : ℕ} (h : LogOk start (getHead (disk start)))
    (hj : j ∈ getHead (disk start)) :
    recovered start (fun i => if i = j then v else disk i) k = recovered start disk k := by
  have hhome := h.home j hj
  have hstart := hhome.ne_start.symm
  have hhead : (fun i => if i = j then v else disk i) start = disk start := if_neg hstart
  unfold recovered
  rw [hhead]
  dsimp only
  by_cases hmem : k ∈ getHead (disk start)
  · have hlt := (getD_idxOf hmem).1
    have hne : start + (getHead (disk start)).idxOf k + 1 ≠ j := by
      rintro rfl
      exact not_home_log (Nat.lt_of_lt_of_le hlt h.length) hhome
    rw [if_pos hmem, if_pos hmem, if_neg hne]
  · have hne : k ≠ j := by
      rintro rfl
      exact hmem hj
    rw [if_neg hmem, if_neg hmem, if_neg hne]

/-- With an empty header, writes to the log are not seen by recovery. -/
theorem recovered_log {v : Block} {j : ℕ} (h : getHead (disk start) = []) (hj : ¬ Home start j)
    (hne : j ≠ start) (hk : Home start k) :
    recovered start (fun i => if i = j then v else disk i) k = recovered start disk k := by
  have hkj : k ≠ j := by
    rintro rfl
    exact hj hk
  have hhead : getHead ((fun i => if i = j then v else disk i) start) = [] := by
    rw [show (fun i => if i = j then v else disk i) start = disk start from if_neg hne.symm, h]
  rw [recovered_of_nil hhead, recovered_of_nil h, if_neg hkj]

end Headers

section Transfers
omit [DecidableEq P]
variable {b t : Bio.State n P Block} {pins pins' : Fin n → ℕ} {p : P} {d j k : ℕ} {v : Block}

theorem Transfer.disk_root (h : Transfer b t pins pins' p k v) :
    t.disk ROOTDEV = fun j => if j = k then v else b.disk ROOTDEV j := by
  funext j
  simp only [h.disk, true_and]

theorem Transfer.view_root (h : Transfer b t pins pins' p k v) :
    t.view ROOTDEV = fun j => if j = k then v else b.view ROOTDEV j := by
  funext j
  simp only [h.view ROOTDEV j rootdev_ne_zero, true_and]

theorem Transfer.of_ne (h : Transfer b t pins pins' p k v) (hj : j ≠ k) :
    t.disk ROOTDEV j = b.disk ROOTDEV j ∧ t.view ROOTDEV j = b.view ROOTDEV j := by
  rw [h.disk_root, h.view_root]
  exact ⟨if_neg hj,if_neg hj⟩

/-- A block that is written is the same on the disk and in the cache, and the others stay. -/
theorem Transfer.same_or (h : Transfer b t pins pins' p k v) (hd : d ≠ 0) :
    t.view d j = t.disk d j ∨ (t.view d j = b.view d j ∧ t.disk d j = b.disk d j) := by
  rw [h.view d j hd, h.disk]
  dsimp only
  split
  · exact .inl rfl
  · exact .inr ⟨rfl,rfl⟩

theorem Transfer.agree (h : Transfer b t pins pins' p k v) (hd : d ≠ 0)
    (hj : b.view d j = b.disk d j) : t.view d j = t.disk d j := by
  rcases h.same_or hd with e | ⟨e1,e2⟩
  · exact e
  · exact e1.trans (hj.trans e2.symm)

/-- The header that write_head puts on the disk. -/
theorem Transfer.head {lh : List ℕ} (h : Transfer b t pins pins' p k (putHead lh v))
    (hlen : lh.length < 256 ^ 4) (hlh : ∀ k ∈ lh, k < 256 ^ 4) :
    getHead (t.disk ROOTDEV k) = lh := by
  rw [h.disk_root]
  dsimp only
  rw [if_pos rfl]
  exact getHead_putHead hlen hlh

end Transfers

section Recovery
variable {start : ℕ} {boot : P} {s t : State n P} {a : Spec P}

omit [DecidableEq P] [Fintype P] in
theorem Pinned.keys {b t : Bio.State n P Block} {pins : Fin n → ℕ} {pend : List ℕ}
    (h : Pinned b pins pend) (ha : ∀ c, 0 < pins c → (t.cache.buf c).dev = (b.cache.buf c).dev ∧
      (t.cache.buf c).blockno = (b.cache.buf c).blockno) : Pinned t pins pend := by
  refine ⟨fun k hk => ?_,fun c hc => ?_,h.once⟩
  · obtain ⟨c,h1,h2,h3⟩ := h.pinned k hk
    obtain ⟨e1,e2⟩ := ha c h3
    exact ⟨c,e1.trans h1,e2.trans h2,h3⟩
  · obtain ⟨e1,e2⟩ := ha c hc
    rw [e1, e2]
    exact h.only c hc

/-- Installing a block of the log that the header names keeps what recovery makes of the disk. -/
theorem Down.install (h : Down start s a) {tail : ℕ} (hm : s.mode = .installTrans tail)
    (ht : tail < s.lh.length) {bio : Bio.State n P Block}
    (hb : installTrans start boot s.lh true tail s.bio = some bio) :
    Down start { s with bio := bio, mode := .installTrans (tail + 1) } a := by
  have hstage := h.stage
  rw [hm] at hstage
  obtain ⟨hlh,hdone⟩ := hstage
  obtain ⟨_,_,tr⟩ := installTrans_transfer h.wf (h.view _ _ rootdev_ne_zero)
    (fun e => by cases e) hb
  have hmem : s.lh.getD tail 0 ∈ getHead (s.bio.disk ROOTDEV start) := hlh ▸ getD_mem ht
  have hhome := h.headOk.home _ hmem
  have hhead : bio.disk ROOTDEV start = s.bio.disk ROOTDEV start :=
    (tr.of_ne hhome.ne_start.symm).1
  have hlog : ∀ i < s.lh.length, bio.disk ROOTDEV (start + i + 1) =
      s.bio.disk ROOTDEV (start + i + 1) := by
    intro i hi
    refine (tr.of_ne fun e => ?_).1
    rw [← e] at hhome
    exact not_home_log (Nat.lt_of_lt_of_le hi (hlh ▸ h.headOk.length)) hhome
  constructor
  case wf => exact tr.wf
  case log => exact h.log
  case headOk =>
    dsimp only
    rw [hhead]
    exact h.headOk
  case active => exact h.active
  case same => exact h.same
  case durable =>
    intro k hk
    dsimp only
    rw [tr.disk_root, recovered_update h.headOk hmem]
    exact h.durable k hk
  case view =>
    intro d k hd
    exact tr.agree hd (h.view d k hd)
  case stage =>
    refine ⟨by dsimp only; rw [hhead]; exact hlh,fun i hi hlen => ?_⟩
    dsimp only
    rw [hlog i hlen, tr.disk_root]
    dsimp only
    split
    case isTrue e =>
      have : i = tail := by
        have hok : LogOk start s.lh := hlh ▸ h.headOk
        rw [← hok.idxOf_getD hlen, ← hok.idxOf_getD ht, e]
      rw [this]
    case isFalse e => exact hdone i (by
      rcases Nat.lt_succ_iff_lt_or_eq.mp hi with hlt | rfl
      · exact hlt
      · exact absurd rfl e) hlen

/-- When all blocks are at home, the header can be cleared, and the file system is up. -/
theorem Down.clear (h : Down start s a) (hm : s.mode = .clear) {bio : Bio.State n P Block}
    (hb : writeHead start boot [] s.bio = some bio) :
    Up start { s with bio := bio, lh := [], mode := .up } a none := by
  have hstage := h.stage
  rw [hm] at hstage
  obtain ⟨hlh,hdone⟩ := hstage
  have tr := writeHead_transfer h.wf hb
  have hhead : getHead (bio.disk ROOTDEV start) = [] := tr.head (by decide) (by simp)
  have hview : ∀ d k, d ≠ 0 → bio.view d k = bio.disk d k := by
    intro d k hd
    exact tr.agree hd (h.view d k hd)
  -- the blocks that the header named are at home
  have hrec : ∀ k, Home start k → bio.disk ROOTDEV k = recovered start (s.bio.disk ROOTDEV) k := by
    intro k hk
    rw [(tr.of_ne hk.ne_start).1]
    by_cases hmem : k ∈ getHead (s.bio.disk ROOTDEV start)
    · obtain ⟨hlt,hget⟩ := getD_idxOf hmem
      have hd := hdone _ (hlh ▸ hlt)
      rw [hlh, hget] at hd
      rw [recovered_of_mem hmem, hd]
    · rw [recovered_of_not_mem hmem]
  obtain ⟨hout,hcom,hrole⟩ := h.log
  constructor
  case mode => rfl
  case wf => exact ⟨_,tr.wf,by simp [pend],fun b hb => absurd hb (Nat.lt_irrefl 0),
    fun _ => Nat.zero_le 1⟩
  case lhOk => exact logOk_nil
  case headOk =>
    dsimp only
    rw [hhead]
    exact logOk_nil
  case role =>
    intro p phase
    simp [hrole p]
  case committing => exact hcom
  case count => simp [hrole, hout]
  case quiet => exact fun hc => absurd rfl hc
  case active =>
    intro p
    simp [hrole p, h.active p]
  case volatile =>
    intro k hk
    dsimp only
    rw [hview _ k rootdev_ne_zero, hrec k hk, h.durable k hk, h.same]
  case durable =>
    intro k hk
    dsimp only
    rw [recovered_of_nil hhead, hrec k hk]
    exact h.durable k hk
  case area => exact fun d k hd _ => hview d k hd
  case clean => exact fun k => .inl (hview _ k rootdev_ne_zero)
  case stage => exact hhead

omit [DecidableEq P] in
/-- A crash, at any time. -/
theorem Stands.crash (h : Stands start s a) :
    Down start s.reboot { a with volatile := a.durable, active := fun _ => false } := by
  have hboth : LogOk start (getHead (s.bio.disk ROOTDEV start)) ∧
      ∀ k, Home start k → recovered start (s.bio.disk ROOTDEV) k = a.durable k := by
    rcases h with h | ⟨c,h⟩
    · exact ⟨h.headOk,h.durable⟩
    · exact ⟨h.headOk,h.durable⟩
  refine ⟨wf_binit _ _,⟨rfl,rfl,fun _ => rfl⟩,hboth.1,fun _ => rfl,rfl,hboth.2,fun d k hd => ?_,
    trivial⟩
  exact ((wf_binit _ _).view_iff hd).mpr (.inr ⟨rfl,fun _ _ _ => rfl⟩)

theorem Down.recover (h : Down start s a) (hs : recoverStep start boot s s.mode = some t) :
    Stands start t a := by
  have hstage := h.stage
  cases hm : s.mode with
  | readHead =>
    rw [hm] at hs
    obtain ⟨⟨lh,bio⟩,hb,rfl⟩ := Option.map_eq_some_iff.mp hs
    obtain ⟨hlh,hwf,hdisk,hview,_⟩ := readHead_spec h.wf (h.view _ start rootdev_ne_zero) hb
    refine .inl ⟨hwf,h.log,?_,h.active,h.same,?_,fun d k hd => ?_,?_⟩
    · dsimp only
      rw [hdisk]
      exact h.headOk
    · dsimp only
      rw [hdisk]
      exact h.durable
    · dsimp only
      rw [hview d k hd, hdisk]
      exact h.view d k hd
    · exact ⟨by dsimp only; rw [hdisk]; exact hlh,fun i hi => absurd hi (Nat.not_lt_zero i)⟩
  | installTrans tail =>
    rw [hm] at hs hstage
    simp only [recoverStep] at hs
    split at hs
    case isTrue ht =>
      obtain ⟨bio,hb,rfl⟩ := Option.map_eq_some_iff.mp hs
      exact .inl (h.install hm ht hb)
    case isFalse ht =>
      obtain rfl := Option.some.inj hs
      refine .inl ⟨h.wf,h.log,h.headOk,h.active,h.same,h.durable,h.view,hstage.1,fun i hi => ?_⟩
      exact hstage.2 i (Nat.lt_of_lt_of_le hi (Nat.not_lt.mp ht)) hi
  | clear =>
    rw [hm] at hs
    obtain ⟨bio,hb,rfl⟩ := Option.map_eq_some_iff.mp hs
    exact .inr ⟨none,h.clear hm hb⟩
  | up =>
    rw [hm] at hs
    cases hs

end Recovery

section Commit
variable {start : ℕ} {boot p : P} {s t : State n P} {a : Spec P}

omit [DecidableEq P] in
/-- While a process commits, no operation has a changed block of its own. -/
theorem Up.clean_commit {phase : Phase} (h : Up start s a (some (p,phase))) (k : ℕ) :
    s.bio.view ROOTDEV k = s.bio.disk ROOTDEV k ∨ k ∈ pend s.lh (some phase) := by
  rcases h.clean k with hk | hk | ⟨b,q,_,_,_,hq⟩
  · exact .inl hk
  · exact .inr hk
  · have hzero := h.quiet (Option.some_ne_none _)
    rw [h.count, Finset.card_eq_zero, Finset.filter_eq_empty_iff] at hzero
    exact absurd hq (hzero (Finset.mem_univ q))

omit [DecidableEq P] in
theorem Up.inactive {phase : Phase} (h : Up start s a (some (p,phase))) (q : P) :
    a.active q = false ∧ s.role q ≠ .op := by
  have hzero := h.quiet (Option.some_ne_none _)
  rw [h.count, Finset.card_eq_zero, Finset.filter_eq_empty_iff] at hzero
  have hq := hzero (Finset.mem_univ q)
  exact ⟨Bool.eq_false_iff.mpr fun ha => hq ((h.active q).mp ha),hq⟩

/-- The process that commits is in no operation before and after it takes another role. -/
theorem Up.op_update {phase : Phase} {r : Role} (h : Up start s a (some (p,phase))) (hr : r ≠ .op)
    (q : P) : Function.update s.role p r q = .op ↔ s.role q = .op := by
  by_cases hq : q = p
  · rw [hq, Function.update_self]
    exact ⟨fun e => absurd e hr,fun e => absurd e (h.inactive p).2⟩
  · rw [Function.update_of_ne hq]

/-- The next phase of a commit, whatever it has done to the disk and the cache. -/
theorem Up.advance {phase phase' : Phase} (h : Up start s a (some (p,phase)))
    {bio : Bio.State n P Block} {lh : List ℕ} {a' : Spec P}
    (hwf : ∃ pins, Wf bio pins ∧ Pinned bio pins (pend lh (some phase')))
    (hlh : LogOk start lh) (hhead : LogOk start (getHead (bio.disk ROOTDEV start)))
    (hactive : a'.active = a.active)
    (hvol : ∀ k, Home start k → bio.view ROOTDEV k = a'.volatile k)
    (hdur : ∀ k, Home start k → recovered start (bio.disk ROOTDEV) k = a'.durable k)
    (harea : ∀ d k, d ≠ 0 → (d = ROOTDEV → ¬ Home start k) → bio.view d k = bio.disk d k)
    (hclean : ∀ k, bio.view ROOTDEV k = bio.disk ROOTDEV k ∨ k ∈ pend lh (some phase'))
    (hstage : Stage start (bio.disk ROOTDEV) (bio.view ROOTDEV) lh (some phase')) :
    Up start ({ s with bio := bio, lh := lh }.setRole p (.commit phase')) a' (some (p,phase')) := by
  have hop := h.op_update (r := .commit phase') Role.noConfusion
  constructor
  case mode => exact h.mode
  case wf => exact hwf
  case lhOk => exact hlh
  case headOk => exact hhead
  case role =>
    intro q ph
    change Function.update s.role p (.commit phase') q = _ ↔ _
    by_cases hq : q = p
    · subst hq
      rw [Function.update_self]
      simp
    · rw [Function.update_of_ne hq, h.role]
      simp [Ne.symm hq]
  case committing => exact h.committing
  case count =>
    change s.outstanding = (Finset.univ.filter fun q =>
      Function.update s.role p (.commit phase') q = .op).card
    simp only [hop]
    exact h.count
  case quiet => exact fun _ => h.quiet (Option.some_ne_none _)
  case active =>
    intro q
    rw [hactive, h.active q]
    exact (hop q).symm
  case volatile => exact hvol
  case durable => exact hdur
  case area => exact harea
  case clean => exact fun k => (hclean k).imp_right .inl
  case stage => exact hstage

theorem Up.commit_writeLog {tail : ℕ} (h : Up start s a (some (p,.writeLog tail)))
    (ht : tail < s.lh.length) {bio : Bio.State n P Block}
    (hb : writeLog start p s.lh tail s.bio = some bio) :
    Up start ({ s with bio := bio }.setRole p (.commit (.writeLog (tail + 1)))) a
      (some (p,.writeLog (tail + 1))) := by
  obtain ⟨pins,hwf,hpin⟩ := h.wf
  obtain ⟨hhead,_,hwritten⟩ := h.stage
  have hmem := getD_mem ht
  have tr := writeLog_transfer hwf (hpin.pinned _ hmem) hb
  have hlen := h.lhOk.length
  have hlog : ¬ Home start (start + tail + 1) := not_home_log (by omega)
  have hne : start + tail + 1 ≠ start := by omega
  have hstart : bio.disk ROOTDEV start = s.bio.disk ROOTDEV start := (tr.of_ne hne.symm).1
  have hview : ∀ k, Home start k → bio.view ROOTDEV k = s.bio.view ROOTDEV k :=
    fun k hk => (tr.of_ne fun e => hlog (e ▸ hk)).2
  have hhome : ∀ i < s.lh.length, Home start (s.lh.getD i 0) :=
    fun i hi => h.lhOk.home _ (getD_mem hi)
  refine h.advance ⟨pins,tr.wf,hpin.keys tr.apart.pinned⟩ h.lhOk ?_ rfl ?_ ?_ ?_ ?_ ?_
  · rw [hstart]
    exact h.headOk
  · exact fun k hk => (hview k hk).trans (h.volatile k hk)
  · intro k hk
    rw [tr.disk_root, recovered_log hhead hlog hne hk]
    exact h.durable k hk
  · exact fun d k hd hk => tr.agree hd (h.area d k hd hk)
  · exact fun k => (h.clean_commit k).imp_left (tr.agree rootdev_ne_zero)
  · refine ⟨by rw [hstart]; exact hhead,ht,fun i hi => ?_⟩
    rw [hview _ (hhome i (by omega))]
    by_cases hit : i = tail
    · rw [hit, tr.disk_root]
      exact if_pos rfl
    · rw [(tr.of_ne (by omega)).1]
      exact hwritten i (by omega)

/-- The write of the header is the commit. -/
theorem Up.commit_writeHead (h : Up start s a (some (p,.writeHead))) {bio : Bio.State n P Block}
    (hb : writeHead start p s.lh s.bio = some bio) :
    Up start ({ s with bio := bio }.setRole p (.commit (.installTrans 0)))
      { a with durable := a.volatile } (some (p,.installTrans 0)) := by
  obtain ⟨pins,hwf,hpin⟩ := h.wf
  obtain ⟨_,hwritten⟩ := h.stage
  have tr := writeHead_transfer hwf hb
  have hlen := h.lhOk.length
  have hhead : getHead (bio.disk ROOTDEV start) = s.lh :=
    tr.head (Nat.lt_of_le_of_lt hlen (by decide)) h.lhOk.bounded
  have hlogged : ∀ i < s.lh.length, bio.disk ROOTDEV (start + i + 1) =
      bio.view ROOTDEV (s.lh.getD i 0) := by
    intro i hi
    rw [(tr.of_ne (by omega)).1, (tr.of_ne (h.lhOk.home _ (getD_mem hi)).ne_start).2]
    exact hwritten i hi
  refine h.advance ⟨pins,tr.wf,hpin.keys tr.apart.pinned⟩ h.lhOk ?_ rfl ?_ ?_ ?_ ?_
    ⟨hhead,Nat.zero_le _,hlogged⟩
  · rw [hhead]
    exact h.lhOk
  · exact fun k hk => (tr.of_ne hk.ne_start).2.trans (h.volatile k hk)
  · -- a block is in the log, or it has not been changed
    intro k hk
    dsimp only
    rw [← h.volatile k hk]
    by_cases hmem : k ∈ s.lh
    · obtain ⟨hlt,hget⟩ := getD_idxOf hmem
      rw [recovered_of_mem (hhead ▸ hmem), hhead, hlogged _ hlt, hget, (tr.of_ne hk.ne_start).2]
    · rw [recovered_of_not_mem (hhead ▸ hmem), (tr.of_ne hk.ne_start).1]
      rcases h.clean_commit k with e | e
      · exact e.symm
      · exact absurd e hmem
  · exact fun d k hd hk => tr.agree hd (h.area d k hd hk)
  · exact fun k => (h.clean_commit k).imp_left (tr.agree rootdev_ne_zero)

omit [DecidableEq P] in
/-- A pin is undone for the block that has come home. -/
theorem Pinned.unpin {b t : Bio.State n P Block} {pins : Fin n → ℕ} {lh : List ℕ} {tail : ℕ}
    {c : Fin n}
    (hw : Wf b pins) (h : Pinned b pins (lh.drop tail)) (ha : Apart b t pins p) (hd : lh.Nodup)
    (ht : tail < lh.length) (hc : (b.cache.buf c).dev = ROOTDEV)
    (hk : (b.cache.buf c).blockno = lh.getD tail 0) :
    Pinned t (Function.update pins c (pins c - 1)) (lh.drop (tail + 1)) := by
  have hdrop := drop_getD ht
  have hnot : lh.getD tail 0 ∉ lh.drop (tail + 1) := by
    have := hd.sublist (List.drop_sublist tail lh)
    rw [hdrop] at this
    exact (List.nodup_cons.mp this).1
  refine ⟨fun k hmem => ?_,fun e he => ?_,fun e => ?_⟩
  · obtain ⟨e,h1,h2,h3⟩ := h.pinned k (hdrop ▸ List.mem_cons_of_mem _ hmem)
    obtain ⟨a1,a2⟩ := ha.pinned e h3
    have hec : e ≠ c := by
      rintro rfl
      exact hnot (by rw [← hk, h2]; exact hmem)
    exact ⟨e,a1.trans h1,a2.trans h2,by rwa [Function.update_of_ne hec]⟩
  · have hec : e ≠ c := by
      rintro rfl
      rw [Function.update_self] at he
      have := h.once e
      omega
    rw [Function.update_of_ne hec] at he
    obtain ⟨a1,a2⟩ := ha.pinned e he
    obtain ⟨h1,h2⟩ := h.only e he
    rw [a1, a2]
    refine ⟨h1,?_⟩
    rw [hdrop] at h2
    rcases List.mem_cons.mp h2 with e' | e'
    · exact absurd (hw.unique e c (by rw [h1]; exact rootdev_ne_zero) (h1.trans hc.symm)
        (e'.trans hk.symm)) hec
    · exact e'
  · by_cases hec : e = c
    · subst hec
      rw [Function.update_self]
      have := h.once e
      omega
    · rw [Function.update_of_ne hec]
      exact h.once e

theorem Up.commit_install {tail : ℕ} (h : Up start s a (some (p,.installTrans tail)))
    (ht : tail < s.lh.length) {bio : Bio.State n P Block}
    (hb : installTrans start p s.lh false tail s.bio = some bio) :
    Up start ({ s with bio := bio }.setRole p (.commit (.installTrans (tail + 1)))) a
      (some (p,.installTrans (tail + 1))) := by
  obtain ⟨pins,hwf,hpin⟩ := h.wf
  obtain ⟨hhead,_,hlogged⟩ := h.stage
  have hlen := h.lhOk.length
  have hdrop := drop_getD ht
  have hin : s.lh.getD tail 0 ∈ pend s.lh (some (.installTrans tail)) := by
    rw [pend, hdrop]
    exact List.mem_cons_self
  obtain ⟨b,hbk,tr⟩ := installTrans_transfer hwf
    (h.area _ _ rootdev_ne_zero fun _ => not_home_log (by omega))
    (fun _ => hpin.pinned _ hin) hb
  obtain ⟨_,hdev,hblk⟩ := hbk rfl
  have hmem := getD_mem ht
  have hhome := h.lhOk.home _ hmem
  rw [hlogged tail ht] at tr
  -- what is installed is what the cache shows already
  have hview : ∀ k, bio.view ROOTDEV k = s.bio.view ROOTDEV k := by
    intro k
    rw [tr.view_root]
    dsimp only
    split
    case isTrue e => rw [e]
    case isFalse => rfl
  have hstart : bio.disk ROOTDEV start = s.bio.disk ROOTDEV start :=
    (tr.of_ne hhome.ne_start.symm).1
  refine h.advance ⟨_,tr.wf,Pinned.unpin hwf hpin tr.apart h.lhOk.nodup ht hdev hblk⟩ h.lhOk ?_ rfl
    ?_ ?_ ?_ ?_ ⟨by rw [hstart]; exact hhead,ht,fun i hi => ?_⟩
  · rw [hstart]
    exact h.headOk
  · exact fun k hk => (hview k).trans (h.volatile k hk)
  · intro k hk
    rw [tr.disk_root, recovered_update h.headOk (hhead ▸ hmem)]
    exact h.durable k hk
  · exact fun d k hd hk => tr.agree hd (h.area d k hd hk)
  · intro k
    by_cases hk : k = s.lh.getD tail 0
    · left
      rw [hview, hk, tr.disk_root]
      exact (if_pos rfl).symm
    · rw [hview k, (tr.of_ne hk).1]
      rcases h.clean_commit k with e | e
      · exact .inl e
      · refine .inr ?_
        rw [show pend s.lh (some (.installTrans tail)) = s.lh.drop tail from rfl, hdrop] at e
        exact (List.mem_cons.mp e).resolve_left hk
  · rw [hview, (tr.of_ne fun e => not_home_log (by omega) (e ▸ hhome)).1]
    exact hlogged i hi

theorem Up.commit_clear (h : Up start s a (some (p,.clear))) {bio : Bio.State n P Block}
    (hb : writeHead start p [] s.bio = some bio) :
    Up start ({ s with bio := bio, lh := [] }.setRole p (.commit .done)) a (some (p,.done)) := by
  obtain ⟨pins,hwf,hpin⟩ := h.wf
  obtain ⟨hold,hlogged⟩ := h.stage
  have tr := writeHead_transfer hwf hb
  have hhead : getHead (bio.disk ROOTDEV start) = [] := tr.head (by decide) (by simp)
  have hclean : ∀ k, s.bio.view ROOTDEV k = s.bio.disk ROOTDEV k :=
    fun k => (h.clean_commit k).resolve_right (by simp [pend])
  have hboth : ∀ k, bio.view ROOTDEV k = bio.disk ROOTDEV k :=
    fun k => tr.agree rootdev_ne_zero (hclean k)
  refine h.advance ⟨pins,tr.wf,hpin.keys tr.apart.pinned⟩ logOk_nil ?_ rfl ?_ ?_ ?_
    (fun k => .inl (hboth k)) ⟨hhead,rfl⟩
  · rw [hhead]
    exact logOk_nil
  · exact fun k hk => (tr.of_ne hk.ne_start).2.trans (h.volatile k hk)
  · intro k hk
    rw [recovered_of_nil hhead, (tr.of_ne hk.ne_start).1, ← h.durable k hk]
    by_cases hmem : k ∈ s.lh
    · obtain ⟨hlt,hget⟩ := getD_idxOf hmem
      rw [recovered_of_mem (hold ▸ hmem), hold, hlogged _ hlt, hget, hclean k]
    · rw [recovered_of_not_mem (hold ▸ hmem)]
  · exact fun d k hd hk => tr.agree hd (h.area d k hd hk)

omit [DecidableEq P] in
/-- A step that changes neither the disk nor the cache nor the log. -/
theorem Up.change {c c' : Option (P × Phase)} {a' : Spec P} (h : Up start s a c)
    (hbio : t.bio = s.bio) (hlh : t.lh = s.lh) (hmode : t.mode = .up)
    (hpend : pend s.lh (c'.map Prod.snd) = pend s.lh (c.map Prod.snd))
    (hstage : Stage start (s.bio.disk ROOTDEV) (s.bio.view ROOTDEV) s.lh (c'.map Prod.snd))
    (hrole : ∀ q phase, t.role q = .commit phase ↔ c' = some (q,phase))
    (hcom : t.committing = c'.isSome)
    (hcount : t.outstanding = (Finset.univ.filter fun q => t.role q = .op).card)
    (hquiet : c' ≠ none → t.outstanding = 0) (hactive : ∀ q, a'.active q = true ↔ t.role q = .op)
    (hvol : a'.volatile = a.volatile) (hdur : a'.durable = a.durable)
    (hop : ∀ b q, (s.bio.cache.buf b).lock = some q → s.role q = .op → t.role q = .op) :
    Up start t a' c' := by
  refine ⟨hmode,?_,hlh ▸ h.lhOk,hbio ▸ h.headOk,hrole,hcom,hcount,hquiet,hactive,?_,?_,?_,?_,?_⟩
  · rw [hbio, hlh, hpend]
    exact h.wf
  · rw [hbio, hvol]
    exact h.volatile
  · rw [hbio, hdur]
    exact h.durable
  · rw [hbio]
    exact h.area
  · intro k
    rw [hbio, hlh, hpend]
    rcases h.clean k with e | e | ⟨b,q,h1,h2,h3,h4⟩
    · exact .inl e
    · exact .inr (.inl e)
    · exact .inr (.inr ⟨b,q,h1,h2,h3,hop b q h3 h4⟩)
  · rw [hbio, hlh]
    exact hstage

/-- One step of a commit: only the write of the header does something to the disk that the log
stands for. -/
theorem Up.commit_step {phase : Phase} (h : Up start s a (some (p,phase)))
    (hs : commitStep start s p phase = some t) :
    ∃ c, Up start t (if phase = .writeHead then { a with durable := a.volatile } else a) c := by
  have hstage := h.stage
  cases phase with
  | commit =>
    obtain rfl := Option.some.inj hs
    have hnext : Up start (s.setRole p (.commit (if 0 < s.lh.length then .writeLog 0 else .done))) a
        (some (p,if 0 < s.lh.length then .writeLog 0 else .done)) := by
      by_cases hlen : 0 < s.lh.length
      · rw [if_pos hlen]
        exact h.advance h.wf h.lhOk h.headOk rfl h.volatile h.durable h.area h.clean_commit
          ⟨hstage,Nat.zero_le _,fun i hi => absurd hi (Nat.not_lt_zero i)⟩
      · have hnil : s.lh = [] := List.eq_nil_of_length_eq_zero (by omega)
        have hpend : pend s.lh (some .done) = pend s.lh (some .commit) := by rw [hnil]; rfl
        have hdone : Stage start (s.bio.disk ROOTDEV) (s.bio.view ROOTDEV) s.lh (some .done) :=
          ⟨hstage,hnil⟩
        rw [if_neg hlen]
        refine h.advance ?_ h.lhOk h.headOk rfl h.volatile h.durable h.area ?_ hdone
        · rw [hpend]
          exact h.wf
        · rw [hpend]
          exact h.clean_commit
    exact ⟨_,hnext⟩
  | writeLog tail =>
    simp only [commitStep] at hs
    split at hs
    case isTrue ht =>
      obtain ⟨bio,hb,rfl⟩ := Option.map_eq_some_iff.mp hs
      exact ⟨_,h.commit_writeLog ht hb⟩
    case isFalse ht =>
      obtain rfl := Option.some.inj hs
      exact ⟨some (p,.writeHead),h.advance h.wf h.lhOk h.headOk rfl h.volatile h.durable h.area
        h.clean_commit ⟨hstage.1,fun i hi => hstage.2.2 i (by omega)⟩⟩
  | writeHead =>
    obtain ⟨bio,hb,rfl⟩ := Option.map_eq_some_iff.mp hs
    exact ⟨_,h.commit_writeHead hb⟩
  | installTrans tail =>
    simp only [commitStep] at hs
    split at hs
    case isTrue ht =>
      obtain ⟨bio,hb,rfl⟩ := Option.map_eq_some_iff.mp hs
      exact ⟨_,h.commit_install ht hb⟩
    case isFalse ht =>
      obtain rfl := Option.some.inj hs
      have hpend : pend s.lh (some (.installTrans tail)) = pend s.lh (some .clear) :=
        List.drop_eq_nil_of_le (Nat.not_lt.mp ht)
      refine ⟨some (p,.clear),h.advance ?_ h.lhOk h.headOk rfl h.volatile h.durable h.area ?_
        ⟨hstage.1,hstage.2.2⟩⟩
      · rw [← hpend]
        exact h.wf
      · rw [← hpend]
        exact h.clean_commit
  | clear =>
    obtain ⟨bio,hb,rfl⟩ := Option.map_eq_some_iff.mp hs
    exact ⟨_,h.commit_clear hb⟩
  | done =>
    obtain rfl := Option.some.inj hs
    have hop : ∀ q, Function.update s.role p .idle q ≠ .op := fun q e =>
      (h.inactive q).2 ((h.op_update Role.noConfusion q).mp e)
    have hzero := h.quiet (Option.some_ne_none _)
    refine ⟨none,h.change rfl rfl h.mode ?_ hstage.1 ?_ rfl ?_ (fun e => absurd rfl e) ?_
      rfl rfl ?_⟩
    · rw [hstage.2]
      rfl
    · intro q phase
      change Function.update s.role p .idle q = _ ↔ _
      by_cases hq : q = p
      · rw [hq, Function.update_self]
        simp
      · rw [Function.update_of_ne hq, h.role]
        simp [Ne.symm hq]
    · change s.outstanding =
        (Finset.univ.filter fun q => Function.update s.role p .idle q = .op).card
      rw [hzero, Finset.filter_false_of_mem fun q _ => hop q]
      rfl
    · intro q
      change a.active q = true ↔ _
      rw [(h.inactive q).1]
      exact ⟨fun e => absurd e Bool.false_ne_true,fun e => absurd e (hop q)⟩
    · exact fun b q _ hq => absurd hq (h.inactive q).2

end Commit

section Operations
variable {start : ℕ} {p : P} {s t : State n P} {a : Spec P} {c : Option (P × Phase)}

theorem card_op_update (role : P → Role) (p : P) (r : Role) :
    (Finset.univ.filter fun q => Function.update role p r q = .op).card +
      (if role p = .op then 1 else 0) =
    (Finset.univ.filter fun q => role q = .op).card + (if r = .op then 1 else 0) := by
  have hrest : ∀ f : P → Role, (Finset.univ.filter fun q => f q = .op).card =
      ((Finset.univ.erase p).filter fun q => f q = .op).card + if f p = .op then 1 else 0 := by
    intro f
    rw [← Finset.insert_erase (Finset.mem_univ p), Finset.filter_insert,
      Finset.erase_insert (Finset.notMem_erase p _)]
    split
    · rw [Finset.card_insert_of_notMem (by simp)]
    · rfl
  have hsame : (Finset.univ.erase p).filter (fun q => Function.update role p r q = .op) =
      (Finset.univ.erase p).filter (fun q => role q = .op) := by
    apply Finset.filter_congr
    intro q hq
    rw [Function.update_of_ne (Finset.ne_of_mem_erase hq)]
  rw [hrest (Function.update role p r), hrest role, hsame, Function.update_self]
  omega

/-- A process that does not commit takes another role. -/
theorem Up.setRole {r : Role} {out : ℕ} {a' : Spec P} (h : Up start s a c)
    (hp : ∀ phase, s.role p ≠ .commit phase)
    (hr : ∀ phase, r ≠ .commit phase)
    (hout : out + (if s.role p = .op then 1 else 0) = s.outstanding + (if r = .op then 1 else 0))
    (hquiet : c ≠ none → out = 0)
    (hactive : a'.active = Function.update a.active p (decide (r = .op)))
    (hvol : a'.volatile = a.volatile) (hdur : a'.durable = a.durable)
    (hop : s.role p = .op → r = .op ∨ ∀ b, (s.bio.cache.buf b).lock ≠ some p) :
    Up start ({ s with outstanding := out }.setRole p r) a' c := by
  refine h.change rfl rfl h.mode rfl h.stage ?_ h.committing ?_ hquiet ?_ hvol hdur ?_
  · intro q phase
    change Function.update s.role p r q = _ ↔ _
    by_cases hq : q = p
    · rw [hq, Function.update_self, ← h.role p phase]
      exact ⟨fun e => absurd e (hr phase),fun e => absurd e (hp phase)⟩
    · rw [Function.update_of_ne hq]
      exact h.role q phase
  · have hcard := card_op_update s.role p r
    have hcount := h.count
    change out = (Finset.univ.filter fun q => Function.update s.role p r q = .op).card
    omega
  · intro q
    change _ ↔ Function.update s.role p r q = _
    rw [hactive]
    by_cases hq : q = p
    · rw [hq, Function.update_self, Function.update_self]
      exact decide_eq_true_iff
    · rw [Function.update_of_ne hq, Function.update_of_ne hq]
      exact h.active q
  · intro b q hl hq
    change Function.update s.role p r q = _
    by_cases hqp : q = p
    · rw [hqp, Function.update_self]
      rcases hop (hqp ▸ hq) with e | e
      · exact e
      · exact absurd (hqp ▸ hl) (e b)
    · rw [Function.update_of_ne hqp]
      exact hq

/-- Neither in an operation nor in a commit. -/
def Role.aside : Role → Bool
  | .idle => true
  | .sync _ => true
  | _ => false

theorem Up.waits {r : Role} (h : Up start s a c) (hp : (s.role p).aside = true)
    (hr : r.aside = true) :
    Up start (s.setRole p r) a c := by
  have hop : ∀ r : Role, r.aside = true → r ≠ .op ∧ ∀ phase, r ≠ .commit phase := by
    rintro (_ | _ | _ | _) hr
    · exact ⟨fun e => (by cases e),fun _ e => by cases e⟩
    · cases hr
    · cases hr
    · exact ⟨fun e => (by cases e),fun _ e => by cases e⟩
  have hactive : a.active p = false :=
    Bool.eq_false_iff.mpr fun ha => (hop _ hp).1 ((h.active p).mp ha)
  refine h.setRole (hop _ hp).2 (hop _ hr).2 ?_ h.quiet ?_ rfl rfl (fun e => absurd e (hop _ hp).1)
  · rw [if_neg (hop _ hp).1, if_neg (hop _ hr).1]
  · rw [decide_eq_false (hop _ hr).1, ← hactive, Function.update_eq_self]

omit [DecidableEq P] in
/-- While an operation runs, nobody commits. -/
theorem Up.none_of_op (h : Up start s a c) (hp : s.role p = .op) : c = none := by
  by_contra hc
  have hzero := h.quiet hc
  rw [h.count, Finset.card_eq_zero, Finset.filter_eq_empty_iff] at hzero
  exact hzero (Finset.mem_univ p) hp

omit [DecidableEq P] in
/-- A buffer that its holder releases is on the disk, or logged and pinned. -/
theorem Up.released (h : Up start s a c) {pins : Fin n → ℕ} (hwf : Wf s.bio pins)
    (hpin : Pinned s.bio pins (pend s.lh (c.map Prod.snd))) {b : Fin n} (hb : s.bio.Holds p b)
    (hf : s.role p = .op →
      (s.bio.cache.buf b).data = s.bio.disk (s.bio.cache.buf b).dev (s.bio.cache.buf b).blockno ∨
      ((s.bio.cache.buf b).dev = ROOTDEV ∧ (s.bio.cache.buf b).blockno ∈ s.lh)) :
    (s.bio.cache.buf b).data = s.bio.disk (s.bio.cache.buf b).dev (s.bio.cache.buf b).blockno ∨
    ((s.bio.cache.buf b).dev = ROOTDEV ∧
      (s.bio.cache.buf b).blockno ∈ pend s.lh (c.map Prod.snd) ∧ 0 < pins b) := by
  have hd := hwf.dev_of_lock hb.1
  have hv : s.bio.view (s.bio.cache.buf b).dev (s.bio.cache.buf b).blockno =
    (s.bio.cache.buf b).data :=
    (hwf.view_iff hd).mpr (.inl ⟨b,rfl,rfl,hwf.valid_of_holds hb,rfl⟩)
  have hpend : (s.bio.cache.buf b).dev = ROOTDEV →
      (s.bio.cache.buf b).blockno ∈ pend s.lh (c.map Prod.snd) → 0 < pins b := by
    intro hroot hk
    obtain ⟨e,h1,h2,h3⟩ := hpin.pinned _ hk
    exact hwf.unique b e hd (hroot.trans h1.symm) h2.symm ▸ h3
  rw [← hv]
  by_cases hhome : (s.bio.cache.buf b).dev = ROOTDEV ∧ Home start (s.bio.cache.buf b).blockno
  · obtain ⟨hroot,_⟩ := hhome
    rcases h.clean (s.bio.cache.buf b).blockno with e | e | ⟨e,q,h1,h2,h3,h4⟩
    · exact .inl (by rw [hroot]; exact e)
    · exact .inr ⟨hroot,e,hpend hroot e⟩
    · obtain rfl := hwf.unique e b (by rw [h1]; exact rootdev_ne_zero) (h1.trans hroot.symm) h2
      obtain rfl := Option.some.inj (h3.symm.trans hb.1)
      rcases hf h4 with e' | ⟨_,e'⟩
      · exact .inl (hv.trans e')
      · have hk : (s.bio.cache.buf e).blockno ∈ pend s.lh (c.map Prod.snd) := by
          rw [h.none_of_op h4]
          exact e'
        exact .inr ⟨hroot,hk,hpend hroot hk⟩
  · exact .inl (h.area _ _ hd fun e hk => hhome ⟨e,hk⟩)

theorem Up.allowed (h : Up start s a c) {pins : Fin n → ℕ} (hwf : Wf s.bio pins)
    (hpin : Pinned s.bio pins (pend s.lh (c.map Prod.snd))) {e : Bio.Event n P Block}
    {bio : Bio.State n P Block} (hu : IsUse p e) (hf : Follows start s (.bio p e))
    (he : Bio.step s.bio e = some bio) : Allowed s.bio pins e := by
  cases e with
  | bget q dev blockno => exact hf
  | releasesleep q b =>
    obtain rfl : q = p := hu
    obtain ⟨hh,_⟩ := Option.ite_none_right_eq_some.mp he
    exact (h.released hwf hpin hh hf).imp_right fun e => e.2.2
  | bunpin q b => exact hu.elim
  | _ => trivial

/-- What file system code does to the cache. It changes what is seen of a block only inside an
operation and with the lock of its buffer. -/
theorem Up.use (h : Up start s a c) {e : Bio.Event n P Block} {bio : Bio.State n P Block}
    (hu : IsUse p e) (hf : Follows start s (.bio p e)) (he : Bio.step s.bio e = some bio)
    {a' : Spec P} (hactive : a'.active = a.active) (hdur : a'.durable = a.durable)
    (hvol : ∀ k, Home start k → bio.view ROOTDEV k = a'.volatile k)
    (hstored : ∀ d k, d ≠ 0 → bio.view d k = s.bio.view d k ∨
      (s.role p = .op ∧ d = ROOTDEV ∧ Home start k ∧
        ∃ b, (s.bio.cache.buf b).dev = ROOTDEV ∧ (s.bio.cache.buf b).blockno = k ∧
          (s.bio.cache.buf b).lock = some p ∧ e ≠ .releasesleep p b)) :
    Up start { s with bio := bio } a' c := by
  obtain ⟨pins,hwf,hpin⟩ := h.wf
  obtain ⟨hdisk,hkeys,hlocks⟩ := use_keeps hwf hu he
  have hallowed := h.allowed hwf hpin hu hf he
  have hpins : pinned pins e = pins := by
    cases e with
    | bpin q b => exact hu.elim
    | bunpin q b => exact hu.elim
    | _ => rfl
  have hlocked : ∀ b q, (s.bio.cache.buf b).lock = some q → 0 < (s.bio.cache.buf b).refcnt := by
    intro b q hl
    have hheld : (s.bio.cache.buf b).held = 1 := by rw [Buf.held, hl]; rfl
    have := hwf.refs b
    omega
  have hview : c ≠ none → bio.view ROOTDEV = s.bio.view ROOTDEV := by
    intro hc
    funext k
    rcases hstored _ k rootdev_ne_zero with e' | ⟨hop,_⟩
    · exact e'
    · exact absurd (h.none_of_op hop) hc
  refine ⟨h.mode,⟨pins,hpins ▸ hwf.step hallowed he,hpin.keys fun b hb => hkeys b ?_⟩,h.lhOk,
    ?_,h.role,
    h.committing,h.count,h.quiet,?_,hvol,?_,?_,fun k => ?_,?_⟩
  · have := hwf.refs b
    omega
  · rw [hdisk]
    exact h.headOk
  · rw [hactive]
    exact h.active
  · rw [hdisk, hdur]
    exact h.durable
  · intro d k hd hk
    dsimp only
    rw [hdisk]
    rcases hstored d k hd with e' | ⟨_,hroot,hhome,_⟩
    · exact e'.trans (h.area d k hd hk)
    · exact absurd hhome (hk hroot)
  · dsimp only
    rw [hdisk]
    rcases hstored _ k rootdev_ne_zero with e' | ⟨hop,_,_,b,h1,h2,h3,h4⟩
    · rw [e']
      rcases h.clean k with e0 | e0 | ⟨b,q,h1,h2,h3,h4⟩
      · exact .inl e0
      · exact .inr (.inl e0)
      · by_cases hrel : e = .releasesleep p b
        · subst hrel
          obtain ⟨hh,_⟩ := Option.ite_none_right_eq_some.mp he
          rcases h.released hwf hpin hh hf with e1 | ⟨_,e1,_⟩
          · left
            rw [← h1, ← h2, ← e1]
            exact (hwf.view_iff (by rw [h1]; exact rootdev_ne_zero)).mpr
              (.inl ⟨b,rfl,rfl,hwf.valid_of_holds hh,rfl⟩)
          · exact .inr (.inl (h2 ▸ e1))
        · obtain ⟨k1,k2⟩ := hkeys b (hlocked b q h3)
          exact .inr (.inr ⟨b,q,k1.trans h1,k2.trans h2,hlocks b q h3 hrel,h4⟩)
    · obtain ⟨k1,k2⟩ := hkeys b (hlocked b p h3)
      exact .inr (.inr ⟨b,p,k1.trans h1,k2.trans h2,hlocks b p h3 h4,hop⟩)
  · dsimp only
    rw [hdisk]
    cases c with
    | none => exact h.stage
    | some x =>
      rw [hview (Option.some_ne_none x)]
      exact h.stage

/-- A store of an operation is a write to the disk that the log stands for. -/
theorem Up.bio_step (h : Up start s a c) {e : Bio.Event n P Block} {bio : Bio.State n P Block}
    (hu : IsUse p e) (hf : Follows start s (.bio p e)) (he : Bio.step s.bio e = some bio) :
    ∃ a', (a' = a ∨ ∃ k v, Spec.step a (.write p k v) = some a') ∧
      Up start { s with bio := bio } a' c := by
  obtain ⟨pins,hwf,hpin⟩ := h.wf
  by_cases hmod : ∃ b v, e = .modify p b v
  · obtain ⟨b,v,rfl⟩ := hmod
    obtain ⟨hrole,hdev,hhome⟩ := hf
    obtain ⟨hh,_⟩ := Option.ite_none_right_eq_some.mp he
    have hview := hwf.view_step he trivial
    simp only [stored, hdev] at hview
    refine ⟨{ a with volatile := Function.update a.volatile (s.bio.cache.buf b).blockno v },
      .inr ⟨(s.bio.cache.buf b).blockno,v,if_pos ((h.active p).mpr hrole)⟩,
      h.use hu ⟨hrole,hdev,hhome⟩ he rfl rfl (fun k hk => ?_) (fun d k hd => ?_)⟩
    · rw [hview _ k rootdev_ne_zero]
      by_cases hkb : k = (s.bio.cache.buf b).blockno
      · rw [if_pos ⟨rfl,hkb⟩, hkb]
        dsimp only
        rw [Function.update_self]
      · rw [if_neg fun e => hkb e.2, h.volatile k hk]
        dsimp only
        rw [Function.update_of_ne hkb]
    · rw [hview d k hd]
      split
      case isTrue e => exact .inr ⟨hrole,e.1,e.2 ▸ hhome,b,hdev,e.2.symm,hh.1,fun e => by cases e⟩
      case isFalse => exact .inl rfl
  · have hsame : ∀ d k, d ≠ 0 → bio.view d k = s.bio.view d k := by
      intro d k hd
      rw [hwf.view_step he (h.allowed hwf hpin hu hf he) d k hd]
      cases e with
      | modify q b v => exact absurd ⟨b,v,by rw [show q = p from hu]⟩ hmod
      | _ => rfl
    exact ⟨a,.inl rfl,h.use hu hf he rfl rfl
      (fun k hk => (hsame _ k rootdev_ne_zero).trans (h.volatile k hk))
      (fun d k hd => .inl (hsame d k hd))⟩

/-- log_write pins a block that was not in the log. -/
theorem Up.logWrite (h : Up start s a c) {b : Fin n} {bio : Bio.State n P Block}
    (hrole : s.role p = .op) (hf : Follows start s (.logWrite p b))
    (hroom : s.lh.length < LOGBLOCKS)
    (hnew : (s.bio.cache.buf b).blockno ∉ s.lh) (he : Bio.step s.bio (.bpin p b) = some bio) :
    Up start { s with bio := bio, lh := s.lh ++ [(s.bio.cache.buf b).blockno] } a c := by
  obtain rfl := h.none_of_op hrole
  obtain ⟨pins,hwf,hpin⟩ := h.wf
  obtain ⟨hdev,hhome,hbound⟩ := hf
  have hwf' := hwf.bpin he
  have hview := hwf.view_step he trivial
  obtain ⟨_,ht⟩ := Option.ite_none_right_eq_some.mp he
  obtain rfl := Option.some.inj ht
  have hkey : ∀ x, ((s.bio.modify b Buf.ref).cache.buf x).dev = (s.bio.cache.buf x).dev ∧
      ((s.bio.modify b Buf.ref).cache.buf x).blockno = (s.bio.cache.buf x).blockno :=
    fun x => keeps_modify fun _ => ⟨rfl,rfl⟩
  have hlock : ∀ x, ((s.bio.modify b Buf.ref).cache.buf x).lock = (s.bio.cache.buf x).lock :=
    Bcache.modify_field (·.lock) rfl
  have hzero : pins b = 0 := by
    by_contra hb
    exact hnew (hpin.only b (Nat.pos_of_ne_zero hb)).2
  have hroot : ∀ k, (s.bio.modify b Buf.ref).view ROOTDEV k = s.bio.view ROOTDEV k :=
    fun k => hview _ k rootdev_ne_zero
  refine ⟨h.mode,⟨_,hwf',?_,?_,?_⟩,?_,h.headOk,h.role,h.committing,h.count,h.quiet,h.active,?_,
    h.durable,?_,fun k => ?_,h.stage⟩
  · intro k hk
    rcases List.mem_append.mp hk with hk | hk
    · obtain ⟨x,h1,h2,h3⟩ := hpin.pinned k hk
      have hxb : x ≠ b := by
        rintro rfl
        omega
      exact ⟨x,(hkey x).1.trans h1,(hkey x).2.trans h2,by rwa [Function.update_of_ne hxb]⟩
    · rw [List.mem_singleton] at hk
      exact ⟨b,(hkey b).1.trans hdev,(hkey b).2.trans hk.symm,by
        rw [Function.update_self]
        exact Nat.succ_pos _⟩
  · intro x hx
    rw [(hkey x).1, (hkey x).2]
    by_cases hxb : x = b
    · rw [hxb]
      exact ⟨hdev,List.mem_append_right _ List.mem_cons_self⟩
    · rw [Function.update_of_ne hxb] at hx
      exact ⟨(hpin.only x hx).1,List.mem_append_left _ (hpin.only x hx).2⟩
  · intro x
    by_cases hxb : x = b
    · rw [hxb, Function.update_self, hzero]
    · rw [Function.update_of_ne hxb]
      exact hpin.once x
  · refine ⟨?_,?_,?_,?_⟩
    · exact List.nodup_append.mpr ⟨h.lhOk.nodup,List.nodup_singleton _,fun x hx y hy e =>
        hnew (by rw [← List.mem_singleton.mp hy, ← e]; exact hx)⟩
    · intro k hk
      rcases List.mem_append.mp hk with hk | hk
      · exact h.lhOk.home k hk
      · exact List.mem_singleton.mp hk ▸ hhome
    · intro k hk
      rcases List.mem_append.mp hk with hk | hk
      · exact h.lhOk.bounded k hk
      · exact List.mem_singleton.mp hk ▸ hbound
    · rw [List.length_append]
      exact hroom
  · exact fun k hk => (hroot k).trans (h.volatile k hk)
  · exact fun d k hd hk => (hview d k hd).trans (h.area d k hd hk)
  · dsimp only
    rw [hroot]
    rcases h.clean k with e | e | ⟨x,q,h1,h2,h3,h4⟩
    · exact .inl e
    · exact .inr (.inl (List.mem_append_left _ e))
    · exact .inr (.inr ⟨x,q,(hkey x).1.trans h1,(hkey x).2.trans h2,(hlock x).trans h3,h4⟩)

/-- The end of an operation that others outlive, or of the last one, which starts the commit. -/
theorem Up.endOp (h : Up start s a c) (hrole : s.role p = .op) (hf : Follows start s (.endOp p)) :
    ∃ a' c', Spec.step a (.finish p) = some a' ∧ Up start
      (if s.outstanding - 1 = 0 then
        { s with outstanding := 0, committing := true }.setRole p (.commit .commit)
      else { s with outstanding := s.outstanding - 1 }.setRole p .idle) a' c' := by
  obtain rfl := h.none_of_op hrole
  have hcard := card_op_update s.role p (if s.outstanding - 1 = 0 then .commit .commit else .idle)
  have hcount := h.count
  have hpos : 0 < s.outstanding := by
    rw [hcount]
    exact Finset.card_pos.mpr ⟨p,Finset.mem_filter.mpr ⟨Finset.mem_univ p,hrole⟩⟩
  have hspec : Spec.step a (.finish p) =
      some { a with active := Function.update a.active p false } :=
    if_pos ((h.active p).mpr hrole)
  by_cases hlast : s.outstanding - 1 = 0
  · rw [if_pos hlast] at hcard ⊢
    rw [if_pos hrole, if_neg (by decide), ← hcount] at hcard
    have hother : ∀ q, Function.update s.role p (.commit .commit) q ≠ .op := by
      have hzero : (Finset.univ.filter fun q =>
          Function.update s.role p (.commit .commit) q = .op).card = 0 := by omega
      rw [Finset.card_eq_zero, Finset.filter_eq_empty_iff] at hzero
      exact fun q => hzero (Finset.mem_univ q)
    refine ⟨_,some (p,.commit),hspec,h.change rfl rfl h.mode rfl h.stage ?_ rfl ?_
      (fun _ => rfl) ?_ rfl rfl ?_⟩
    · intro q phase
      change Function.update s.role p (.commit .commit) q = _ ↔ _
      by_cases hq : q = p
      · rw [hq, Function.update_self]
        simp
      · rw [Function.update_of_ne hq, h.role]
        simp [Ne.symm hq]
    · change 0 = (Finset.univ.filter fun q =>
        Function.update s.role p (.commit .commit) q = .op).card
      omega
    · intro q
      refine ⟨fun ha => ?_,fun e => absurd e (hother q)⟩
      dsimp only at ha
      by_cases hq : q = p
      · rw [hq, Function.update_self] at ha
        cases ha
      · rw [Function.update_of_ne hq] at ha
        refine absurd ?_ (hother q)
        rw [Function.update_of_ne hq]
        exact (h.active q).mp ha
    · intro b q hl hq
      by_cases hqp : q = p
      · exact absurd (hqp ▸ hl) (hf b)
      · refine absurd ?_ (hother q)
        rw [Function.update_of_ne hqp]
        exact hq
  · rw [if_neg hlast]
    refine ⟨_,none,hspec,h.setRole (fun phase e => ?_) (fun phase e => by cases e) ?_
      (fun e => absurd rfl e) rfl rfl rfl
      (fun _ => .inr hf)⟩
    · rw [hrole] at e
      cases e
    · rw [if_pos hrole, if_neg (by decide)]
      omega

end Operations

section Refinement
variable {start : ℕ} {boot : P} {s t : State n P} {a : Spec P}

omit [DecidableEq P] in
theorem Stands.up (h : Stands start s a) (hm : s.mode = .up) : ∃ c, Up start s a c := by
  rcases h with h | h
  · have hstage := h.stage
    rw [hm] at hstage
    exact hstage.elim
  · exact h

omit [DecidableEq P] in
theorem Stands.up_of_role {p : P} (h : Stands start s a) (hp : s.role p ≠ .idle) :
    ∃ c, Up start s a c :=
  h.resolve_left fun hdown => hp (hdown.log.2.2 p)

/-- Each step of the system is one or no step of the disk it stands for. -/
theorem Stands.step {e : Event n P} (h : Stands start s a) (hf : Follows start s e)
    (he : Log.step start boot s e = some t) :
    ∃ a', (a' = a ∨ ∃ act, Spec.step a act = some a') ∧ Stands start t a' := by
  cases e with
  | crash =>
    obtain rfl := Option.some.inj he
    exact ⟨_,.inr ⟨.crash,rfl⟩,.inl h.crash⟩
  | recover =>
    rcases h with h | ⟨c,h⟩
    · exact ⟨a,.inl rfl,h.recover he⟩
    · simp only [Log.step, h.mode] at he
      cases he
  | bio p e =>
    obtain ⟨⟨hmode,hu,_⟩,hrest⟩ := Option.ite_none_right_eq_some.mp he
    obtain ⟨bio,hb,rfl⟩ := Option.map_eq_some_iff.mp hrest
    obtain ⟨c,h⟩ := h.up hmode
    obtain ⟨a',ha,hup⟩ := h.bio_step hu hf hb
    refine ⟨a',ha.imp_right fun hk => ?_,.inr ⟨c,hup⟩⟩
    obtain ⟨k,v,hk⟩ := hk
    exact ⟨_,hk⟩
  | beginOp p =>
    obtain ⟨⟨hmode,hrole,hcom,_⟩,ht⟩ := Option.ite_none_right_eq_some.mp he
    obtain rfl := Option.some.inj ht
    obtain ⟨c,h⟩ := h.up hmode
    have hc : c = none := by
      rw [h.committing] at hcom
      cases c with
      | none => rfl
      | some x => cases hcom
    subst hc
    have hidle : a.active p = false := by
      rw [Bool.eq_false_iff]
      intro ha
      rw [(h.active p).mp ha] at hrole
      cases hrole
    refine ⟨_,.inr ⟨.begin p,if_pos hidle⟩,.inr ⟨none,h.setRole (fun phase e => ?_)
      (fun phase e => by cases e) ?_
      (fun e => absurd rfl e) rfl rfl rfl fun _ => .inl rfl⟩⟩
    · rw [hrole] at e
      cases e
    · rw [if_neg (by rw [hrole]; decide), if_pos rfl]
  | logWrite p b =>
    obtain ⟨⟨hmode,hrole,_,hroom,_⟩,ht⟩ := Option.ite_none_right_eq_some.mp he
    obtain ⟨c,h⟩ := h.up hmode
    split at ht
    · obtain rfl := Option.some.inj ht
      exact ⟨a,.inl rfl,.inr ⟨c,h⟩⟩
    · obtain ⟨bio,hb,rfl⟩ := Option.map_eq_some_iff.mp ht
      exact ⟨a,.inl rfl,.inr ⟨c,h.logWrite hrole hf hroom ‹_› hb⟩⟩
  | endOp p =>
    obtain ⟨⟨hmode,hrole,_⟩,ht⟩ := Option.ite_none_right_eq_some.mp he
    obtain ⟨c,h⟩ := h.up hmode
    obtain ⟨a',c',hspec,hup⟩ := h.endOp hrole hf
    refine ⟨a',.inr ⟨_,hspec⟩,.inr ⟨c',?_⟩⟩
    split at ht
    case isTrue hlast =>
      obtain rfl := Option.some.inj ht
      rwa [if_pos hlast] at hup
    case isFalse hlast =>
      obtain rfl := Option.some.inj ht
      rwa [if_neg hlast] at hup
  | commit p =>
    obtain ⟨phase,hr,hmode,ht⟩ := step_commit he
    obtain ⟨c,h⟩ := h.up hmode
    obtain rfl := (h.role p phase).mp hr
    obtain ⟨c',hup⟩ := h.commit_step ht
    refine ⟨_,?_,.inr ⟨c',hup⟩⟩
    by_cases hhead : phase = .writeHead
    · rw [if_pos hhead]
      exact .inr ⟨.commit,if_pos fun q => (h.inactive q).1⟩
    · rw [if_neg hhead]
      exact .inl rfl
  | sync p =>
    obtain ⟨⟨hmode,hrole⟩,ht⟩ := Option.ite_none_right_eq_some.mp he
    obtain ⟨c,h⟩ := h.up hmode
    split at ht
    · obtain rfl := Option.some.inj ht
      exact ⟨a,.inl rfl,.inr ⟨c,h.waits (by rw [hrole]; rfl) rfl⟩⟩
    · obtain rfl := Option.some.inj ht
      exact ⟨a,.inl rfl,.inr ⟨c,h⟩⟩
  | synced p =>
    obtain ⟨m,hr,⟨hmode,_⟩,rfl⟩ := step_synced he
    obtain ⟨c,h⟩ := h.up hmode
    exact ⟨a,.inl rfl,.inr ⟨c,h.waits (by rw [hr]; rfl) rfl⟩⟩

/-- A machine that is switched on with a disk. -/
def State.powerOn (disk : ℕ → ℕ → Block) : State n P where
  bio := ⟨binit fun _ => 0,disk,fun _ => .idle⟩
  outstanding := 0
  committing := false
  ncommit := 0
  lh := []
  role _ := .idle
  mode := .readHead

/-- The disk that the log stands for when the machine is switched on. -/
def Spec.powerOn (start : ℕ) (disk : ℕ → Block) : Spec P :=
  ⟨recovered start disk,recovered start disk,fun _ => false⟩

omit [DecidableEq P] in
theorem stands_powerOn (disk : ℕ → ℕ → Block) (hd : LogOk start (getHead (disk ROOTDEV start))) :
    Stands start (State.powerOn disk : State n P) (Spec.powerOn start (disk ROOTDEV)) := by
  refine .inl ⟨wf_binit _ _,⟨rfl,rfl,fun _ => rfl⟩,hd,fun _ => rfl,rfl,fun _ _ => rfl,
    fun d k hd => ?_,trivial⟩
  exact ((wf_binit _ _).view_iff hd).mpr (.inr ⟨rfl,fun _ _ _ => rfl⟩)

theorem Stands.run (h : Stands start s a) (hr : Runs (Log.step start boot) (Follows start) s t) :
    ∃ a', Reachable Spec.step a a' ∧ Stands start t a' := by
  induction hr with
  | refl => exact ⟨a,.refl a,h⟩
  | tail _ hg he ih =>
    obtain ⟨a1,hr1,h1⟩ := ih
    obtain ⟨a2,rfl | ⟨act,hact⟩,h2⟩ := h1.step hg he
    · exact ⟨a2,hr1,h2⟩
    · exact ⟨a2,.tail hr1 trivial hact,h2⟩

end Refinement

/-- Events that ask nothing of file system code. -/
def Event.plain {n : ℕ} {P : Type} : Event n P → Prop
  | .recover => True
  | .crash => True
  | .beginOp _ => True
  | _ => False

omit [DecidableEq P] [Fintype P] in
theorem Follows.of_plain {start : ℕ} {s : State n P} {e : Event n P} (h : e.plain) :
    Follows start s e := by
  cases e with
  | recover => trivial
  | crash => trivial
  | beginOp p => trivial
  | _ => exact h.elim

end CShellXv6.Log
