import CShellXv6.Library.LittleEndian
import CShellXv6.FileSystem.Buffers

/-! # The log

log.c over the buffer cache: transactions of any number of concurrent operations,
the commit, and recovery after a crash. The commit and recovery go on in steps
that make one write to the disk each, and the machine can crash between any two
steps. Calls that would sleep are not enabled.
-/
namespace CShellXv6.Log
open Bio Transition LittleEndian

/-- The contents of a disk block, byte by byte. -/
abbrev Block := ℕ → UInt8

def MAXOPBLOCKS : ℕ := 10

def LOGBLOCKS : ℕ := MAXOPBLOCKS * 3

def ROOTDEV : ℕ := 1

theorem rootdev_ne_zero : ROOTDEV ≠ 0 := Nat.one_ne_zero

/-- `struct logheader` stored in the header block: `n`, then the block numbers. -/
def putHead (lh : List ℕ) (x : Block) : Block := setAll (setLE x 0 4 lh.length) 4 4 lh

def getHead (x : Block) : List ℕ := getAll x 4 4 (getLE x 0 4)

theorem getHead_putHead {lh : List ℕ} {x : Block} (hn : lh.length < 256 ^ 4)
    (hk : ∀ k ∈ lh, k < 256 ^ 4) : getHead (putHead lh x) = lh := by
  have hlen : getLE (putHead lh x) 0 4 = lh.length := by
    rw [putHead, getLE_congr fun i _ hi => setAll_of_before (by omega), getLE_setLE_of_lt hn]
  rw [getHead, hlen, putHead, getAll_setAll hk]

variable {n : ℕ} {P : Type} [DecidableEq P]

section Transfers
variable (start : ℕ) (p : P) (lh : List ℕ)

/-- One round of the loop of write_log. -/
def writeLog (tail : ℕ) (s : Bio.State n P Block) : Option (Bio.State n P Block) := do
  let (dst,s) ← bread s p ROOTDEV (start + tail + 1)
  let (src,s) ← bread s p ROOTDEV (lh.getD tail 0)
  let s ← Bio.step s (.modify p dst (s.cache.buf src).data)
  let s ← Bio.step s (.bwrite p dst)
  let s ← brelse s p src
  brelse s p dst

/-- `if (recovering == 0) bunpin(b)` -/
def unpin (recovering : Bool) (b : Fin n) (s : Bio.State n P Block) :
    Option (Bio.State n P Block) :=
  if recovering then some s else Bio.step s (.bunpin p b)

/-- One round of the loop of install_trans. -/
def installTrans (recovering : Bool) (tail : ℕ) (s : Bio.State n P Block) :
    Option (Bio.State n P Block) := do
  let (lbuf,s) ← bread s p ROOTDEV (start + tail + 1)
  let (dbuf,s) ← bread s p ROOTDEV (lh.getD tail 0)
  let s ← Bio.step s (.modify p dbuf (s.cache.buf lbuf).data)
  let s ← Bio.step s (.bwrite p dbuf)
  let s ← unpin p recovering dbuf s
  let s ← brelse s p lbuf
  brelse s p dbuf

def writeHead (s : Bio.State n P Block) : Option (Bio.State n P Block) := do
  let (b,s) ← bread s p ROOTDEV start
  let s ← Bio.step s (.modify p b (putHead lh (s.cache.buf b).data))
  let s ← Bio.step s (.bwrite p b)
  brelse s p b

def readHead (s : Bio.State n P Block) : Option (List ℕ × Bio.State n P Block) := do
  let (b,s) ← bread s p ROOTDEV start
  let lh := getHead (s.cache.buf b).data
  let s ← brelse s p b
  some (lh,s)

end Transfers

/-- Where end_op is in commit. -/
inductive Phase
  | commit
  | writeLog (tail : ℕ)
  | writeHead
  | installTrans (tail : ℕ)
  | clear
  | done
  deriving DecidableEq

/-- What a process does with the log. -/
inductive Role
  | idle
  /-- Between begin_op and end_op. -/
  | op
  | commit (phase : Phase)
  /-- In sys_sync, until `ncommit` is at least this. -/
  | sync (ncommit : ℕ)
  deriving DecidableEq

/-- Where the kernel is: in recover_from_log, or up. -/
inductive Mode
  | readHead
  | installTrans (tail : ℕ)
  | clear
  | up
  deriving DecidableEq

structure State (n : ℕ) (P : Type) where
  bio : Bio.State n P Block
  outstanding : ℕ
  committing : Bool
  ncommit : ℕ
  lh : List ℕ
  role : P → Role
  mode : Mode

inductive Event (n : ℕ) (P : Type)
  /-- A step of the buffer cache made by file system code. -/
  | bio (p : P) (e : Bio.Event n P Block)
  | beginOp (p : P)
  | logWrite (p : P) (b : Fin n)
  | endOp (p : P)
  /-- The next step of commit. -/
  | commit (p : P)
  | sync (p : P)
  | synced (p : P)
  | crash
  /-- The next step of recovery. -/
  | recover

/-- Memory after a reset. -/
def State.reboot (s : State n P) : State n P where
  bio := ⟨binit fun _ => 0,s.bio.disk,fun _ => .idle⟩
  outstanding := 0
  committing := false
  ncommit := 0
  lh := []
  role _ := .idle
  mode := .readHead

def State.setRole (s : State n P) (p : P) (r : Role) : State n P :=
  { s with role := Function.update s.role p r }

/-- The events of the cache that file system code makes, with the process that makes them. -/
def IsUse (p : P) : Bio.Event n P Block → Prop
  | .bget q _ _ => q = p
  | .acquiresleep q => q = p
  | .bread q => q = p
  | .modify q _ _ => q = p
  | .releasesleep q _ => q = p
  | .brelse q => q = p
  | _ => False

instance (p : P) : (e : Bio.Event n P Block) → Decidable (IsUse p e)
  | .bget q _ _ => inferInstanceAs (Decidable (q = p))
  | .acquiresleep q => inferInstanceAs (Decidable (q = p))
  | .bread q => inferInstanceAs (Decidable (q = p))
  | .modify q _ _ => inferInstanceAs (Decidable (q = p))
  | .releasesleep q _ => inferInstanceAs (Decidable (q = p))
  | .brelse q => inferInstanceAs (Decidable (q = p))
  | .bwrite _ _ => isFalse id
  | .bpin _ _ => isFalse id
  | .bunpin _ _ => isFalse id

/-- The next step of commit, and the phase after it. -/
def commitStep (start : ℕ) (s : State n P) (p : P) : Phase → Option (State n P)
  | .commit => some (s.setRole p (.commit (if 0 < s.lh.length then .writeLog 0 else .done)))
  | .writeLog tail =>
    if tail < s.lh.length then
      (writeLog start p s.lh tail s.bio).map fun bio =>
        { s with bio := bio }.setRole p (.commit (.writeLog (tail + 1)))
    else some (s.setRole p (.commit .writeHead))
  | .writeHead =>
    (writeHead start p s.lh s.bio).map fun bio =>
      { s with bio := bio }.setRole p (.commit (.installTrans 0))
  | .installTrans tail =>
    if tail < s.lh.length then
      (installTrans start p s.lh false tail s.bio).map fun bio =>
        { s with bio := bio }.setRole p (.commit (.installTrans (tail + 1)))
    else some (s.setRole p (.commit .clear))
  | .clear =>
    (writeHead start p [] s.bio).map fun bio =>
      { s with bio := bio, lh := [] }.setRole p (.commit .done)
  | .done => some ({ s with committing := false, ncommit := s.ncommit + 1 }.setRole p .idle)

/-- The next step of recover_from_log, which the first process runs before any other. -/
def recoverStep (start : ℕ) (boot : P) (s : State n P) : Mode → Option (State n P)
  | .readHead => (readHead start boot s.bio).map fun x =>
      { s with bio := x.2, lh := x.1, mode := .installTrans 0 }
  | .installTrans tail =>
    if tail < s.lh.length then
      (installTrans start boot s.lh true tail s.bio).map fun bio =>
        { s with bio := bio, mode := .installTrans (tail + 1) }
    else some { s with mode := .clear }
  | .clear => (writeHead start boot [] s.bio).map fun bio =>
      { s with bio := bio, lh := [], mode := .up }
  | .up => none

/-- A panic ends the run, like a call that has to wait. -/
def step (start : ℕ) (boot : P) (s : State n P) : Event n P → Option (State n P)
  | .bio p e =>
    if s.mode = .up ∧ IsUse p e ∧ (s.role p = .idle ∨ s.role p = .op) then
      (Bio.step s.bio e).map fun bio => { s with bio := bio }
    else none
  | .beginOp p =>
    if s.mode = .up ∧ s.role p = .idle ∧ s.committing = false ∧
        s.lh.length + (s.outstanding + 1) * MAXOPBLOCKS ≤ LOGBLOCKS then
      some ({ s with outstanding := s.outstanding + 1 }.setRole p .op)
    else none
  | .logWrite p b =>
    if s.mode = .up ∧ s.role p = .op ∧ s.bio.Holds p b ∧ s.lh.length < LOGBLOCKS ∧
        0 < s.outstanding then
      if (s.bio.cache.buf b).blockno ∈ s.lh then some s
      else (Bio.step s.bio (.bpin p b)).map fun bio =>
        { s with bio := bio, lh := s.lh ++ [(s.bio.cache.buf b).blockno] }
    else none
  | .endOp p =>
    if s.mode = .up ∧ s.role p = .op ∧ s.committing = false then
      if s.outstanding - 1 = 0 then
        some ({ s with outstanding := 0, committing := true }.setRole p (.commit .commit))
      else some ({ s with outstanding := s.outstanding - 1 }.setRole p .idle)
    else none
  | .commit p =>
    match s.role p with
    | .commit phase => if s.mode = .up then commitStep start s p phase else none
    | _ => none
  | .sync p =>
    if s.mode = .up ∧ s.role p = .idle then
      if s.committing = true ∨ 0 < s.outstanding then some (s.setRole p (.sync (s.ncommit + 1)))
      else some s
    else none
  | .synced p =>
    match s.role p with
    | .sync m => if s.mode = .up ∧ m ≤ s.ncommit then some (s.setRole p .idle) else none
    | _ => none
  | .crash => some s.reboot
  | .recover => recoverStep start boot s s.mode

section Steps
variable {start : ℕ} {boot p : P} {s t : State n P}

theorem step_commit (h : step start boot s (.commit p) = some t) : ∃ phase,
    s.role p = .commit phase ∧ s.mode = .up ∧ commitStep start s p phase = some t := by
  simp only [step] at h
  split at h
  case h_1 phase hr =>
    obtain ⟨hmode,ht⟩ := Option.ite_none_right_eq_some.mp h
    exact ⟨phase,hr,hmode,ht⟩
  case h_2 => cases h

theorem step_synced (h : step start boot s (.synced p) = some t) : ∃ m,
    s.role p = .sync m ∧ (s.mode = .up ∧ m ≤ s.ncommit) ∧ s.setRole p .idle = t := by
  simp only [step] at h
  split at h
  case h_1 m hr =>
    obtain ⟨hm,ht⟩ := Option.ite_none_right_eq_some.mp h
    exact ⟨m,hr,hm,Option.some.inj ht⟩
  case h_2 => cases h

end Steps

section Uses
variable [Fintype P] {p : P} {s t : Bio.State n P Block} {pins : Fin n → ℕ}

omit [DecidableEq P] [Fintype P] in
/-- A change of one buffer that keeps its block and its lock. -/
theorem keeps_modify {b c : Fin n} {f : Buf P Block → Buf P Block}
    (hf : ∀ x, (f x).dev = x.dev ∧ (f x).blockno = x.blockno) :
    ((s.cache.modify b f).buf c).dev = (s.cache.buf c).dev ∧
    ((s.cache.modify b f).buf c).blockno = (s.cache.buf c).blockno :=
  ⟨Bcache.modify_field (·.dev) (hf _).1 c,Bcache.modify_field (·.blockno) (hf _).2 c⟩

/-- What a step of file system code leaves alone: the disk, the blocks of the buffers in use, and
all locks but the one it may give up. -/
theorem use_keeps {e : Bio.Event n P Block} (h : Wf s pins) (hu : IsUse p e)
    (he : Bio.step s e = some t) :
    t.disk = s.disk ∧ (∀ b, 0 < (s.cache.buf b).refcnt →
      (t.cache.buf b).dev = (s.cache.buf b).dev ∧
      (t.cache.buf b).blockno = (s.cache.buf b).blockno) ∧
    ∀ b q, (s.cache.buf b).lock = some q → e ≠ .releasesleep p b →
      (t.cache.buf b).lock = some q := by
  cases e with
  | bget r dev blockno =>
    obtain ⟨_,b,⟨_,rfl⟩ | ⟨_,hun,rfl⟩⟩ := step_bget he
    · exact ⟨rfl,fun c _ => keeps_modify fun _ => ⟨rfl,rfl⟩,
        fun c q hl _ => (Bcache.modify_field (·.lock) rfl c).trans hl⟩
    · refine ⟨rfl,fun c hc => ?_,fun c q hl _ => (Bcache.modify_field (·.lock) rfl c).trans hl⟩
      have hcb : c ≠ b := by
        rintro rfl
        obtain ⟨hlock,huse,hpin⟩ := h.unused_some hun
        rw [h.refs c, huse, hpin, Buf.held, hlock] at hc
        exact Nat.lt_irrefl 0 hc
      rw [show ((s.modify b (Buf.recycle dev blockno)).setTask r (.locking b)).cache.buf c =
        s.cache.buf c from Bcache.modify_of_ne hcb]
      exact ⟨rfl,rfl⟩
  | acquiresleep r =>
    obtain ⟨b,_,hlock,rfl⟩ := step_acquiresleep he
    refine ⟨rfl,fun c _ => keeps_modify fun _ => ⟨rfl,rfl⟩,fun c q hl _ => ?_⟩
    have hcb : c ≠ b := by
      rintro rfl
      exact absurd (hlock.symm.trans hl) (Option.some_ne_none q).symm
    exact (congrArg Buf.lock (Bcache.modify_of_ne hcb)).trans hl
  | bread r =>
    obtain ⟨b,_,rfl⟩ := step_bread he
    have hf := Buf.fill_fields (P := P) s.disk
    exact ⟨rfl,fun c _ => keeps_modify fun x => ⟨(hf x).1,(hf x).2.1⟩,
      fun c q hl _ => (Bcache.modify_field (·.lock) (hf _).2.2.1 c).trans hl⟩
  | modify r b v =>
    obtain ⟨_,ht⟩ := Option.ite_none_right_eq_some.mp he
    obtain rfl := Option.some.inj ht
    exact ⟨rfl,fun c _ => keeps_modify fun _ => ⟨rfl,rfl⟩,
      fun c q hl _ => (Bcache.modify_field (·.lock) rfl c).trans hl⟩
  | releasesleep r b =>
    obtain ⟨_,ht⟩ := Option.ite_none_right_eq_some.mp he
    obtain rfl := Option.some.inj ht
    refine ⟨rfl,fun c _ => keeps_modify fun _ => ⟨rfl,rfl⟩,fun c q hl hne => ?_⟩
    have hcb : c ≠ b := by
      rintro rfl
      exact hne (by rw [show r = p from hu])
    exact (congrArg Buf.lock (Bcache.modify_of_ne hcb)).trans hl
  | brelse r =>
    obtain ⟨b,_,links,rfl,_⟩ := step_brelse he
    exact ⟨rfl,fun c _ => keeps_modify fun _ => ⟨rfl,rfl⟩,
      fun c q hl _ => (Bcache.modify_field (·.lock) rfl c).trans hl⟩
  | bwrite r b => exact hu.elim
  | bpin r b => exact hu.elim
  | bunpin r b => exact hu.elim

end Uses

section Specs
variable [Fintype P] {start tail : ℕ} {p : P} {lh : List ℕ} {s t : Bio.State n P Block}
  {pins pins' : Fin n → ℕ}

/-- The disk, and what is seen of it, after a write of one block. -/
structure Transfer (s t : Bio.State n P Block) (pins pins' : Fin n → ℕ) (p : P) (k : ℕ)
    (v : Block) :
    Prop where
  wf : Wf t pins'
  disk : t.disk = fun d j => if d = ROOTDEV ∧ j = k then v else s.disk d j
  view : ∀ d j, d ≠ 0 → t.view d j = if d = ROOTDEV ∧ j = k then v else s.view d j
  apart : Apart s t pins p

theorem writeHead_transfer (h : Wf s pins) (hs : writeHead start p lh s = some t) :
    Transfer s t pins pins p start (putHead lh (s.view ROOTDEV start)) := by
  simp only [writeHead, Option.bind_eq_bind, Option.bind_eq_some_iff] at hs
  obtain ⟨⟨b,s1⟩,h1,s2,h2,s3,h3,h4⟩ := hs
  dsimp only at h2 h3 h4
  have g := bread_got h rootdev_ne_zero h1
  have w := write_wrote g.wf h2 h3
  have hb := g.holds
  have hclean : (s3.cache.buf b).data = s3.disk (s3.cache.buf b).dev (s3.cache.buf b).blockno := by
    rw [w.stored, w.disk, w.dev, w.blockno]
    exact (if_pos ⟨rfl,rfl⟩).symm
  have r := brelse_gave w.wf (.inl hclean) h4
  constructor
  · exact r.wf
  · rw [r.disk, w.disk, g.onDev, g.onBlock, g.data_eq rootdev_ne_zero, g.disk]
  · intro d j hd
    rw [r.view d j hd, w.view d j hd, g.onDev, g.onBlock, g.data_eq rootdev_ne_zero, g.view d j hd]
  · exact (g.apart.trans (w.apart hb.1)).trans (r.apart (w.holds b hb).1 _)

theorem readHead_spec (h : Wf s pins) (hclean : s.view ROOTDEV start = s.disk ROOTDEV start)
    (hs : readHead start p s = some (lh,t)) : lh = getHead (s.disk ROOTDEV start) ∧ Wf t pins ∧
    t.disk = s.disk ∧ (∀ d j, d ≠ 0 → t.view d j = s.view d j) ∧ Apart s t pins p := by
  simp only [readHead, Option.bind_eq_bind, Option.bind_eq_some_iff] at hs
  obtain ⟨⟨b,s1⟩,h1,s2,h2,heq⟩ := hs
  dsimp only at h2 heq
  obtain ⟨rfl,rfl⟩ := Prod.mk.injEq .. ▸ Option.some.inj heq
  have g := bread_got h rootdev_ne_zero h1
  have hdata := g.data_eq rootdev_ne_zero
  have r := brelse_gave g.wf (.inl (by rw [hdata, g.onDev, g.onBlock, g.disk]; exact hclean)) h2
  refine ⟨by rw [hdata, hclean],r.wf,r.disk.trans g.disk,?_,g.apart.trans (r.apart g.holds.1 _)⟩
  exact fun d j hd => (r.view d j hd).trans (g.view d j hd)

theorem writeLog_transfer (h : Wf s pins)
    (hpin : ∃ b, (s.cache.buf b).dev = ROOTDEV ∧ (s.cache.buf b).blockno = lh.getD tail 0 ∧
      0 < pins b) (hs : writeLog start p lh tail s = some t) :
    Transfer s t pins pins p (start + tail + 1) (s.view ROOTDEV (lh.getD tail 0)) := by
  simp only [writeLog, Option.bind_eq_bind, Option.bind_eq_some_iff] at hs
  obtain ⟨⟨dst,s1⟩,h1,⟨src,s2⟩,h2,s3,h3,s4,h4,s5,h5,h6⟩ := hs
  dsimp only at h2 h3 h4 h5 h6
  have g1 := bread_got h rootdev_ne_zero h1
  have g2 := bread_got g1.wf rootdev_ne_zero h2
  obtain ⟨hds,hhold,hsame⟩ := g1.second g2
  have w := write_wrote g2.wf h3 h4
  have hv : (s2.cache.buf src).data = s.view ROOTDEV (lh.getD tail 0) :=
    (g2.data_eq rootdev_ne_zero).trans (g1.view _ _ rootdev_ne_zero)
  -- the block to be logged is pinned, so that its buffer may be released unwritten
  have hsrc : 0 < pins src := by
    obtain ⟨b,hd,hk,hb⟩ := hpin
    obtain ⟨e1,e2⟩ := (g1.apart.trans g2.apart).pinned b hb
    have hbs : b = src := g2.wf.unique b src (by rw [e1, hd]; exact rootdev_ne_zero)
      (e1.trans (hd.trans g2.onDev.symm)) (e2.trans (hk.trans g2.onBlock.symm))
    exact hbs ▸ hb
  have r1 := brelse_gave w.wf (.inr hsrc) h5
  have hdst : s5.cache.buf dst = s4.cache.buf dst := r1.spares.others dst hds
  have hkey : (s2.cache.buf dst).dev = ROOTDEV ∧ (s2.cache.buf dst).blockno = start + tail + 1 := by
    rw [hsame]
    exact ⟨g1.onDev,g1.onBlock⟩
  have hclean : (s5.cache.buf dst).data =
      s5.disk (s5.cache.buf dst).dev (s5.cache.buf dst).blockno := by
    rw [hdst, r1.disk, w.stored, w.disk, w.dev, w.blockno]
    exact (if_pos ⟨rfl,rfl⟩).symm
  have r2 := brelse_gave r1.wf (.inl hclean) h6
  constructor
  · exact r2.wf
  · rw [r2.disk, r1.disk, w.disk, hkey.1, hkey.2, hv, g2.disk, g1.disk]
  · intro d j hd
    rw [r2.view d j hd, r1.view d j hd, w.view d j hd, hkey.1, hkey.2, hv, g2.view d j hd,
      g1.view d j hd]
  · have hl1 : (s4.cache.buf src).lock = some p := (w.holds src g2.holds).1
    have hl2 : (s5.cache.buf dst).lock = some p := by
      rw [hdst]
      exact (w.holds dst hhold).1
    exact (((g1.apart.trans g2.apart).trans (w.apart hhold.1)).trans (r1.apart hl1 _)).trans
      (r2.apart hl2 _)

omit [DecidableEq P] [Fintype P] in
theorem apart_modify {b : Fin n} {f : Buf P Block → Buf P Block}
    (hf : ∀ x, (f x).dev = x.dev ∧ (f x).blockno = x.blockno)
    (hb : (s.cache.buf b).lock = some p) : Apart s (s.modify b f) pins p := by
  constructor
  · intro c q hq hl
    apply Bcache.modify_of_ne
    rintro rfl
    exact hq (Option.some.inj (hl.symm.trans hb))
  · exact fun c _ => ⟨Bcache.modify_field (·.dev) (hf _).1 c,
      Bcache.modify_field (·.blockno) (hf _).2 c⟩

/-- The bunpin of install_trans, which recovery leaves out. -/
theorem unpin_spec {recovering : Bool} {b : Fin n} (h : Wf s pins) (hb : s.Holds p b)
    (hpin : recovering = false → 0 < pins b)
    (hs : unpin p recovering b s = some t) :
    Wf t (if recovering then pins else Function.update pins b (pins b - 1)) ∧ t.disk = s.disk ∧
    (∀ d j, d ≠ 0 → t.view d j = s.view d j) ∧ Apart s t pins p ∧ (∀ c, s.Holds p c → t.Holds p c) ∧
    ∀ c, (t.cache.buf c).data = (s.cache.buf c).data ∧ (t.cache.buf c).dev = (s.cache.buf c).dev ∧
      (t.cache.buf c).blockno = (s.cache.buf c).blockno := by
  cases recovering with
  | true =>
    obtain rfl := Option.some.inj hs
    exact ⟨h,rfl,fun _ _ _ => rfl,⟨fun _ _ _ _ => rfl,fun _ _ => ⟨rfl,rfl⟩⟩,fun _ hc => hc,
      fun _ => ⟨rfl,rfl,rfl⟩⟩
  | false =>
    have hstep : Bio.step s (.bunpin p b) = some t := hs
    have hview := h.view_step hstep (hpin rfl)
    have hwf := h.bunpin (hpin rfl) hstep
    obtain ⟨_,ht⟩ := Option.ite_none_right_eq_some.mp hstep
    obtain rfl := Option.some.inj ht
    refine ⟨hwf,rfl,hview,apart_modify (fun _ => ⟨rfl,rfl⟩) hb.1,?_,fun c => ⟨?_,?_,?_⟩⟩
    · exact fun c hc => ⟨(Bcache.modify_field (·.lock) rfl c).trans hc.1,hc.2⟩
    · exact Bcache.modify_field (·.data) rfl c
    · exact Bcache.modify_field (·.dev) rfl c
    · exact Bcache.modify_field (·.blockno) rfl c

theorem installTrans_transfer {recovering : Bool} (h : Wf s pins)
    (hlog : s.view ROOTDEV (start + tail + 1) = s.disk ROOTDEV (start + tail + 1))
    (hpin : recovering = false → ∃ b, (s.cache.buf b).dev = ROOTDEV ∧
      (s.cache.buf b).blockno = lh.getD tail 0 ∧ 0 < pins b)
    (hs : installTrans start p lh recovering tail s = some t) :
    ∃ b, (recovering = false → 0 < pins b ∧ (s.cache.buf b).dev = ROOTDEV ∧
        (s.cache.buf b).blockno = lh.getD tail 0) ∧
      Transfer s t pins (if recovering then pins else Function.update pins b (pins b - 1)) p
        (lh.getD tail 0) (s.disk ROOTDEV (start + tail + 1)) := by
  simp only [installTrans, Option.bind_eq_bind, Option.bind_eq_some_iff] at hs
  obtain ⟨⟨lbuf,s1⟩,h1,⟨dbuf,s2⟩,h2,s3,h3,s4,h4,s5,h5,s6,h6,h7⟩ := hs
  dsimp only at h2 h3 h4 h5 h6 h7
  have g1 := bread_got h rootdev_ne_zero h1
  have g2 := bread_got g1.wf rootdev_ne_zero h2
  obtain ⟨hdl,hhold,hsame⟩ := g1.second g2
  have hv : (s2.cache.buf lbuf).data = s.disk ROOTDEV (start + tail + 1) := by
    rw [hsame, g1.data_eq rootdev_ne_zero, hlog]
  have w := write_wrote g2.wf h3 h4
  have hdpin : recovering = false → 0 < pins dbuf ∧ (s.cache.buf dbuf).dev = ROOTDEV ∧
      (s.cache.buf dbuf).blockno = lh.getD tail 0 := by
    intro hr
    obtain ⟨b,hd,hk,hb⟩ := hpin hr
    obtain ⟨e1,e2⟩ := (g1.apart.trans g2.apart).pinned b hb
    obtain rfl := g2.wf.unique b dbuf (by rw [e1, hd]; exact rootdev_ne_zero)
      (e1.trans (hd.trans g2.onDev.symm)) (e2.trans (hk.trans g2.onBlock.symm))
    exact ⟨hb,hd,hk⟩
  obtain ⟨hwf5,hdisk5,hview5,hap5,hh5,hf5⟩ :=
    unpin_spec w.wf (w.holds dbuf g2.holds) (fun hr => (hdpin hr).1) h5
  -- the log block was read and not changed, the other is on the disk
  have hclean1 : (s5.cache.buf lbuf).data =
      s5.disk (s5.cache.buf lbuf).dev (s5.cache.buf lbuf).blockno := by
    obtain ⟨f1,f2,f3⟩ := hf5 lbuf
    rw [f1, f2, f3, hdisk5, w.others lbuf hdl, hv, w.disk, hsame, g1.onDev, g1.onBlock]
    dsimp only
    split
    · rw [g1.data_eq rootdev_ne_zero, hlog]
    · rw [g2.disk, g1.disk]
  have r1 := brelse_gave hwf5 (.inl hclean1) h6
  have hd6 : s6.cache.buf dbuf = s5.cache.buf dbuf := r1.spares.others dbuf hdl.symm
  have hclean2 : (s6.cache.buf dbuf).data =
      s6.disk (s6.cache.buf dbuf).dev (s6.cache.buf dbuf).blockno := by
    obtain ⟨f1,f2,f3⟩ := hf5 dbuf
    rw [hd6, f1, f2, f3, r1.disk, hdisk5, w.stored, w.disk, w.dev, w.blockno]
    exact (if_pos ⟨rfl,rfl⟩).symm
  have r2 := brelse_gave r1.wf (.inl hclean2) h7
  refine ⟨dbuf,hdpin,r2.wf,?_,?_,?_⟩
  · rw [r2.disk, r1.disk, hdisk5, w.disk, g2.onDev, g2.onBlock, hv, g2.disk, g1.disk]
  · intro d j hd
    rw [r2.view d j hd, r1.view d j hd, hview5 d j hd, w.view d j hd, g2.onDev, g2.onBlock, hv,
      g2.view d j hd, g1.view d j hd]
  · have hl1 := (hh5 lbuf (w.holds lbuf hhold)).1
    have hl2 : (s6.cache.buf dbuf).lock = some p := by
      rw [hd6]
      exact (hh5 dbuf (w.holds dbuf g2.holds)).1
    exact ((((g1.apart.trans g2.apart).trans (w.apart g2.holds.1)).trans hap5).trans
      (r1.apart hl1 _)).trans (r2.apart hl2 _)

end Specs

end CShellXv6.Log
