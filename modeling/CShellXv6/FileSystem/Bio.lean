import Mathlib.Algebra.BigOperators.Group.Finset.Piecewise
import Mathlib.Data.Fintype.Card
import CShellXv6.Library.Ring
import CShellXv6.Library.Transition

/-! # The buffer cache

The buffers of bio.c with their reference counts, their sleep locks and the list
through `prev` and `next`, the disk behind them, and any number of processes that
call bget, bread, bwrite, brelse, bpin and bunpin. A step is what a process does
under `bcache.lock`, under the lock inside a sleep lock, or in one disk transfer.
-/
namespace CShellXv6.Bio
open Ring Transition

def NBUF : ℕ := 30

/-- `struct buf`, with the holder of its sleep lock; its pointers are in `Bcache`. -/
structure Buf (P β : Type) where
  valid : Bool
  dev : ℕ
  blockno : ℕ
  lock : Option P
  refcnt : ℕ
  data : β

/-- `b->refcnt++` -/
def Buf.ref {P β : Type} (x : Buf P β) : Buf P β := { x with refcnt := x.refcnt + 1 }

/-- `b->refcnt--` -/
def Buf.unref {P β : Type} (x : Buf P β) : Buf P β := { x with refcnt := x.refcnt - 1 }

/-- A buffer that bget takes for another block. -/
def Buf.recycle {P β : Type} (dev blockno : ℕ) (x : Buf P β) : Buf P β :=
  { x with dev := dev, blockno := blockno, valid := false, refcnt := 1 }

/-- The lock of the buffer is taken. -/
def Buf.take {P β : Type} (p : P) (x : Buf P β) : Buf P β := { x with lock := some p }

/-- The lock of the buffer is given up. -/
def Buf.free {P β : Type} (x : Buf P β) : Buf P β := { x with lock := none }

def Buf.store {P β : Type} (v : β) (x : Buf P β) : Buf P β := { x with data := v }

/-- `virtio_disk_rw(b, 0)` and `b->valid = 1`, when the buffer is not valid. -/
def Buf.fill {P β : Type} (disk : ℕ → ℕ → β) (x : Buf P β) : Buf P β :=
  if x.valid then x else { x with data := disk x.dev x.blockno, valid := true }

structure Bcache (n : ℕ) (P β : Type) where
  buf : Fin n → Buf P β
  links : Links (Fin n)

variable {n : ℕ} {P β : Type}

def binit (zero : β) : Bcache n P β where
  buf _ := ⟨false,0,0,none,0,zero⟩
  links := (List.finRange n).foldl Links.pushFront closed

namespace Bcache

def modify (c : Bcache n P β) (b : Fin n) (f : Buf P β → Buf P β) : Bcache n P β :=
  { c with buf := Function.update c.buf b (f (c.buf b)) }

/-- The first loop of bget. -/
def lookup (c : Bcache n P β) (dev blockno : ℕ) : Option (Fin n) :=
  seek c.links.next (fun b => (c.buf b).dev == dev && (c.buf b).blockno == blockno)
    (c.links.next none) n

/-- The second loop of bget. -/
def unused (c : Bcache n P β) : Option (Fin n) :=
  seek c.links.prev (fun b => (c.buf b).refcnt == 0) (c.links.prev none) n

/-- What bget does under `bcache.lock`; it panics when no buffer is left. -/
def bget (c : Bcache n P β) (dev blockno : ℕ) : Option (Fin n × Bcache n P β) :=
  match c.lookup dev blockno with
  | some b => some (b,c.modify b Buf.ref)
  | none =>
    match c.unused with
    | some b => some (b,c.modify b (Buf.recycle dev blockno))
    | none => none

/-- The second half of brelse, under `bcache.lock`. -/
def drop (c : Bcache n P β) (b : Fin n) : Bcache n P β :=
  let c := c.modify b Buf.unref
  if (c.buf b).refcnt = 0 then { c with links := (c.links.unlink b).pushFront b } else c

end Bcache

theorem Buf.fill_fields (disk : ℕ → ℕ → β) (x : Buf P β) : (x.fill disk).dev = x.dev ∧
    (x.fill disk).blockno = x.blockno ∧ (x.fill disk).lock = x.lock ∧
    (x.fill disk).refcnt = x.refcnt ∧ (x.fill disk).valid = true := by
  unfold Buf.fill
  by_cases hx : x.valid = true
  · simp [hx]
  · simp [hx]

section Fields
variable {c : Bcache n P β} {b : Fin n} {f : Buf P β → Buf P β}

theorem Bcache.modify_self : (c.modify b f).buf b = f (c.buf b) := Function.update_self ..

theorem Bcache.modify_of_ne {x : Fin n} (hx : x ≠ b) : (c.modify b f).buf x = c.buf x :=
  Function.update_of_ne hx ..

/-- A field that the change of one buffer leaves alone. -/
theorem Bcache.modify_field {γ : Type} (g : Buf P β → γ) (hg : g (f (c.buf b)) = g (c.buf b))
    (x : Fin n) : g ((c.modify b f).buf x) = g (c.buf x) := by
  by_cases hx : x = b
  · subst x
    rw [Bcache.modify_self, hg]
  · rw [Bcache.modify_of_ne hx]

end Fields

/-- Where a process is in a call. Between calls it may hold any number of buffers. -/
inductive Task (n : ℕ)
  | idle
  /-- In acquiresleep, called by bget. -/
  | locking (b : Fin n)
  /-- In bread, after bget. -/
  | reading (b : Fin n)
  /-- In brelse, after releasesleep. -/
  | dropping (b : Fin n)
  deriving DecidableEq

structure State (n : ℕ) (P β : Type) where
  cache : Bcache n P β
  disk : ℕ → ℕ → β
  task : P → Task n

inductive Event (n : ℕ) (P β : Type)
  | bget (p : P) (dev blockno : ℕ)
  | acquiresleep (p : P)
  | bread (p : P)
  | modify (p : P) (b : Fin n) (v : β)
  | bwrite (p : P) (b : Fin n)
  | releasesleep (p : P) (b : Fin n)
  | brelse (p : P)
  | bpin (p : P) (b : Fin n)
  | bunpin (p : P) (b : Fin n)

section System
variable [DecidableEq P]

namespace State

def setTask (s : State n P β) (p : P) (t : Task n) : State n P β :=
  { s with task := Function.update s.task p t }

def modify (s : State n P β) (b : Fin n) (f : Buf P β → Buf P β) : State n P β :=
  { s with cache := s.cache.modify b f }

/-- `virtio_disk_rw(b, 1)`. -/
def write (s : State n P β) (b : Fin n) : State n P β :=
  let x := s.cache.buf b
  { s with disk := fun d k => if d = x.dev ∧ k = x.blockno then x.data else s.disk d k }

/-- The process holds the buffer between two calls. -/
def Holds (s : State n P β) (p : P) (b : Fin n) : Prop :=
  (s.cache.buf b).lock = some p ∧ s.task p = .idle

instance (s : State n P β) (p : P) (b : Fin n) : Decidable (s.Holds p b) :=
  inferInstanceAs (Decidable (_ ∧ _))

end State

/-- The sleep locks are taken when they are free; the checks of bwrite and brelse and the use of
the data need the lock. -/
def step (s : State n P β) : Event n P β → Option (State n P β)
  | .bget p dev blockno =>
    if s.task p = .idle then
      (s.cache.bget dev blockno).map fun x => { s with cache := x.2 }.setTask p (.locking x.1)
    else none
  | .acquiresleep p =>
    match s.task p with
    | .locking b =>
      if (s.cache.buf b).lock = none then
        some ((s.modify b (Buf.take p)).setTask p (.reading b))
      else none
    | _ => none
  | .bread p =>
    match s.task p with
    | .reading b => some ((s.modify b (Buf.fill s.disk)).setTask p .idle)
    | _ => none
  | .modify p b v =>
    if s.Holds p b then some (s.modify b (Buf.store v)) else none
  | .bwrite p b => if s.Holds p b then some (s.write b) else none
  | .releasesleep p b =>
    if s.Holds p b then some ((s.modify b Buf.free).setTask p (.dropping b)) else none
  | .brelse p =>
    match s.task p with
    | .dropping b => some ({ s with cache := s.cache.drop b }.setTask p .idle)
    | _ => none
  | .bpin p b =>
    if s.Holds p b then some (s.modify b Buf.ref) else none
  | .bunpin p b =>
    if s.Holds p b then some (s.modify b Buf.unref) else none

section Steps
variable {s t : State n P β} {p : P} {b : Fin n}

theorem step_bget {dev blockno : ℕ} (he : step s (.bget p dev blockno) = some t) :
    s.task p = .idle ∧ ∃ b, (s.cache.lookup dev blockno = some b ∧
        t = (s.modify b Buf.ref).setTask p (.locking b)) ∨
      (s.cache.lookup dev blockno = none ∧ s.cache.unused = some b ∧
        t = (s.modify b (Buf.recycle dev blockno)).setTask p (.locking b)) := by
  simp only [step] at he
  split at he
  case isFalse => cases he
  case isTrue hp =>
    obtain ⟨x,hx,rfl⟩ := Option.map_eq_some_iff.mp he
    simp only [Bcache.bget] at hx
    cases hlook : s.cache.lookup dev blockno with
    | some b =>
      rw [hlook] at hx
      cases hx
      exact ⟨hp,b,.inl ⟨rfl,rfl⟩⟩
    | none =>
      rw [hlook] at hx
      cases hun : s.cache.unused with
      | none =>
        rw [hun] at hx
        cases hx
      | some b =>
        rw [hun] at hx
        cases hx
        exact ⟨hp,b,.inr ⟨rfl,rfl,rfl⟩⟩

theorem step_acquiresleep (he : step s (.acquiresleep p) = some t) :
    ∃ b, s.task p = .locking b ∧ (s.cache.buf b).lock = none ∧
      t = (s.modify b (Buf.take p)).setTask p (.reading b) := by
  simp only [step] at he
  cases hp : s.task p with
  | locking b =>
    rw [hp] at he
    obtain ⟨hlock,ht⟩ := Option.ite_none_right_eq_some.mp he
    cases ht
    exact ⟨b,rfl,hlock,rfl⟩
  | idle => rw [hp] at he; cases he
  | reading b => rw [hp] at he; cases he
  | dropping b => rw [hp] at he; cases he

theorem step_bread (he : step s (.bread p) = some t) :
    ∃ b, s.task p = .reading b ∧ t = (s.modify b (Buf.fill s.disk)).setTask p .idle := by
  simp only [step] at he
  cases hp : s.task p with
  | reading b =>
    rw [hp] at he
    cases he
    exact ⟨b,rfl,rfl⟩
  | idle => rw [hp] at he; cases he
  | locking b => rw [hp] at he; cases he
  | dropping b => rw [hp] at he; cases he

/-- brelse moves the buffer to the front of the list when nobody uses it any more. -/
theorem step_brelse (he : step s (.brelse p) = some t) :
    ∃ b, s.task p = .dropping b ∧ ∃ links, t = { (s.modify b Buf.unref).setTask p .idle with
        cache := { s.cache.modify b Buf.unref with links := links } } ∧
      (((s.cache.buf b).refcnt - 1 = 0 ∧ links = (s.cache.links.unlink b).pushFront b) ∨
        ((s.cache.buf b).refcnt - 1 ≠ 0 ∧ links = s.cache.links)) := by
  simp only [step] at he
  cases hp : s.task p with
  | dropping b =>
    rw [hp] at he
    cases he
    have hcount : ((s.cache.modify b Buf.unref).buf b).refcnt = (s.cache.buf b).refcnt - 1 := by
      rw [Bcache.modify_self]
      rfl
    by_cases hzero : (s.cache.buf b).refcnt - 1 = 0
    · refine ⟨b,rfl,_,?_,.inl ⟨hzero,rfl⟩⟩
      rw [Bcache.drop, hcount, if_pos hzero]
      rfl
    · refine ⟨b,rfl,_,?_,.inr ⟨hzero,rfl⟩⟩
      rw [Bcache.drop, hcount, if_neg hzero]
      rfl
  | idle => rw [hp] at he; cases he
  | locking b => rw [hp] at he; cases he
  | reading b => rw [hp] at he; cases he

end Steps

end System

section Invariant
variable [Fintype P]

/-- The references to a buffer that are not its lock: the process waits for the lock, or has
given it up. -/
def Task.at : Task n → Fin n → ℕ
  | .locking b, c => if b = c then 1 else 0
  | .dropping b, c => if b = c then 1 else 0
  | _, _ => 0

def users (task : P → Task n) (b : Fin n) : ℕ := ∑ p, (task p).at b

theorem users_update [DecidableEq P] (task : P → Task n) (p : P) (t : Task n) (b : Fin n) :
    users (Function.update task p t) b + (task p).at b = users task b + t.at b := by
  have hfun : (fun q => (Function.update task p t q).at b)
      = Function.update (fun q => (task q).at b) p (t.at b) := by
    funext q
    by_cases hq : q = p
    · subst q
      rw [Function.update_self, Function.update_self]
    · rw [Function.update_of_ne hq, Function.update_of_ne hq]
  rw [users, hfun, Finset.sum_update_of_mem (Finset.mem_univ p), users,
    ← Finset.add_sum_erase _ _ (Finset.mem_univ p), Finset.sdiff_singleton_eq_erase]
  omega

/-- The reference a lock holder has. -/
def Buf.held (x : Buf P β) : ℕ := if x.lock.isSome then 1 else 0

/-- What holds of the cache at any time. `pins` counts the calls of bpin that no bunpin has undone
yet. Device 0 is the one no buffer stands for: all start with it. -/
structure Wf (s : State n P β) (pins : Fin n → ℕ) : Prop where
  ring : ∃ l, Spells s.cache.links l ∧ ∀ b, b ∈ l
  unique : ∀ b c, (s.cache.buf b).dev ≠ 0 → (s.cache.buf b).dev = (s.cache.buf c).dev →
    (s.cache.buf b).blockno = (s.cache.buf c).blockno → b = c
  device : ∀ b, (s.cache.buf b).dev = 0 → (s.cache.buf b).refcnt = 0 ∧ (s.cache.buf b).valid = false
  refs : ∀ b, (s.cache.buf b).refcnt = (s.cache.buf b).held + users s.task b + pins b
  reading : ∀ p b, s.task p = .reading b → (s.cache.buf b).lock = some p
  ready : ∀ p b, (s.cache.buf b).lock = some p →
    (s.cache.buf b).valid = true ∨ s.task p = .reading b
  settled : ∀ b, (s.cache.buf b).valid = true →
    (s.cache.buf b).data = s.disk (s.cache.buf b).dev (s.cache.buf b).blockno ∨
    (s.cache.buf b).lock ≠ none ∨ 0 < pins b

variable {s t : State n P β} {pins : Fin n → ℕ} {p : P} {b : Fin n}

theorem Wf.spelled (h : Wf s pins) :
    ∃ l, Spells s.cache.links l ∧ (∀ b, b ∈ l) ∧ l.length ≤ n := by
  obtain ⟨l,hl,hall⟩ := h.ring
  exact ⟨l,hl,hall,by simpa using List.Nodup.length_le_card hl.nodup⟩

theorem Wf.lookup_iff (h : Wf s pins) {dev blockno : ℕ} (hd : dev ≠ 0) :
    s.cache.lookup dev blockno = some b ↔
      (s.cache.buf b).dev = dev ∧ (s.cache.buf b).blockno = blockno := by
  obtain ⟨l,hl,hall,hlen⟩ := h.spelled
  rw [Bcache.lookup, hl.between.seek_next _ hlen]
  constructor
  · intro hfind
    simpa using List.find?_some hfind
  · rintro ⟨rfl,rfl⟩
    cases hfind : l.find? (fun x => (s.cache.buf x).dev == (s.cache.buf b).dev &&
        (s.cache.buf x).blockno == (s.cache.buf b).blockno) with
    | none => simpa using List.find?_eq_none.mp hfind b (hall b)
    | some c =>
      have hc := List.find?_some hfind
      simp only [Bool.and_eq_true, beq_iff_eq] at hc
      rw [h.unique b c hd hc.1.symm hc.2.symm]

theorem Wf.lookup_none (h : Wf s pins) {dev blockno : ℕ} (hn : s.cache.lookup dev blockno = none)
    (b : Fin n) : ¬ ((s.cache.buf b).dev = dev ∧ (s.cache.buf b).blockno = blockno) := by
  obtain ⟨l,hl,hall,hlen⟩ := h.spelled
  rw [Bcache.lookup, hl.between.seek_next _ hlen] at hn
  simpa using List.find?_eq_none.mp hn b (hall b)

theorem Wf.unused_some (h : Wf s pins) (hb : s.cache.unused = some b) :
    (s.cache.buf b).lock = none ∧ users s.task b = 0 ∧ pins b = 0 := by
  obtain ⟨l,hl,_,hlen⟩ := h.spelled
  rw [Bcache.unused, hl.between.seek_prev _ hlen] at hb
  have hzero : (s.cache.buf b).refcnt = 0 := by simpa using List.find?_some hb
  have hrefs := h.refs b
  have hheld : (s.cache.buf b).held = 0 := by omega
  have hlock : (s.cache.buf b).lock = none := by simpa [Buf.held] using hheld
  exact ⟨hlock,by omega,by omega⟩

/-- A locked buffer is one that a call has asked for. -/
theorem Wf.dev_of_lock (h : Wf s pins) (hl : (s.cache.buf b).lock = some p) :
    (s.cache.buf b).dev ≠ 0 := by
  intro hd
  have hheld : (s.cache.buf b).held = 1 := by simp [Buf.held, hl]
  have hrefs := h.refs b
  have hzero := (h.device b hd).1
  omega

/-- A process that is not in bread can use the data of the buffers it has locked. -/
theorem Wf.valid_of_holds (h : Wf s pins) (hh : s.Holds p b) : (s.cache.buf b).valid = true := by
  rcases h.ready p b hh.1 with hv | hr
  · exact hv
  · rw [hh.2] at hr
    cases hr

/-- No other buffer has the place of this one. -/
theorem Wf.unique_of_ne (h : Wf s pins) (hd : (s.cache.buf b).dev ≠ 0) (c : Fin n) (hc : c ≠ b)
    (hdev : (s.cache.buf b).dev = (s.cache.buf c).dev) :
    (s.cache.buf b).blockno ≠ (s.cache.buf c).blockno :=
  fun hno => hc (h.unique b c hd hdev hno).symm

theorem Wf.relink (h : Wf s pins) (b : Fin n) :
    Wf { s with cache := { s.cache with links := (s.cache.links.unlink b).pushFront b } } pins := by
  refine ⟨?_,h.unique,h.device,h.refs,h.reading,h.ready,h.settled⟩
  obtain ⟨l,hl,hall⟩ := h.ring
  obtain ⟨k,m,rfl⟩ := List.append_of_mem (hall b)
  have hnot : b ∉ k ++ m := (List.nodup_cons.mp (List.nodup_middle.mp hl.nodup)).1
  refine ⟨b :: (k ++ m),hl.unlink.pushFront hnot,fun c => ?_⟩
  simpa [or_left_comm] using hall c

variable [DecidableEq P]

/-- So is one that a process waits for. -/
theorem Wf.dev_of_users (h : Wf s pins) (hp : 0 < (s.task p).at b) : (s.cache.buf b).dev ≠ 0 := by
  intro hd
  have hidle := users_update s.task p .idle b
  have hzero : (Task.idle : Task n).at b = 0 := rfl
  have hrefs := h.refs b
  have hcount := (h.device b hd).1
  omega

theorem users_idle {task : P → Task n} {p : P} {t : Task n} (hp : task p = .idle) (b : Fin n) :
    users (Function.update task p t) b = users task b + t.at b := by
  have h := users_update task p t b
  rw [hp] at h
  exact h

/-- One buffer changes from `x` to `y`, and the task of one process. -/
theorem Wf.touch (h : Wf s pins) {f : Buf P β → Buf P β} {tk : Task n} {pins' : Fin n → ℕ}
    (hkey : ∀ c, c ≠ b → (f (s.cache.buf b)).dev = (s.cache.buf c).dev →
      (f (s.cache.buf b)).blockno ≠ (s.cache.buf c).blockno)
    (hdev : (f (s.cache.buf b)).dev ≠ 0)
    (hrefs : (f (s.cache.buf b)).refcnt =
      (f (s.cache.buf b)).held + users (Function.update s.task p tk) b + pins' b)
    (hothers : ∀ c, c ≠ b → tk.at c = (s.task p).at c ∧ pins' c = pins c)
    (hlocks : ∀ q, q ≠ p → ((f (s.cache.buf b)).lock = some q ↔ (s.cache.buf b).lock = some q))
    (hreading : ∀ c, tk = .reading c → c = b ∧ (f (s.cache.buf b)).lock = some p)
    (hread : ∀ c, s.task p = .reading c → c = b)
    (hmine : (f (s.cache.buf b)).lock = some p →
      (f (s.cache.buf b)).valid = true ∨ tk = .reading b)
    (hvalid : (s.cache.buf b).valid = true →
      (f (s.cache.buf b)).valid = true ∨ (f (s.cache.buf b)).lock = none)
    (hsettled : (f (s.cache.buf b)).valid = true → (f (s.cache.buf b)).data =
        s.disk (f (s.cache.buf b)).dev (f (s.cache.buf b)).blockno ∨
      (f (s.cache.buf b)).lock ≠ none ∨ 0 < pins' b) :
    Wf ((s.modify b f).setTask p tk) pins' := by
  generalize hy : f (s.cache.buf b) = y at *
  generalize ht : (s.modify b f).setTask p tk = t
  have hbuf : t.cache.buf = Function.update s.cache.buf b y := by rw [← ht, ← hy]; rfl
  have htask : t.task = Function.update s.task p tk := by rw [← ht]; rfl
  have hlinks : t.cache.links = s.cache.links := by rw [← ht]; rfl
  have hdisk : t.disk = s.disk := by rw [← ht]; rfl
  have hself : t.cache.buf b = y := by rw [hbuf, Function.update_self]
  have hne : ∀ c, c ≠ b → t.cache.buf c = s.cache.buf c := by
    intro c hc
    rw [hbuf, Function.update_of_ne hc]
  have hown : t.task p = tk := by rw [htask, Function.update_self]
  have hnp : ∀ q, q ≠ p → t.task q = s.task q := by
    intro q hq
    rw [htask, Function.update_of_ne hq]
  constructor
  case ring => rw [hlinks]; exact h.ring
  case unique =>
    intro c d hc hcd hno
    by_cases hcb : c = b
    · by_cases hdb : d = b
      · rw [hcb, hdb]
      · rw [hcb, hself, hne d hdb] at hcd hno
        exact absurd hno (hkey d hdb hcd)
    · rw [hne c hcb] at hc hcd hno
      by_cases hdb : d = b
      · rw [hdb, hself] at hcd hno
        exact absurd hno.symm (hkey c hcb hcd.symm)
      · rw [hne d hdb] at hcd hno
        exact h.unique c d hc hcd hno
  case device =>
    intro c hc
    by_cases hcb : c = b
    · rw [hcb, hself] at hc
      exact absurd hc hdev
    · rw [hne c hcb] at hc ⊢
      exact h.device c hc
  case refs =>
    intro c
    by_cases hcb : c = b
    · rw [hcb, hself, htask]
      exact hrefs
    · obtain ⟨hat,hpin⟩ := hothers c hcb
      have hu := users_update s.task p tk c
      rw [hne c hcb, htask, hpin, h.refs c]
      omega
  case reading =>
    intro q c hq
    by_cases hqp : q = p
    · rw [hqp, hown] at hq
      obtain ⟨rfl,hl⟩ := hreading c hq
      rw [hself, hqp]
      exact hl
    · rw [hnp q hqp] at hq
      have hl := h.reading q c hq
      by_cases hcb : c = b
      · rw [hcb] at hl ⊢
        rw [hself]
        exact (hlocks q hqp).mpr hl
      · rw [hne c hcb]
        exact hl
  case ready =>
    intro q c hl
    by_cases hcb : c = b
    · rw [hcb, hself] at hl ⊢
      by_cases hqp : q = p
      · rw [hqp] at hl ⊢
        rw [hown]
        exact hmine hl
      · rw [hnp q hqp]
        rcases h.ready q b ((hlocks q hqp).mp hl) with hv | hr
        · rcases hvalid hv with hv' | hnone
          · exact .inl hv'
          · rw [hnone] at hl
            cases hl
        · exact .inr hr
    · rw [hne c hcb] at hl ⊢
      rcases h.ready q c hl with hv | hr
      · exact .inl hv
      · by_cases hqp : q = p
        · rw [hqp] at hr
          exact absurd (hread c hr) hcb
        · rw [hnp q hqp]
          exact .inr hr
  case settled =>
    intro c hv
    rw [hdisk]
    by_cases hcb : c = b
    · rw [hcb, hself] at hv ⊢
      exact hsettled hv
    · rw [hne c hcb] at hv ⊢
      rw [(hothers c hcb).2]
      exact h.settled c hv

/-- A process between two calls changes a buffer it holds in something else than its place, its
lock and its validity. -/
theorem Wf.use (h : Wf s pins) (hh : s.Holds p b) {f : Buf P β → Buf P β} {pins' : Fin n → ℕ}
    (hdev : ∀ x, (f x).dev = x.dev) (hno : ∀ x, (f x).blockno = x.blockno)
    (hlock : ∀ x, (f x).lock = x.lock) (hvalid : ∀ x, (f x).valid = x.valid)
    (hrefs : (f (s.cache.buf b)).refcnt + pins b = (s.cache.buf b).refcnt + pins' b)
    (hothers : ∀ c, c ≠ b → pins' c = pins c) : Wf (s.modify b f) pins' := by
  have hd := h.dev_of_lock hh.1
  have hheld : (f (s.cache.buf b)).held = (s.cache.buf b).held := by rw [Buf.held, hlock, Buf.held]
  have hold := h.refs b
  have hsame : s.modify b f = (s.modify b f).setTask p (s.task p) := by
    rw [State.setTask, show (s.modify b f).task = s.task from rfl, Function.update_eq_self]
    rfl
  rw [hsame]
  apply h.touch
  case hkey =>
    rw [hdev, hno]
    exact h.unique_of_ne hd
  case hdev => rwa [hdev]
  case hrefs =>
    rw [hheld]
    rw [Function.update_eq_self]
    omega
  case hothers => exact fun c hc => ⟨rfl,hothers c hc⟩
  case hlocks => exact fun q _ => by rw [hlock]
  case hreading =>
    intro c hc
    rw [hh.2] at hc
    cases hc
  case hread =>
    intro c hc
    rw [hh.2] at hc
    cases hc
  case hmine => exact fun _ => .inl ((hvalid _).trans (h.valid_of_holds hh))
  case hvalid => exact fun hv => .inl ((hvalid _).trans hv)
  case hsettled =>
    intro _
    rw [hlock, hh.1]
    exact .inr (.inl (Option.some_ne_none p))

theorem Wf.bget (h : Wf s pins) {dev blockno : ℕ} (hd : dev ≠ 0)
    (he : step s (.bget p dev blockno) = some t) : Wf t pins := by
  obtain ⟨hp,b,hcase⟩ := step_bget he
  have hreading : ∀ c, s.task p ≠ .reading c := by
    intro c hc
    rw [hp] at hc
    cases hc
  have hat : ∀ c : Fin n, c ≠ b → (Task.locking b).at c = (s.task p).at c := by
    intro c hc
    rw [hp]
    exact if_neg hc.symm
  have hu := users_idle hp b (t := .locking b)
  rw [Task.at, if_pos rfl] at hu
  have hold := h.refs b
  rcases hcase with ⟨hlook,rfl⟩ | ⟨hlook,hun,rfl⟩
  · have hkey := (h.lookup_iff hd).mp hlook
    have hdb : (s.cache.buf b).dev ≠ 0 := fun h0 => hd (hkey.1 ▸ h0)
    apply h.touch
    case hkey => exact h.unique_of_ne hdb
    case hdev => exact hdb
    case hrefs =>
      change _ + 1 = (s.cache.buf b).held + _ + _
      omega
    case hothers => exact fun c hc => ⟨hat c hc,rfl⟩
    case hlocks => exact fun q _ => Iff.rfl
    case hreading =>
      intro c hc
      cases hc
    case hread => exact fun c hc => absurd hc (hreading c)
    case hmine => exact fun hl => .inl ((h.ready p b hl).resolve_right (hreading b))
    case hvalid => exact fun hv => .inl hv
    case hsettled => exact h.settled b
  · obtain ⟨hlock,huse,hpin⟩ := h.unused_some hun
    apply h.touch
    case hkey =>
      intro c _ hcd hcn
      exact h.lookup_none hlook c ⟨hcd.symm,hcn.symm⟩
    case hdev => exact hd
    case hrefs =>
      change 1 = (s.cache.buf b).held + _ + _
      rw [Buf.held, hlock, hu, huse, hpin]
      rfl
    case hothers => exact fun c hc => ⟨hat c hc,rfl⟩
    case hlocks => exact fun q _ => Iff.rfl
    case hreading =>
      intro c hc
      cases hc
    case hread => exact fun c hc => absurd hc (hreading c)
    case hmine =>
      intro hl
      exact absurd (hlock.symm.trans hl) (Option.some_ne_none p).symm
    case hvalid => exact fun _ => .inr hlock
    case hsettled =>
      intro hv
      cases hv

theorem Wf.acquiresleep (h : Wf s pins) (he : step s (.acquiresleep p) = some t) : Wf t pins := by
  obtain ⟨b,hp,hlock,rfl⟩ := step_acquiresleep he
  have hu := users_update s.task p (.reading b) b
  have hone : (s.task p).at b = 1 := by rw [hp]; exact if_pos rfl
  have hzero : (Task.reading b).at b = 0 := rfl
  have hold := h.refs b
  have hdb := h.dev_of_users (Nat.lt_of_lt_of_eq Nat.one_pos hone.symm)
  apply h.touch
  case hkey => exact h.unique_of_ne hdb
  case hdev => exact hdb
  case hrefs =>
    have hheld : (s.cache.buf b).held = 0 := by rw [Buf.held, hlock]; rfl
    change (s.cache.buf b).refcnt = 1 + _ + _
    omega
  case hothers =>
    intro c hc
    rw [hp]
    exact ⟨(if_neg hc.symm).symm,rfl⟩
  case hlocks =>
    intro q hq
    rw [hlock]
    exact ⟨fun e => absurd (Option.some.inj e).symm hq,
      fun e => absurd e (Option.some_ne_none q).symm⟩
  case hreading =>
    intro c hc
    exact ⟨(Task.reading.inj hc).symm,rfl⟩
  case hread =>
    intro c hc
    rw [hp] at hc
    cases hc
  case hmine => exact fun _ => .inr rfl
  case hvalid => exact fun hv => .inl hv
  case hsettled => exact fun _ => .inr (.inl (Option.some_ne_none p))

theorem Wf.bread (h : Wf s pins) (he : step s (.bread p) = some t) : Wf t pins := by
  obtain ⟨b,hp,rfl⟩ := step_bread he
  have hlock := h.reading p b hp
  have hdb := h.dev_of_lock hlock
  have hu := users_update s.task p .idle b
  rw [hp, show (Task.reading b).at b = 0 from rfl, show (Task.idle : Task n).at b = 0 from rfl]
    at hu
  have hold := h.refs b
  obtain ⟨h1,h2,h3,h4,h5⟩ := Buf.fill_fields s.disk (s.cache.buf b)
  apply h.touch
  case hkey =>
    rw [h1, h2]
    exact h.unique_of_ne hdb
  case hdev => rwa [h1]
  case hrefs =>
    rw [Buf.held, h3, h4, ← Buf.held]
    omega
  case hothers =>
    intro c _
    rw [hp]
    exact ⟨rfl,rfl⟩
  case hlocks => exact fun q _ => by rw [h3]
  case hreading =>
    intro c hc
    cases hc
  case hread =>
    intro c hc
    rw [hp] at hc
    exact (Task.reading.inj hc).symm
  case hmine => exact fun _ => .inl h5
  case hvalid => exact fun _ => .inl h5
  case hsettled =>
    intro _
    rw [h3, hlock]
    exact .inr (.inl (Option.some_ne_none p))

theorem Wf.modify (h : Wf s pins) {v : β} (he : step s (.modify p b v) = some t) : Wf t pins := by
  obtain ⟨hh,ht⟩ := Option.ite_none_right_eq_some.mp he
  cases ht
  exact h.use (f := Buf.store v) hh (fun _ => rfl) (fun _ => rfl) (fun _ => rfl) (fun _ => rfl) rfl
    (fun _ _ => rfl)

theorem Wf.bpin (h : Wf s pins) (he : step s (.bpin p b) = some t) :
    Wf t (Function.update pins b (pins b + 1)) := by
  obtain ⟨hh,ht⟩ := Option.ite_none_right_eq_some.mp he
  cases ht
  apply h.use (f := Buf.ref) hh (fun _ => rfl) (fun _ => rfl) (fun _ => rfl) (fun _ => rfl)
  · rw [Function.update_self]
    change _ + 1 + _ = _
    omega
  · exact fun c hc => Function.update_of_ne hc ..

theorem Wf.bunpin (h : Wf s pins) (hpin : 0 < pins b) (he : step s (.bunpin p b) = some t) :
    Wf t (Function.update pins b (pins b - 1)) := by
  obtain ⟨hh,ht⟩ := Option.ite_none_right_eq_some.mp he
  cases ht
  have hold := h.refs b
  apply h.use (f := Buf.unref) hh (fun _ => rfl) (fun _ => rfl) (fun _ => rfl) (fun _ => rfl)
  · rw [Function.update_self]
    change _ - 1 + _ = _
    omega
  · exact fun c hc => Function.update_of_ne hc ..

theorem Wf.releasesleep (h : Wf s pins) (he : step s (.releasesleep p b) = some t)
    (hclean : (s.cache.buf b).data = s.disk (s.cache.buf b).dev (s.cache.buf b).blockno ∨
      0 < pins b) : Wf t pins := by
  obtain ⟨hh,ht⟩ := Option.ite_none_right_eq_some.mp he
  cases ht
  have hdb := h.dev_of_lock hh.1
  have hu := users_idle hh.2 b (t := .dropping b)
  rw [Task.at, if_pos rfl] at hu
  have hold := h.refs b
  apply h.touch
  case hkey => exact h.unique_of_ne hdb
  case hdev => exact hdb
  case hrefs =>
    have hheld : (s.cache.buf b).held = 1 := by rw [Buf.held, hh.1]; rfl
    change (s.cache.buf b).refcnt = 0 + _ + _
    omega
  case hothers =>
    intro c hc
    rw [hh.2]
    exact ⟨if_neg hc.symm,rfl⟩
  case hlocks =>
    intro q hq
    rw [hh.1]
    exact ⟨fun e => absurd e (Option.some_ne_none q).symm,
      fun e => absurd (Option.some.inj e).symm hq⟩
  case hreading =>
    intro c hc
    cases hc
  case hread =>
    intro c hc
    rw [hh.2] at hc
    cases hc
  case hmine =>
    intro e
    cases e
  case hvalid => exact fun _ => .inr rfl
  case hsettled =>
    intro _
    rcases hclean with hd | hp
    · exact .inl hd
    · exact .inr (.inr hp)

theorem Wf.bwrite (h : Wf s pins) (he : step s (.bwrite p b) = some t) : Wf t pins := by
  obtain ⟨hh,ht⟩ := Option.ite_none_right_eq_some.mp he
  cases ht
  refine ⟨h.ring,h.unique,h.device,h.refs,h.reading,h.ready,?_⟩
  intro c hv
  by_cases hkey : (s.cache.buf c).dev = (s.cache.buf b).dev ∧
      (s.cache.buf c).blockno = (s.cache.buf b).blockno
  · obtain rfl := h.unique b c (h.dev_of_lock hh.1) hkey.1.symm hkey.2.symm
    exact .inl (if_pos hkey).symm
  · rcases h.settled c hv with hd | hrest
    · exact .inl (hd.trans (if_neg hkey).symm)
    · exact .inr hrest

theorem Wf.brelse (h : Wf s pins) (he : step s (.brelse p) = some t) : Wf t pins := by
  obtain ⟨b,hp,links,rfl,hlinks⟩ := step_brelse he
  have hu := users_update s.task p .idle b
  have hone : (s.task p).at b = 1 := by rw [hp]; exact if_pos rfl
  have hzero : (Task.idle : Task n).at b = 0 := rfl
  have hold := h.refs b
  have hdb := h.dev_of_users (Nat.lt_of_lt_of_eq Nat.one_pos hone.symm)
  have hnoread : ∀ c, s.task p ≠ .reading c := by
    intro c hc
    rw [hp] at hc
    cases hc
  have hun : Wf ((s.modify b Buf.unref).setTask p .idle) pins := by
    apply h.touch
    case hkey => exact h.unique_of_ne hdb
    case hdev => exact hdb
    case hrefs =>
      change (s.cache.buf b).refcnt - 1 = (s.cache.buf b).held + _ + _
      omega
    case hothers =>
      intro c hc
      rw [hp]
      exact ⟨(if_neg hc.symm).symm,rfl⟩
    case hlocks => exact fun q _ => Iff.rfl
    case hreading =>
      intro c hc
      cases hc
    case hread => exact fun c hc => absurd hc (hnoread c)
    case hmine => exact fun hl => .inl ((h.ready p b hl).resolve_right (hnoread b))
    case hvalid => exact fun hv => .inl hv
    case hsettled => exact h.settled b
  rcases hlinks with ⟨_,rfl⟩ | ⟨_,rfl⟩
  · exact hun.relink b
  · exact hun

/-- How the callers use the cache: blocks are of a device, a change is written or pinned before the
lock is given up, and a pin is undone once. -/
def Allowed (s : State n P β) (pins : Fin n → ℕ) : Event n P β → Prop
  | .bget _ dev _ => dev ≠ 0
  | .releasesleep _ b =>
    (s.cache.buf b).data = s.disk (s.cache.buf b).dev (s.cache.buf b).blockno ∨ 0 < pins b
  | .bunpin _ b => 0 < pins b
  | _ => True

def pinned (pins : Fin n → ℕ) : Event n P β → Fin n → ℕ
  | .bpin _ b => Function.update pins b (pins b + 1)
  | .bunpin _ b => Function.update pins b (pins b - 1)
  | _ => pins

theorem Wf.step {e : Event n P β} (h : Wf s pins) (ha : Allowed s pins e)
    (he : step s e = some t) : Wf t (pinned pins e) := by
  cases e with
  | bget p dev blockno => exact h.bget ha he
  | acquiresleep p => exact h.acquiresleep he
  | bread p => exact h.bread he
  | modify p b v => exact h.modify he
  | bwrite p b => exact h.bwrite he
  | releasesleep p b => exact h.releasesleep he ha
  | brelse p => exact h.brelse he
  | bpin p b => exact h.bpin he
  | bunpin p b => exact h.bunpin ha he

omit [DecidableEq P] in
/-- The cache after binit, over any disk. -/
theorem wf_binit (zero : β) (disk : ℕ → ℕ → β) :
    Wf (⟨binit zero,disk,fun _ => .idle⟩ : State n P β) (fun _ => 0) := by
  refine ⟨⟨(List.finRange n).reverse,?_,?_⟩,?_,?_,?_,?_,?_,?_⟩
  · have h := spells_closed.foldl_pushFront (k := List.finRange n)
      (by simpa using List.nodup_finRange n)
    rwa [List.append_nil] at h
  · simp
  · exact fun b c hd => absurd rfl hd
  · exact fun b _ => ⟨rfl,rfl⟩
  · intro b
    simp [binit, Buf.held, users, Task.at]
  · intro p b hp
    cases hp
  · intro p b hl
    cases hl
  · intro b hv
    cases hv

end Invariant

end CShellXv6.Bio
