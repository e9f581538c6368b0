import Mathlib.Algebra.GroupWithZero.Nat
import Mathlib.Data.Int.Notation
import Mathlib.Data.List.Basic
import CShellXv6.Library.Monitor

/-! # Pipes

The ring of a pipe, with its two counters of 32 bits that wrap around, and the
processes that write to it, read from it and close its ends. The part of
pipewrite or piperead between two sleeps runs under `pi->lock` and is one section.
-/
namespace CShellXv6.Pipes
open Monitor Transition

def PIPESIZE : ℕ := 512

structure Pipe where
  data : Fin PIPESIZE → UInt8
  nread : UInt32
  nwrite : UInt32
  readopen : Bool
  writeopen : Bool

/-- The channels `&pi->nread` and `&pi->nwrite`. -/
inductive Chan
  | nread
  | nwrite
  deriving DecidableEq

/-- Where a process is: in pipewrite with `i` bytes written and `todo` left, in piperead of `n`
bytes, after a call with what it returned, or elsewhere. -/
inductive Loc
  | out
  | write (i todo : ℕ)
  | read (n : ℕ)
  | wrote (r : ℤ)
  | got (n : ℕ) (r : ℤ) (bytes : List UInt8)
  deriving DecidableEq

/-- What killed, copyin and copyout answer for the `i`-th byte of a call. -/
structure Env where
  killed : ℕ → Bool
  copyin : ℕ → Option UInt8
  copyout : ℕ → Bool

def cell (k : UInt32) : Fin PIPESIZE := ⟨k.toNat % PIPESIZE,Nat.mod_lt _ (by decide)⟩

/-- The pipe of pipealloc. -/
def pipealloc (data : Fin PIPESIZE → UInt8) : Pipe := ⟨data,0,0,true,true⟩

def Pipe.put (pi : Pipe) (ch : UInt8) : Pipe :=
  { pi with data := Function.update pi.data (cell pi.nwrite) ch, nwrite := pi.nwrite + 1 }

def Pipe.take (pi : Pipe) : Pipe := { pi with nread := pi.nread + 1 }

/-- The loop of pipewrite, up to its end or to the next sleep. -/
def pipewrite (env : Env) (i : ℕ) : ℕ → Pipe → Outcome Pipe Loc Chan
  | 0, pi => ⟨pi,.wrote i,[.nread],none⟩
  | todo + 1, pi =>
    if pi.readopen = false ∨ env.killed i = true then ⟨pi,.wrote (-1),[],none⟩
    else if pi.nwrite = pi.nread + 512 then ⟨pi,.write i (todo + 1),[.nread],some .nwrite⟩
    else
      match env.copyin i with
      | none => ⟨pi,.wrote (if i = 0 then -1 else i),[.nread],none⟩
      | some ch => pipewrite env (i + 1) todo (pi.put ch)

/-- The copying loop of piperead: the pipe, the result, and the bytes that reached the caller. -/
def copyLoop (env : Env) (i : ℕ) : ℕ → Pipe → Pipe × ℤ × List UInt8
  | 0, pi => (pi,i,[])
  | todo + 1, pi =>
    if pi.nread = pi.nwrite then (pi,i,[])
    else if env.copyout i = true then
      let x := copyLoop env (i + 1) todo pi.take
      (x.1,x.2.1,pi.data (cell pi.nread) :: x.2.2)
    else (pi,if i = 0 then -1 else i,[])

def piperead (env : Env) (n : ℕ) (pi : Pipe) : Outcome Pipe Loc Chan :=
  if pi.nread = pi.nwrite ∧ pi.writeopen = true then
    if env.killed 0 = true then ⟨pi,.got n (-1) [],[],none⟩ else ⟨pi,.read n,[],some .nread⟩
  else
    let x := copyLoop env 0 n pi
    ⟨x.1,.got n x.2.1 x.2.2,[.nwrite],none⟩

def pipeclose (writable : Bool) (pi : Pipe) : Outcome Pipe Loc Chan :=
  if writable = true then ⟨{ pi with writeopen := false },.out,[.nread],none⟩
  else ⟨{ pi with readopen := false },.out,[.nwrite],none⟩

/-- A call begins, or the section of a call runs. -/
inductive Input
  | write (n : ℤ)
  | read (n : ℤ)
  | close (writable : Bool)
  | go (env : Env)

def sections {P : Type} (_ : P) (l : Loc) (e : Input) (pi : Pipe) :
    Option (Outcome Pipe Loc Chan) :=
  match l, e with
  | .write i todo, .go env => some (pipewrite env i todo pi)
  | .read n, .go env => some (piperead env n pi)
  | .write _ _, _ => none
  | .read _, _ => none
  | _, .write n => some ⟨pi,.write 0 n.toNat,[],none⟩
  | _, .read n => some ⟨pi,.read n.toNat,[],none⟩
  | _, .close writable => some (pipeclose writable pi)
  | _, .go _ => none

section Ring
variable {pi : Pipe} {ch : UInt8}

def Pipe.count (pi : Pipe) : ℕ := (pi.nwrite - pi.nread).toNat

/-- The bytes that are written and not read. -/
def Pipe.inFlight (pi : Pipe) : List UInt8 :=
  (List.range pi.count).map fun k => pi.data (cell (pi.nread + UInt32.ofNat k))

theorem Pipe.length_inFlight (pi : Pipe) : pi.inFlight.length = pi.count := by
  rw [Pipe.inFlight, List.length_map, List.length_range]

theorem Pipe.inFlight_eq_nil (h : pi.count = 0) : pi.inFlight = [] := by
  rw [Pipe.inFlight, h]
  rfl

theorem Pipe.count_eq (pi : Pipe) :
    pi.count = (2 ^ 32 - pi.nread.toNat + pi.nwrite.toNat) % 2 ^ 32 := UInt32.toNat_sub ..

theorem Pipe.full_iff (pi : Pipe) : pi.nwrite = pi.nread + 512 ↔ pi.count = PIPESIZE := by
  have hr := pi.nread.toNat_lt
  have hw := pi.nwrite.toNat_lt
  rw [← UInt32.toNat_inj, UInt32.toNat_add, pi.count_eq, PIPESIZE]
  change pi.nwrite.toNat = (pi.nread.toNat + 512) % 2 ^ 32 ↔ _
  omega

theorem Pipe.empty_iff (pi : Pipe) : pi.nread = pi.nwrite ↔ pi.count = 0 := by
  have hr := pi.nread.toNat_lt
  have hw := pi.nwrite.toNat_lt
  rw [← UInt32.toNat_inj, pi.count_eq]
  omega

theorem Pipe.count_put (h : pi.count < PIPESIZE) : (pi.put ch).count = pi.count + 1 := by
  have hr := pi.nread.toNat_lt
  have hw := pi.nwrite.toNat_lt
  rw [pi.count_eq, PIPESIZE] at h
  simp only [Pipe.count_eq, Pipe.put, UInt32.toNat_add, UInt32.toNat_one]
  omega

theorem Pipe.count_take (h : pi.nread ≠ pi.nwrite) : pi.count = pi.take.count + 1 := by
  have hr := pi.nread.toNat_lt
  have hw := pi.nwrite.toNat_lt
  rw [ne_eq, pi.empty_iff, pi.count_eq] at h
  simp only [Pipe.count_eq, Pipe.take, UInt32.toNat_add, UInt32.toNat_one]
  omega

theorem toNat_offset (a : UInt32) (k : ℕ) :
    (a + UInt32.ofNat k).toNat = (a.toNat + k) % 2 ^ 32 := by
  rw [UInt32.toNat_add, UInt32.toNat_ofNat', Nat.add_mod_mod]

/-- The cells of fewer than PIPESIZE bytes are distinct, also where the counters wrap around. -/
theorem Pipe.cell_ne {k : ℕ} (hk : k < pi.count) (h : pi.count < PIPESIZE) :
    cell (pi.nread + UInt32.ofNat k) ≠ cell pi.nwrite := by
  have hr := pi.nread.toNat_lt
  have hw := pi.nwrite.toNat_lt
  intro heq
  have hval := congrArg Fin.val heq
  simp only [cell, toNat_offset, PIPESIZE] at hval
  rw [PIPESIZE] at h
  rw [pi.count_eq] at hk h
  omega

theorem Pipe.inFlight_put (h : pi.count < PIPESIZE) :
    (pi.put ch).inFlight = pi.inFlight ++ [ch] := by
  have hlast : pi.nread + UInt32.ofNat pi.count = pi.nwrite := by
    rw [← UInt32.toNat_inj, toNat_offset, pi.count_eq]
    have hr := pi.nread.toNat_lt
    have hw := pi.nwrite.toNat_lt
    omega
  rw [Pipe.inFlight, Pipe.count_put h, List.range_succ, List.map_append, Pipe.inFlight]
  congr 1
  · apply List.map_congr_left
    intro k hk
    exact Function.update_of_ne (Pipe.cell_ne (List.mem_range.mp hk) h) ..
  · have hcell : (pi.put ch).data (cell ((pi.put ch).nread + UInt32.ofNat pi.count)) = ch := by
      change Function.update pi.data (cell pi.nwrite) ch
        (cell (pi.nread + UInt32.ofNat pi.count)) = ch
      rw [hlast, Function.update_self]
    rw [List.map_singleton, hcell]

theorem Pipe.inFlight_take (h : pi.nread ≠ pi.nwrite) :
    pi.inFlight = pi.data (cell pi.nread) :: pi.take.inFlight := by
  rw [Pipe.inFlight, Pipe.count_take h, List.range_succ_eq_map, List.map_cons, List.map_map,
    Pipe.inFlight]
  congr 1
  · rw [show UInt32.ofNat 0 = 0 from rfl, UInt32.add_zero]
  · apply List.map_congr_left
    intro k _
    have hshift : pi.nread + UInt32.ofNat (k + 1) = pi.nread + 1 + UInt32.ofNat k := by
      rw [← UInt32.toNat_inj, toNat_offset, toNat_offset, UInt32.toNat_add, UInt32.toNat_one]
      omega
    change pi.data (cell (pi.nread + UInt32.ofNat (k + 1))) = _
    rw [hshift]
    rfl

end Ring

section Sections
variable {env : Env} {i todo n : ℕ} {pi : Pipe} {o : Outcome Pipe Loc Chan}

/-- The bytes that copyin gave from the `i`-th on. -/
def Env.bytes (env : Env) (i k : ℕ) : List UInt8 :=
  (List.range' i k).map fun j => (env.copyin j).getD 0

/-- The pipe after `k` more bytes. -/
structure Stored (env : Env) (i k : ℕ) (pi pi' : Pipe) : Prop where
  nread : pi'.nread = pi.nread
  nwrite : (pi'.nwrite - pi.nwrite).toNat = k
  open_ : pi'.readopen = pi.readopen ∧ pi'.writeopen = pi.writeopen
  count : pi'.count = pi.count + k
  bound : pi'.count ≤ PIPESIZE
  bytes : pi'.inFlight = pi.inFlight ++ env.bytes i k

theorem Stored.refl (h : pi.count ≤ PIPESIZE) : Stored env i 0 pi pi :=
  ⟨rfl,by rw [UInt32.sub_self]; rfl,⟨rfl,rfl⟩,rfl,h,(List.append_nil _).symm⟩

theorem Stored.put {ch : UInt8} {k : ℕ} {pi' : Pipe} (hch : env.copyin i = some ch)
    (hroom : pi.count < PIPESIZE) (h : Stored env (i + 1) k (pi.put ch) pi') :
    Stored env i (k + 1) pi pi' := by
  have hcount : (pi.put ch).count = pi.count + 1 := Pipe.count_put hroom
  have hbytes : (pi.put ch).inFlight = pi.inFlight ++ [ch] := Pipe.inFlight_put hroom
  refine ⟨h.nread,?_,h.open_,?_,h.bound,?_⟩
  · have hk := h.nwrite
    have hlt : k < PIPESIZE := by have := h.count; have := h.bound; omega
    have hr := pi'.nwrite.toNat_lt
    have hw := pi.nwrite.toNat_lt
    rw [PIPESIZE] at hlt
    rw [UInt32.toNat_sub, Pipe.put, UInt32.toNat_add, UInt32.toNat_one] at hk
    rw [UInt32.toNat_sub]
    omega
  · rw [h.count, hcount]
    omega
  · rw [h.bytes, hbytes, Env.bytes, Env.bytes, List.range'_succ, List.map_cons, hch,
      List.append_assoc]
    rfl

/-- How a section of pipewrite ends. -/
inductive WriteEnd (pi : Pipe) (i k todo : ℕ) : Loc → List Chan → Option Chan → Prop
  | sleep (ht : k < todo) (hopen : pi.readopen = true) (hfull : pi.count = PIPESIZE) :
      WriteEnd pi i k todo (.write (i + k) (todo - k)) [.nread] (some .nwrite)
  | done : WriteEnd pi i k todo (.wrote (i + k : ℕ)) [.nread] none
  | fault (h : i + k = 0) : WriteEnd pi i k todo (.wrote (-1)) [.nread] none
  | abort : WriteEnd pi i k todo (.wrote (-1)) [] none

theorem pipewrite_spec (env : Env) (i todo : ℕ) (pi : Pipe) (h : pi.count ≤ PIPESIZE) :
    ∃ k ≤ todo, Stored env i k pi (pipewrite env i todo pi).data ∧
      WriteEnd (pipewrite env i todo pi).data i k todo (pipewrite env i todo pi).next
        (pipewrite env i todo pi).wakes (pipewrite env i todo pi).waits := by
  induction todo generalizing i pi with
  | zero => exact ⟨0,Nat.le_refl 0,.refl h,.done⟩
  | succ todo ih =>
    rw [pipewrite]
    split
    case isTrue => exact ⟨0,Nat.zero_le _,.refl h,.abort⟩
    case isFalse hgo =>
    obtain ⟨hopen,_⟩ := not_or.mp hgo
    split
    case isTrue hfull =>
      exact ⟨0,Nat.zero_le _,.refl h,.sleep (Nat.succ_pos _) (by simpa using hopen)
        (pi.full_iff.mp hfull)⟩
    case isFalse hfull =>
    have hroom : pi.count < PIPESIZE := Nat.lt_of_le_of_ne h fun e => hfull (pi.full_iff.mpr e)
    cases hch : env.copyin i with
    | none =>
      refine ⟨0,Nat.zero_le _,.refl h,?_⟩
      dsimp only
      split
      case isTrue hi => exact .fault hi
      case isFalse => exact .done
    | some ch =>
      obtain ⟨k,hk,hst,hend⟩ := ih (i + 1) (pi.put ch) (by rw [Pipe.count_put hroom]; exact hroom)
      refine ⟨k + 1,Nat.succ_le_succ hk,hst.put hch hroom,?_⟩
      dsimp only
      generalize (pipewrite env (i + 1) todo (pi.put ch)) = x at hst hend ⊢
      obtain ⟨data,next,wakes,waits⟩ := x
      have hshift : i + 1 + k = i + (k + 1) := by omega
      cases hend with
      | sleep ht ho hf =>
        rw [hshift, show todo - k = todo + 1 - (k + 1) by omega]
        exact .sleep (Nat.succ_lt_succ ht) ho hf
      | done =>
        rw [hshift]
        exact .done
      | fault h0 => omega
      | abort => exact .abort

/-- The pipe after its next bytes are taken. -/
structure Taken (bytes : List UInt8) (pi pi' : Pipe) : Prop where
  nwrite : pi'.nwrite = pi.nwrite
  open_ : pi'.readopen = pi.readopen ∧ pi'.writeopen = pi.writeopen
  bytes : pi.inFlight = bytes ++ pi'.inFlight

theorem copyLoop_spec (env : Env) (i n : ℕ) (pi : Pipe) :
    Taken (copyLoop env i n pi).2.2 pi (copyLoop env i n pi).1 ∧
    (copyLoop env i n pi).2.2.length ≤ n ∧
    ((copyLoop env i n pi).2.1 = (i + (copyLoop env i n pi).2.2.length : ℕ) ∨
      i = 0 ∧ (copyLoop env i n pi).2.1 = -1 ∧ (copyLoop env i n pi).2.2 = []) ∧
    (0 < n → (copyLoop env i n pi).2.1 = 0 → pi.nread = pi.nwrite) := by
  induction n generalizing i pi with
  | zero => exact ⟨⟨rfl,⟨rfl,rfl⟩,rfl⟩,Nat.le_refl 0,.inl rfl,fun h => absurd h (Nat.lt_irrefl 0)⟩
  | succ n ih =>
    rw [copyLoop]
    split
    case isTrue hempty =>
      exact ⟨⟨rfl,⟨rfl,rfl⟩,rfl⟩,Nat.zero_le _,.inl rfl,fun _ _ => hempty⟩
    case isFalse hne =>
    split
    case isTrue hout =>
      obtain ⟨htaken,hlen,hres,_⟩ := ih (i + 1) pi.take
      have hres := hres.resolve_right fun h => absurd h.1 (Nat.succ_ne_zero i)
      refine ⟨⟨htaken.nwrite,htaken.open_,?_⟩,Nat.succ_le_succ hlen,.inl ?_,fun _ hr => ?_⟩
      · rw [Pipe.inFlight_take hne, htaken.bytes]
        rfl
      · change (copyLoop env (i + 1) n pi.take).2.1 =
          (i + ((copyLoop env (i + 1) n pi.take).2.2.length + 1) : ℕ)
        omega
      · change (copyLoop env (i + 1) n pi.take).2.1 = 0 at hr
        omega
    case isFalse =>
      refine ⟨⟨rfl,⟨rfl,rfl⟩,rfl⟩,Nat.zero_le _,?_,?_⟩
      · dsimp only
        split
        case isTrue hi => exact .inr ⟨hi,rfl,rfl⟩
        case isFalse => exact .inl rfl
      · dsimp only
        split
        case isTrue => exact fun _ hr => absurd hr (by decide)
        case isFalse hi => exact fun _ hr => absurd (Int.natCast_eq_zero.mp hr) hi

end Sections

section System
variable {P : Type} {p : P} {l : Loc} {e : Input} {pi : Pipe} {o : Outcome Pipe Loc Chan}

/-- Whether a process is in pipewrite or piperead. -/
def Loc.inCall : Loc → Bool
  | .write _ _ => true
  | .read _ => true
  | _ => false

theorem sections_cases (h : sections p l e pi = some o) :
    (∃ i todo env, l = .write i todo ∧ e = .go env ∧ o = pipewrite env i todo pi) ∨
    (∃ n env, l = .read n ∧ e = .go env ∧ o = piperead env n pi) ∨
    l.inCall = false ∧ ((∃ n, e = .write n ∧ o = ⟨pi,.write 0 n.toNat,[],none⟩) ∨
      (∃ n, e = .read n ∧ o = ⟨pi,.read n.toNat,[],none⟩) ∨
      ∃ writable, e = .close writable ∧ o = pipeclose writable pi) := by
  cases l with
  | write i todo =>
    cases e with
    | go env => exact .inl ⟨i,todo,env,rfl,rfl,(Option.some.inj h).symm⟩
    | _ => cases h
  | read n =>
    cases e with
    | go env => exact .inr (.inl ⟨n,env,rfl,rfl,(Option.some.inj h).symm⟩)
    | _ => cases h
  | _ =>
    cases e with
    | write n => exact .inr (.inr ⟨rfl,.inl ⟨n,rfl,(Option.some.inj h).symm⟩⟩)
    | read n => exact .inr (.inr ⟨rfl,.inr (.inl ⟨n,rfl,(Option.some.inj h).symm⟩)⟩)
    | close writable => exact .inr (.inr ⟨rfl,.inr (.inr ⟨writable,rfl,(Option.some.inj h).symm⟩)⟩)
    | go env => cases h

variable [DecidableEq P] {s t : State Pipe Loc Chan P}

/-- What the file table guarantees: a call uses an end that is open, and an end is closed once, when
no call uses it. -/
def Open (s : State Pipe Loc Chan P) : Event Input P → Prop
  | .run _ (.write _) => s.data.writeopen = true
  | .run _ (.read _) => s.data.readopen = true
  | .run _ (.close true) => s.data.writeopen = true ∧ ∀ q i todo, (s.thread q).loc ≠ .write i todo
  | .run _ (.close false) => s.data.readopen = true ∧ ∀ q n, (s.thread q).loc ≠ .read n
  | _ => True

/-- The bytes that the last call brought. -/
def Loc.bytes : Loc → List UInt8
  | .got _ _ bytes => bytes
  | _ => []

/-- What an observer sees: the bytes that writers have passed, those that readers have got, and how
many of the former come from the last pipewrite of each process. -/
structure Record (P : Type) where
  sent : List UInt8
  received : List UInt8
  stored : P → ℕ

def Record.note (s : State Pipe Loc Chan P) (e : Event Input P) (t : State Pipe Loc Chan P)
    (o : Record P) : Record P :=
  match e with
  | .run p (.go env) =>
    match (s.thread p).loc with
    | .write i _ =>
      let k := (t.data.nwrite - s.data.nwrite).toNat
      { o with
        sent := o.sent ++ env.bytes i k
        stored := Function.update o.stored p (o.stored p + k) }
    | .read _ => { o with received := o.received ++ (t.thread p).loc.bytes }
    | _ => o
  | .run p (.write _) => { o with stored := Function.update o.stored p 0 }
  | _ => o

/-- What holds of a process by its place. -/
def Fits (pi : Pipe) (stored : ℕ) : Loc → Prop
  | .out => True
  | .write i _ => pi.writeopen = true ∧ stored = i
  | .read _ => pi.readopen = true
  | .wrote r => r = -1 ∨ r = stored
  | .got n r bytes => (r = bytes.length ∧ bytes.length ≤ n ∨ r = -1 ∧ bytes = []) ∧
      (0 < n → r = 0 → pi.writeopen = false)

structure Fifo (s : State Pipe Loc Chan P) (o : Record P) : Prop where
  bound : s.data.count ≤ PIPESIZE
  fifo : o.received ++ s.data.inFlight = o.sent
  fits : ∀ q, Fits s.data (o.stored q) (s.thread q).loc

theorem Fits.of_open {pi' : Pipe} {stored : ℕ} (h : Fits pi stored l)
    (ho : pi'.readopen = pi.readopen ∧ pi'.writeopen = pi.writeopen) : Fits pi' stored l := by
  cases l with
  | out => trivial
  | write i todo => exact ⟨ho.2.trans h.1,h.2⟩
  | read n => exact ho.1.trans h
  | wrote r => exact h
  | got n r bytes => exact ⟨h.1,fun hn hr => ho.2.trans (h.2 hn hr)⟩

theorem fits_after {x : Outcome Pipe Loc Chan} {stored : P → ℕ}
    (hself : Fits x.data (stored p) x.next)
    (hother : ∀ q, q ≠ p → Fits x.data (stored q) (s.thread q).loc) :
    ∀ q, Fits (s.after p x).data (stored q) ((s.after p x).thread q).loc := by
  intro q
  rw [s.after_loc]
  split
  case isTrue h => exact h ▸ hself
  case isFalse h => exact hother q h

variable {r : Record P}

theorem Fifo.write {env : Env} {i todo : ℕ} (h : Fifo s r) (hl : (s.thread p).loc = .write i todo) :
    Fifo (s.after p (pipewrite env i todo s.data))
      (Record.note s (.run p (.go env)) (s.after p (pipewrite env i todo s.data)) r) := by
  obtain ⟨k,_,hst,hend⟩ := pipewrite_spec env i todo s.data h.bound
  have hopen := h.fits p
  rw [hl] at hopen
  simp only [Record.note, hl]
  generalize pipewrite env i todo s.data = x at hst hend ⊢
  have hk : ((s.after p x).data.nwrite - s.data.nwrite).toNat = k := hst.nwrite
  rw [hk]
  refine ⟨hst.bound,?_,fits_after ?_ fun q hq => ?_⟩
  · rw [← h.fifo, List.append_assoc]
    exact congrArg (r.received ++ ·) hst.bytes
  · simp only [Function.update_self, hopen.2]
    obtain ⟨data,next,wakes,waits⟩ := x
    cases hend with
    | sleep => exact ⟨hst.open_.2.trans hopen.1,rfl⟩
    | done => exact .inr rfl
    | fault => exact .inl rfl
    | abort => exact .inl rfl
  · simp only [Function.update_of_ne hq]
    exact (h.fits q).of_open hst.open_

theorem Fifo.read {env : Env} {n : ℕ} (h : Fifo s r) (hl : (s.thread p).loc = .read n) :
    Fifo (s.after p (piperead env n s.data))
      (Record.note s (.run p (.go env)) (s.after p (piperead env n s.data)) r) := by
  have hopen := h.fits p
  rw [hl] at hopen
  have hnext : ((s.after p (piperead env n s.data)).thread p).loc =
      (piperead env n s.data).next := by rw [s.after_loc, if_pos rfl]
  simp only [Record.note, hl, hnext]
  unfold piperead
  split
  case isTrue =>
    split
    case isTrue =>
      refine ⟨h.bound,?_,fits_after ⟨.inr ⟨rfl,rfl⟩,fun _ hr => ?_⟩ fun q _ => h.fits q⟩
      · exact (congrArg (· ++ s.data.inFlight) (List.append_nil _)).trans h.fifo
      · cases hr
    case isFalse =>
      refine ⟨h.bound,?_,fits_after hopen fun q _ => h.fits q⟩
      exact (congrArg (· ++ s.data.inFlight) (List.append_nil _)).trans h.fifo
  case isFalse hwait =>
    obtain ⟨htaken,hlen,hres,hzero⟩ := copyLoop_spec env 0 n s.data
    refine ⟨?_,?_,fits_after ⟨?_,fun hn hr => ?_⟩ fun q _ => (h.fits q).of_open htaken.open_⟩
    · have hle := congrArg List.length htaken.bytes
      rw [List.length_append, Pipe.length_inFlight, Pipe.length_inFlight] at hle
      have := h.bound
      change (copyLoop env 0 n s.data).1.count ≤ PIPESIZE
      omega
    · rw [← h.fifo, List.append_assoc, htaken.bytes]
      rfl
    · refine hres.imp (fun hr => ⟨?_,hlen⟩) fun hr => hr.2
      rw [hr, Nat.zero_add]
    · have hempty := hzero hn hr
      exact htaken.open_.2.trans (Bool.eq_false_iff.mpr fun hw => hwait ⟨hempty,hw⟩)

theorem Fifo.close {writable : Bool} (h : Fifo s r) (hopen : Open s (.run p (.close writable))) :
    Fifo (s.after p (pipeclose writable s.data)) r := by
  cases writable with
  | true =>
    refine ⟨h.bound,h.fifo,fits_after trivial fun q _ => ?_⟩
    have hfits := h.fits q
    cases hl : (s.thread q).loc with
    | write i todo => exact absurd hl (hopen.2 q i todo)
    | got n k bytes =>
      rw [hl] at hfits
      exact ⟨hfits.1,fun _ _ => rfl⟩
    | _ =>
      rw [hl] at hfits
      exact hfits
  | false =>
    refine ⟨h.bound,h.fifo,fits_after trivial fun q _ => ?_⟩
    have hfits := h.fits q
    cases hl : (s.thread q).loc with
    | read n => exact absurd hl (hopen.2 q n)
    | _ =>
      rw [hl] at hfits
      exact hfits

theorem Fifo.step {e : Event Input P} (h : Fifo s r) (hopen : Open s e)
    (he : Monitor.step sections s e = some t) : Fifo t (Record.note s e t r) := by
  rcases step_cases he with ⟨p,i,x,rfl,_,hx,rfl⟩ | ⟨⟨p,hp⟩,hdata,hthread⟩
  · rcases sections_cases hx with ⟨i,todo,env,hl,rfl,rfl⟩ | ⟨n,env,hl,rfl,rfl⟩ | ⟨_,hcall⟩
    · exact h.write hl
    · exact h.read hl
    · rcases hcall with ⟨n,rfl,rfl⟩ | ⟨n,rfl,rfl⟩ | ⟨writable,rfl,rfl⟩
      · refine ⟨h.bound,h.fifo,fits_after ⟨hopen,Function.update_self ..⟩ fun q hq => ?_⟩
        simp only [Record.note, Function.update_of_ne hq]
        exact h.fits q
      · exact ⟨h.bound,h.fifo,fits_after hopen fun q _ => h.fits q⟩
      · exact h.close hopen
  · have hnote : Record.note s e t r = r := by
      rcases hp with rfl | rfl
      · rfl
      · rfl
    rw [hnote]
    refine ⟨hdata ▸ h.bound,hdata ▸ h.fifo,fun q => ?_⟩
    rw [hdata, (hthread q).loc]
    exact h.fits q

/-- A pipe that no process uses yet. -/
def fresh (data : Fin PIPESIZE → UInt8) : State Pipe Loc Chan P :=
  ⟨pipealloc data,fun _ => ⟨.out,none,.ready⟩⟩

def Reaches (data : Fin PIPESIZE → UInt8) (x : State Pipe Loc Chan P × Record P) : Prop :=
  Runs (watched (Monitor.step sections) Record.note) (fun x e => Open x.1 e)
    (fresh data,⟨[],[],fun _ => 0⟩) x

theorem Reaches.invariant {data : Fin PIPESIZE → UInt8} {x : State Pipe Loc Chan P × Record P}
    (h : Reaches data x) : Fifo x.1 x.2 := by
  apply Runs.invariant (I := fun x => Fifo x.1 x.2) h
  · have hzero : (pipealloc data).count = 0 := (pipealloc data).empty_iff.mp rfl
    exact ⟨Nat.le_trans (Nat.le_of_eq hzero) (Nat.zero_le _),Pipe.inFlight_eq_nil hzero,fun _ =>
      trivial⟩
  · intro x e y hx hg hstep
    obtain ⟨t,ht,rfl⟩ := Option.map_eq_some_iff.mp hstep
    exact hx.step hg ht

/-- The channels on which a process sleeps, and what keeps it there. -/
def Blocked : Loc → Chan → Pipe → Prop
  | .read _, .nread, pi => pi.count = 0 ∧ pi.writeopen = true
  | .write _ _, .nwrite, pi => pi.count = PIPESIZE ∧ pi.readopen = true
  | _, _, _ => False

/-- A section of pipewrite that does not wake the readers has stored nothing. -/
def Loc.unbroken (env : Env) (pi : Pipe) : Loc → Prop
  | .write i todo =>
    (pipewrite env i todo pi).wakes = [] → (pipewrite env i todo pi).data.nwrite = pi.nwrite
  | _ => True

/-- No process is killed in pipewrite between a byte that it stores and its next sleep or return. -/
def Unbroken (s : State Pipe Loc Chan P) : Event Input P → Prop
  | .run p (.go env) => (s.thread p).loc.unbroken env s.data
  | _ => True

theorem Blocked.cases {c : Chan} (h : Blocked l c pi) :
    (c = .nread ∧ (∃ n, l = .read n) ∧ pi.count = 0 ∧ pi.writeopen = true) ∨
    (c = .nwrite ∧ (∃ i todo, l = .write i todo) ∧ pi.count = PIPESIZE ∧ pi.readopen = true) := by
  cases l with
  | read n =>
    cases c with
    | nread => exact .inl ⟨rfl,⟨n,rfl⟩,h⟩
    | nwrite => exact h.elim
  | write i todo =>
    cases c with
    | nread => exact h.elim
    | nwrite => exact .inr ⟨rfl,⟨i,todo,rfl⟩,h⟩
  | _ => exact h.elim

theorem Blocked.of_open {pi' : Pipe} {c : Chan} (h : Blocked l c pi) (hcount : pi'.count = pi.count)
    (ho : pi'.readopen = pi.readopen ∧ pi'.writeopen = pi.writeopen) : Blocked l c pi' := by
  rcases h.cases with ⟨rfl,⟨n,rfl⟩,hc,hw⟩ | ⟨rfl,⟨i,todo,rfl⟩,hc,hr⟩
  · exact ⟨hcount.trans hc,ho.2.trans hw⟩
  · exact ⟨hcount.trans hc,ho.1.trans hr⟩

omit [DecidableEq P] in
/-- A section that makes room or brings a byte wakes those who wait for it. -/
theorem Blocked.after {e : Input} {c : Chan} (h : Blocked l c s.data) (hb : s.data.count ≤ PIPESIZE)
    (hun : Unbroken s (.run p e)) (hx : sections p (s.thread p).loc e s.data = some o)
    (hc : c ∉ o.wakes) : Blocked l c o.data := by
  rcases sections_cases hx with ⟨i,todo,env,hl,rfl,rfl⟩ | ⟨n,env,hl,rfl,rfl⟩ | ⟨_,hcall⟩
  · obtain ⟨k,_,hst,hend⟩ := pipewrite_spec env i todo s.data hb
    simp only [Unbroken, hl, Loc.unbroken] at hun
    have hcount := hst.count
    have hbound := hst.bound
    have hk : k = 0 := by
      rcases h.cases with ⟨rfl,_⟩ | ⟨_,_,hfull,_⟩
      · have hnil : (pipewrite env i todo s.data).wakes = [] := by
          generalize (pipewrite env i todo s.data).next = next at hend
          generalize (pipewrite env i todo s.data).wakes = wakes at hend hc ⊢
          generalize (pipewrite env i todo s.data).waits = waits at hend
          cases hend with
          | abort => rfl
          | _ => exact absurd (List.mem_singleton.mpr rfl) hc
        rw [← hst.nwrite, hun hnil, UInt32.sub_self]
        rfl
      · omega
    exact h.of_open (by rw [hcount, hk, Nat.add_zero]) hst.open_
  · unfold piperead at hc ⊢
    split at hc
    case isTrue hempty =>
      rw [if_pos hempty]
      split
      · exact h
      · exact h
    case isFalse hne =>
      rw [if_neg hne]
      rcases h.cases with ⟨_,_,hzero,hw⟩ | ⟨rfl,_⟩
      · exact absurd ⟨s.data.empty_iff.mpr hzero,hw⟩ hne
      · exact absurd (List.mem_singleton.mpr rfl) hc
  · rcases hcall with ⟨n,rfl,rfl⟩ | ⟨n,rfl,rfl⟩ | ⟨writable,rfl,rfl⟩
    · exact h
    · exact h
    · cases writable with
      | true =>
        rcases h.cases with ⟨rfl,_⟩ | ⟨rfl,⟨i,todo,rfl⟩,hfull⟩
        · exact absurd (List.mem_singleton.mpr rfl) hc
        · exact hfull
      | false =>
        rcases h.cases with ⟨rfl,⟨n,rfl⟩,hempty⟩ | ⟨rfl,_⟩
        · exact hempty
        · exact absurd (List.mem_singleton.mpr rfl) hc

omit [DecidableEq P] in
theorem Blocked.of_waits {e : Input} {c : Chan} (hb : pi.count ≤ PIPESIZE)
    (hx : sections p l e pi = some o) (hw : o.waits = some c) : Blocked o.next c o.data := by
  rcases sections_cases hx with ⟨i,todo,env,rfl,rfl,rfl⟩ | ⟨n,env,rfl,rfl,rfl⟩ | ⟨_,hcall⟩
  · obtain ⟨k,_,_,hend⟩ := pipewrite_spec env i todo pi hb
    generalize pipewrite env i todo pi = x at hend hw ⊢
    obtain ⟨data,next,wakes,waits⟩ := x
    cases hend with
    | sleep _ hopen hfull =>
      obtain rfl := Option.some.inj hw
      exact ⟨hfull,hopen⟩
    | _ => cases hw
  · unfold piperead at hw ⊢
    split at hw
    case isTrue hempty =>
      rw [if_pos hempty]
      split at hw
      case isTrue => cases hw
      case isFalse hk =>
        rw [if_neg hk]
        obtain rfl := Option.some.inj hw
        exact ⟨pi.empty_iff.mp hempty.1,hempty.2⟩
    case isFalse => cases hw
  · rcases hcall with ⟨n,rfl,rfl⟩ | ⟨n,rfl,rfl⟩ | ⟨writable,rfl,rfl⟩
    · cases hw
    · cases hw
    · cases writable with
      | true => cases hw
      | false => cases hw

theorem bounded_of_run {data : Fin PIPESIZE → UInt8}
    {guard : State Pipe Loc Chan P → Event Input P → Prop}
    (hr : Runs (Monitor.step sections) guard (fresh data) s) (hg : ∀ s e, guard s e → Open s e) :
    s.data.count ≤ PIPESIZE := by
  obtain ⟨r,h⟩ := (hr.mono hg).watch Record.note ⟨[],[],fun _ => 0⟩
  exact (Reaches.invariant h).bound

/-- A process sleeps in a read only while the pipe is empty and some process can write, and in a
write only while the pipe is full and some process can read: no wakeup is lost. -/
theorem asleep_blocked {data : Fin PIPESIZE → UInt8}
    (hr : Runs (Monitor.step sections) (fun s e => Open s e ∧ Unbroken s e) (fresh data) s)
    (hp : (s.thread p).stage = .asleep) :
    (∃ n, (s.thread p).loc = .read n ∧ s.data.inFlight = [] ∧ s.data.writeopen = true) ∨
    (∃ i todo, (s.thread p).loc = .write i todo ∧ s.data.inFlight.length = PIPESIZE ∧
      s.data.readopen = true) := by
  have hwait : Waiting Blocked s := by
    refine Waiting.run hr ⟨fun q hq => (by cases hq),fun q c hq => absurd rfl hq⟩ ?_ ?_
    · intro u q e o c hu _ hx hw
      exact .of_waits (bounded_of_run hu fun _ _ hg => hg.1) hx hw
    · intro u q e o l c hu hg hx hb hc
      exact hb.after (bounded_of_run hu fun _ _ hg => hg.1) hg.2 hx hc
  obtain ⟨c,hb⟩ := hwait.asleep hp
  rcases hb.cases with ⟨_,⟨n,hl⟩,hempty,hw⟩ | ⟨_,⟨i,todo,hl⟩,hfull,hopen⟩
  · exact .inl ⟨n,hl,Pipe.inFlight_eq_nil hempty,hw⟩
  · exact .inr ⟨i,todo,hl,by rw [Pipe.length_inFlight, hfull],hopen⟩

/-- The bytes that readers get are those that writers passed, in order, each once; those not yet
read are at most PIPESIZE. -/
theorem Reaches.pipe_fifo {data : Fin PIPESIZE → UInt8} {x : State Pipe Loc Chan P × Record P}
    (h : Reaches data x) :
    x.2.received ++ x.1.data.inFlight = x.2.sent ∧ x.1.data.inFlight.length ≤ PIPESIZE :=
  ⟨h.invariant.fifo,by rw [Pipe.length_inFlight]; exact h.invariant.bound⟩

end System

/-- Steps of runs without close, in a form that can be checked. -/
def Plain {P : Type} (s : State Pipe Loc Chan P) : Event Input P → Prop
  | .run _ (.write _) => s.data.writeopen = true
  | .run _ (.read _) => s.data.readopen = true
  | .run _ (.close _) => False
  | _ => True

instance (env : Env) (pi : Pipe) : (l : Loc) → Decidable (l.unbroken env pi)
  | .write i todo => inferInstanceAs (Decidable ((pipewrite env i todo pi).wakes = [] →
      (pipewrite env i todo pi).data.nwrite = pi.nwrite))
  | .out => .isTrue trivial
  | .read _ => .isTrue trivial
  | .wrote _ => .isTrue trivial
  | .got _ _ _ => .isTrue trivial

instance {P : Type} (s : State Pipe Loc Chan P) : (e : Event Input P) → Decidable (Unbroken s e)
  | .run p (.go env) => inferInstanceAs (Decidable ((s.thread p).loc.unbroken env s.data))
  | .run _ (.write _) => .isTrue trivial
  | .run _ (.read _) => .isTrue trivial
  | .run _ (.close _) => .isTrue trivial
  | .sleep _ => .isTrue trivial
  | .kill _ => .isTrue trivial

instance {P : Type} (s : State Pipe Loc Chan P) : (e : Event Input P) → Decidable (Plain s e)
  | .run _ (.write _) => inferInstanceAs (Decidable (s.data.writeopen = true))
  | .run _ (.read _) => inferInstanceAs (Decidable (s.data.readopen = true))
  | .run _ (.close _) => .isFalse id
  | .run _ (.go _) => .isTrue trivial
  | .sleep _ => .isTrue trivial
  | .kill _ => .isTrue trivial

theorem Plain.opens {P : Type} {s : State Pipe Loc Chan P} {e : Event Input P} (h : Plain s e) :
    Open s e := by
  cases e with
  | run p i =>
    cases i with
    | close writable => exact h.elim
    | _ => exact h
  | _ => trivial

/-- A writer whose bytes are all 7, killed before its `i`-th byte, and a reader without faults. -/
def sevens (i : ℕ) : Env := ⟨fun j => decide (j = i),fun _ => some 7,fun _ => true⟩

/-- A reader sleeps, a writer passes two bytes, and the reader gets one of them. -/
def exchange : List (Event Input Bool) :=
  [.run true (.read 1), .run true (.go (sevens 9)), .sleep true, .run false (.write 2),
    .run false (.go (sevens 9)), .run true (.go (sevens 9))]

theorem exchange_runs : ∃ x : State Pipe Loc Chan Bool × Record Bool, Reaches (fun _ => 0) x ∧
    x.2.received = [7] ∧ x.2.sent = [7,7] ∧ (x.1.thread true).loc = .got 1 1 [7] := by
  have hrun : (execute
      (restrict (watched (Monitor.step sections) Record.note) fun x e => Plain x.1 e)
      (fresh fun _ => 0,⟨[],[],fun _ => 0⟩) exchange).map (fun x =>
      (x.2.received,x.2.sent,(x.1.thread true).loc)) = some ([7],[7,7],.got 1 1 [7]) := by
    decide +kernel
  obtain ⟨x,hx,hfacts⟩ := Option.map_eq_some_iff.mp hrun
  obtain ⟨hreceived,hfacts⟩ := Prod.mk.injEq .. ▸ hfacts
  obtain ⟨hsent,hloc⟩ := Prod.mk.injEq .. ▸ hfacts
  exact ⟨x,(Runs.of_execute exchange hx).mono fun _ _ h => h.opens,hreceived,hsent,hloc⟩

theorem pipe_fifo_exchange : ∃ x : State Pipe Loc Chan Bool × Record Bool, Reaches (fun _ => 0) x ∧
    x.2.received = [7] ∧ x.1.data.inFlight = [7] := by
  obtain ⟨x,hx,hreceived,hsent,_⟩ := exchange_runs
  have h := hx.pipe_fifo.1
  rw [hreceived, hsent] at h
  exact ⟨x,hx,hreceived,List.append_cancel_left h⟩

theorem asleep_blocked_reader : ∃ s : State Pipe Loc Chan Bool,
    (s.thread true).stage = .asleep ∧ s.data.inFlight = [] := by
  have hrun : (execute (restrict (Monitor.step sections) fun s e => Plain s e ∧ Unbroken s e)
      (fresh fun _ => 0 : State Pipe Loc Chan Bool) (exchange.take 3)).map (fun s =>
      ((s.thread true).stage,(s.thread true).loc)) = some (.asleep,.read 1) := by decide +kernel
  obtain ⟨s,hs,hfacts⟩ := Option.map_eq_some_iff.mp hrun
  obtain ⟨hstage,hloc⟩ := Prod.mk.injEq .. ▸ hfacts
  have hr := (Runs.of_execute _ hs).mono fun _ _ h => And.imp_left Plain.opens h
  refine ⟨s,hstage,?_⟩
  rcases asleep_blocked hr hstage with ⟨n,_,hempty,_⟩ | ⟨i,todo,hl,_⟩
  · exact hempty
  · rw [hloc] at hl
    cases hl

/-- A writer that is killed after its first byte returns without a wakeup: the reader sleeps on. -/
theorem reader_sleeps_on_data : ∃ s : State Pipe Loc Chan Bool,
    Runs (Monitor.step sections) Open (fresh fun _ => 0) s ∧ (s.thread true).stage = .asleep ∧
    s.data.inFlight = [7] := by
  have hrun : (execute (restrict (Monitor.step sections) Plain)
      (fresh fun _ => 0 : State Pipe Loc Chan Bool)
      [.run true (.read 1), .run true (.go (sevens 9)), .sleep true, .run false (.write 2),
        .run false (.go (sevens 1))]).map (fun s => ((s.thread true).stage,s.data.inFlight))
      = some (.asleep,[7]) := by decide +kernel
  obtain ⟨s,hs,hfacts⟩ := Option.map_eq_some_iff.mp hrun
  obtain ⟨hstage,hdata⟩ := Prod.mk.injEq .. ▸ hfacts
  exact ⟨s,(Runs.of_execute _ hs).mono fun _ _ h => h.opens,hstage,hdata⟩

end CShellXv6.Pipes
