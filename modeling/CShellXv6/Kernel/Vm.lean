import CShellXv6.Library.Radix

/-! # Page tables and the pages they own

kalloc.c and vm.c, with pages for addresses: virtual page `n` is at address 4096 n. A
page is on the free list, or in one place of one page table, or in the hands of the
code that runs. Growing and shrinking a process moves pages between these places; none
is lost and none is freed twice.
-/
namespace CShellXv6.Vm
open Radix

/-- The entries of a page table page. -/
@[irreducible] def width : ℕ := 512

theorem width_pos : 0 < width := by
  unfold width
  decide

structure Perm where
  r : Bool
  w : Bool
  x : Bool
  u : Bool

/-- Page table entries; the page and the flags are apart. -/
abbrev Pte := Cell Perm

def Pte.zero : Pte := ⟨false,0,false,false,false,false⟩

/-- What a page filled with byte `b` is as a page table. -/
def junk (b : ℕ) (_ : ℕ) : Pte :=
  let pte := b * 0x0101010101010101
  ⟨pte.testBit 0,pte / 2 ^ 10,pte.testBit 1,pte.testBit 2,pte.testBit 3,pte.testBit 4⟩

/-- Every page as a page table, and the free list, with its links apart from the pages. -/
structure Mem where
  tab : ℕ → ℕ → Pte
  free : List ℕ

def Mem.memset (m : Mem) (p : ℕ) (f : ℕ → Pte) : Mem := { m with tab := Function.update m.tab p f }

def Mem.set (m : Mem) (p i : ℕ) (c : Pte) : Mem := { m with tab := setCell m.tab p i c }

/-- Panics outside of the pages from `lo` to `hi`, which are those from `end` to PHYSTOP. -/
def kfree (lo hi p : ℕ) (m : Mem) : Option Mem :=
  if p < lo ∨ hi ≤ p then none else some { m.memset p (junk 1) with free := p :: m.free }

def kalloc (m : Mem) : Option (ℕ × Mem) :=
  match m.free with
  | [] => none
  | p :: rest => some (p,{ m.memset p (junk 5) with free := rest })

/-- The loop of walk, from a table with `l` levels below it; the table with the entry. -/
def walkFrom (alloc : Bool) (n : ℕ) : ℕ → ℕ → Mem → Mem × Option ℕ
  | 0, p, m => (m,some p)
  | l + 1, p, m =>
    if (m.tab p (digit width (l + 1) n)).v = true then
      walkFrom alloc n l (m.tab p (digit width (l + 1) n)).ppn m
    else if alloc = false then (m,none)
    else
      match kalloc m with
      | none => (m,none)
      | some (q,m) => walkFrom alloc n l q ((m.memset q fun _ => .zero).set p
          (digit width (l + 1) n) ⟨true,q,false,false,false,false⟩)

/-- Panics beyond MAXVA. -/
def walk (root n : ℕ) (alloc : Bool) (m : Mem) : Option (Mem × Option ℕ) :=
  if 2 ^ 26 ≤ n then none else some (walkFrom alloc n 2 root m)

/-- The loop of mappages; panics when a page is mapped already. -/
def mapLoop (root : ℕ) (perm : Perm) : ℕ → ℕ → ℕ → Mem → Option (Bool × Mem)
  | 0, _, _, m => some (true,m)
  | k + 1, n, ppn, m =>
    match walk root n true m with
    | none => none
    | some (m,none) => some (false,m)
    | some (m,some q) =>
      if (m.tab q (digit width 0 n)).v = true then none
      else mapLoop root perm k (n + 1) (ppn + 1) (m.set q (digit width 0 n) ⟨true,ppn,perm⟩)

def mappages (root n k ppn : ℕ) (perm : Perm) (m : Mem) : Option (Bool × Mem) :=
  if k = 0 then none else mapLoop root perm k n ppn m

def uvmunmap (lo hi root : ℕ) (doFree : Bool) : ℕ → ℕ → Mem → Option Mem
  | 0, _, m => some m
  | k + 1, n, m =>
    match walk root n false m with
    | none => none
    | some (m,none) => uvmunmap lo hi root doFree k (n + 1) m
    | some (m,some q) =>
      if (m.tab q (digit width 0 n)).v = false then uvmunmap lo hi root doFree k (n + 1) m
      else
        (if doFree = true then kfree lo hi (m.tab q (digit width 0 n)).ppn m
          else some m).bind fun m =>
            uvmunmap lo hi root doFree k (n + 1) (m.set q (digit width 0 n) .zero)

/-- PGROUNDUP, in pages. -/
def pageUp (sz : ℕ) : ℕ := (sz + 4095) / 4096

def uvmdealloc (lo hi root oldsz newsz : ℕ) (m : Mem) : Option (ℕ × Mem) :=
  if oldsz ≤ newsz then some (oldsz,m)
  else if pageUp newsz < pageUp oldsz then
    (uvmunmap lo hi root true (pageUp oldsz - pageUp newsz) (pageUp newsz) m).map fun m => (newsz,m)
  else some (newsz,m)

/-- The loop of uvmalloc from page `a` on, with `k` pages to go; `none` is a panic. -/
def allocLoop (lo hi root start newsz : ℕ) (perm : Perm) : ℕ → ℕ → Mem → Option (ℕ × Mem)
  | 0, _, m => some (newsz,m)
  | k + 1, a, m =>
    match kalloc m with
    | none => (uvmdealloc lo hi root (a * 4096) (start * 4096) m).map fun x => (0,x.2)
    | some (q,m) =>
      match mappages root a 1 q perm (m.memset q fun _ => .zero) with
      | none => none
      | some (false,m) => (kfree lo hi q m).bind fun m =>
          (uvmdealloc lo hi root (a * 4096) (start * 4096) m).map fun x => (0,x.2)
      | some (true,m) => allocLoop lo hi root start newsz perm k (a + 1) m

def uvmalloc (lo hi root oldsz newsz : ℕ) (xperm : Perm) (m : Mem) : Option (ℕ × Mem) :=
  if newsz < oldsz then some (oldsz,m)
  else allocLoop lo hi root (pageUp oldsz) newsz { xperm with r := true, u := true }
    (pageUp newsz - pageUp oldsz) (pageUp oldsz) m

structure Process where
  sz : ℕ
  mem : Mem

/-- TRAPFRAME, where the memory of the user ends. -/
def trapframe : ℕ := (2 ^ 26 - 2) * 4096

/-- The sum of the size and `n` has 64 bits. -/
def growproc (lo hi root : ℕ) (n : Int32) (p : Process) : Option (ℤ × Process) :=
  let newsz := ((p.sz + n.toInt) % 2 ^ 64).toNat
  if 0 < n.toInt then
    if trapframe < newsz then some (-1,p)
    else (uvmalloc lo hi root p.sz newsz ⟨false,true,false,false⟩ p.mem).map fun x =>
      if x.1 = 0 then (-1,{ p with mem := x.2 }) else (0,⟨x.1,x.2⟩)
  else if n.toInt < 0 then
    (uvmdealloc lo hi root p.sz newsz p.mem).map fun x => (0,⟨x.1,x.2⟩)
  else some (0,p)

def growAll (lo hi root : ℕ) : List Int32 → Process → Option Process
  | [], p => some p
  | n :: ns, p => (growproc lo hi root n p).bind fun x => growAll lo hi root ns x.2

section Pages
variable {lo hi root n q ppn : ℕ} {m m' m'' : Mem} {held held' held'' : Multiset ℕ}

/-- The pages of a page table. -/
def owned (root : ℕ) (tab : ℕ → ℕ → Pte) : Multiset ℕ := pages width tab (2 + 1) root

/-- The pages of a page table and the free ones. -/
def total (root : ℕ) (m : Mem) : Multiset ℕ := owned root m.tab + m.free

/-- The entry of virtual page `n`, if it is mapped. -/
def lookup (root : ℕ) (tab : ℕ → ℕ → Pte) (n : ℕ) : Option Pte := value width tab n 2 root

/-- What code does to memory while pages are in its hands, `held` before and `held'` after it. -/
structure Moves (root : ℕ) (m m' : Mem) (held held' : Multiset ℕ) (val : ℕ → Option Pte) :
    Prop where
  total : total root m' + held' = total root m + held
  frame : ∀ x, x ∉ Vm.total root m + held → m'.tab x = m.tab x
  lookup : ∀ n < 2 ^ 26, lookup root m'.tab n = val n

theorem Moves.refl : Moves root m m held held (Vm.lookup root m.tab) :=
  ⟨rfl,fun _ _ => rfl,fun _ _ => rfl⟩

theorem Moves.trans {val val' : ℕ → Option Pte} (h : Moves root m m' held held' val)
    (g : Moves root m' m'' held' held'' val') : Moves root m m'' held held'' val' := by
  refine ⟨g.total.trans h.total,fun x hx => ?_,g.lookup⟩
  rw [g.frame x (by rwa [h.total]), h.frame x hx]

theorem Moves.closed {val : ℕ → Option Pte} (h : Moves root m m' 0 0 val) :
    Vm.total root m' = Vm.total root m ∧ ∀ x, x ∉ Vm.total root m → m'.tab x = m.tab x := by
  have htotal := h.total
  have hframe := h.frame
  rw [add_zero] at hframe
  rw [add_zero, add_zero] at htotal
  exact ⟨htotal,hframe⟩

theorem Moves.congr {val val' : ℕ → Option Pte} (h : Moves root m m' held held' val)
    (hv : ∀ n < 2 ^ 26, val n = val' n) : Moves root m m' held held' val' :=
  ⟨h.total,h.frame,fun n hn => (h.lookup n hn).trans (hv n hn)⟩

/-- A move after which the entries are the same. -/
theorem Moves.keep {val : ℕ → Option Pte} (h : Moves root m m' held held' val)
    (g : Moves root m' m'' held' held'' (Vm.lookup root m'.tab)) :
    Moves root m m'' held held'' val :=
  (h.trans g).congr h.lookup

/-- The page table is the same in two memories that agree on its pages. -/
theorem owned_congr (h : ∀ x ∈ owned root m.tab, m'.tab x = m.tab x) :
    owned root m'.tab = owned root m.tab ∧ ∀ n, lookup root m'.tab n = lookup root m.tab n := by
  unfold owned at h ⊢
  exact ⟨pages_congr h,fun n => value_congr width_pos h⟩

/-- A page is filled that is free or in the hands of the code. -/
theorem fill_moves {f : ℕ → Pte} (hnd : (total root m + held).Nodup)
    (htab : m'.tab = Function.update m.tab q f) (hq : q ∈ m.free ∨ q ∈ held)
    (hfree : (m'.free : Multiset ℕ) + held' = (m.free : Multiset ℕ) + held) :
    Moves root m m' held held' (lookup root m.tab) := by
  rw [total, add_assoc] at hnd
  have hq : q ∈ (m.free : Multiset ℕ) + held := Multiset.mem_add.mpr hq
  have hsame : ∀ x ∈ owned root m.tab, m'.tab x = m.tab x := by
    intro x hx
    rw [htab, Function.update_of_ne]
    rintro rfl
    exact Multiset.disjoint_left.mp (Multiset.nodup_add.mp hnd).2.2 hx hq
  obtain ⟨howned,hlook⟩ := owned_congr hsame
  refine ⟨?_,fun x hx => ?_,fun n _ => hlook n⟩
  · rw [total, total, howned, add_assoc, add_assoc, hfree]
  · rw [htab, Function.update_of_ne]
    rintro rfl
    rw [total, add_assoc] at hx
    exact hx (Multiset.mem_add.mpr (.inr hq))

theorem kalloc_moves (hk : kalloc m = some (q,m')) (hnd : (total root m + held).Nodup) :
    q ∈ m.free ∧ m'.free ⊆ m.free ∧
      Moves root m m' held (held + {q}) (lookup root m.tab) := by
  unfold kalloc at hk
  split at hk
  case h_1 => cases hk
  case h_2 p rest hfree =>
    obtain ⟨rfl,rfl⟩ := Prod.mk.inj (Option.some.inj hk)
    have hmem : p ∈ m.free := hfree ▸ List.mem_cons_self ..
    refine ⟨hmem,fun x hx => hfree ▸ List.mem_cons_of_mem _ hx,
      fill_moves hnd rfl (.inl hmem) ?_⟩
    rw [hfree, ← Multiset.cons_coe, ← Multiset.singleton_add]
    ac_rfl

theorem kfree_moves (hq : lo ≤ q ∧ q < hi) (hnd : (total root m + {q}).Nodup) :
    ∃ m', kfree lo hi q m = some m' ∧ m'.free = q :: m.free ∧
      Moves root m m' {q} 0 (lookup root m.tab) := by
  refine ⟨_,if_neg (by omega),rfl,fill_moves hnd rfl
    (.inr (Multiset.mem_singleton_self q)) ?_⟩
  rw [← Multiset.cons_coe, ← Multiset.singleton_add]
  ac_rfl

/-- The tables that walk adds come from the free list, and no entry changes. -/
def Walked (n l p : ℕ) (m : Mem) (r : Mem × Option ℕ) : Prop :=
  ∃ new : List ℕ, m.free = new ++ r.1.free ∧
    Change width m.tab r.1.tab l p 0 new (fun k => value width m.tab k l p) ∧
    ∀ q, r.2 = some q → lowest width r.1.tab n l p = some q

/-- The walk goes on in a child. -/
theorem Walked.up {l p : ℕ} {r : Mem × Option ℕ} (hv : (m.tab p (digit width (l + 1) n)).v = true)
    (hnd : (pages width m.tab (l + 2) p + m.free).Nodup)
    (h : Walked n l (m.tab p (digit width (l + 1) n)).ppn m r) : Walked n (l + 1) p m r := by
  obtain ⟨new,hfree,hch,hlow⟩ := h
  have hlt : digit width (l + 1) n < width := Nat.mod_lt _ width_pos
  have hnew : (pages width m.tab (l + 2) p + (new : Multiset ℕ)).Nodup := by
    rw [hfree, ← Multiset.coe_add, ← add_assoc] at hnd
    exact (Multiset.nodup_add.mp hnd).1
  have hup := hch.lift width_pos hlt hv hnew
  refine ⟨new,hfree,⟨hup.pages,hup.frame,fun k => (hup.value k).trans ?_⟩,fun q hq => ?_⟩
  · split
    case isTrue hd => rw [value_succ, hd, if_pos hv]
    case isFalse => rfl
  · rw [lowest, hch.parent hlt hv hnew, if_pos hv, hlow q hq]

theorem walkFrom_walked {l p : ℕ} (hnd : (pages width m.tab (l + 1) p + m.free).Nodup) :
    Walked n l p m (walkFrom true n l p m) := by
  induction l generalizing p m with
  | zero => exact ⟨[],rfl,.refl,fun q hq => hq⟩
  | succ l ih =>
    have hlt : digit width (l + 1) n < width := Nat.mod_lt _ width_pos
    unfold walkFrom
    split
    case isTrue hv => exact (ih (nodup_child hlt hv hnd)).up hv hnd
    case isFalse hv =>
    rw [if_neg (by decide)]
    unfold kalloc
    split
    case h_1 hfail =>
      exact ⟨[],rfl,.refl,fun q hq => by cases hq⟩
    case h_2 q m' hok =>
    split at hok
    case h_1 => cases hok
    case h_2 p' rest hfree =>
      obtain ⟨rfl,rfl⟩ := Prod.mk.inj (Option.some.inj hok)
      rw [hfree, ← Multiset.cons_coe, ← Multiset.singleton_add, ← add_assoc] at hnd
      have hgrow := Change.grow (z := fun _ => Pte.zero) (f := (⟨false,false,false,false⟩ : Perm))
        width_pos (fun _ => rfl) hlt ((Bool.not_eq_true _).mp hv) (Multiset.nodup_add.mp hnd).1
      generalize hm : (Mem.memset { m.memset p' (junk 5) with free := rest } p'
        fun _ => Pte.zero).set p (digit width (l + 1) n) ⟨true,p',false,false,false,false⟩ = m₂
      have htab : m₂.tab = setCell (Function.update m.tab p' fun _ => Pte.zero) p
          (digit width (l + 1) n) ⟨true,p',false,false,false,false⟩ := by
        rw [← hm]
        simp only [Mem.set, Mem.memset, Function.update_idem]
      have hfree₂ : m₂.free = rest := by rw [← hm]; rfl
      have hcell : m₂.tab p (digit width (l + 1) n) = ⟨true,p',false,false,false,false⟩ := by
        rw [htab, setCell_self, Function.update_self]
      rw [← htab] at hgrow
      have hpages := hgrow.pages
      rw [add_zero] at hpages
      rw [← hpages, ← hfree₂] at hnd
      have hv₂ : (m₂.tab p (digit width (l + 1) n)).v = true := by rw [hcell]
      have hwalk := (ih (nodup_child hlt hv₂ hnd)).up hv₂ hnd
      rw [hcell] at hwalk
      obtain ⟨new,hf,hch,hlow⟩ := hwalk
      have hboth := hgrow.trans hch
      refine ⟨p' :: new,?_,⟨?_,?_,fun k => (hboth.value k).trans (hgrow.value k)⟩,hlow⟩
      · rw [hfree, ← hfree₂, hf, List.cons_append]
      · rw [hboth.pages, ← Multiset.cons_coe, Multiset.singleton_add]
      · rw [← Multiset.cons_coe, ← Multiset.singleton_add]
        exact hboth.frame

/-- walk moves pages from the free list into the page table. -/
theorem walk_moves (hn : n < 2 ^ 26) (hnd : (total root m + held).Nodup) :
    ∃ m' r, walk root n true m = some (m',r) ∧ m'.free ⊆ m.free ∧
      Moves root m m' held held (lookup root m.tab) ∧
      ∀ q, r = some q → lowest width m'.tab n 2 root = some q := by
  obtain ⟨new,hfree,hch,hlow⟩ := walkFrom_walked (n := n) (Multiset.nodup_add.mp hnd).1
  have hpages := hch.pages
  refine ⟨(walkFrom true n 2 root m).1,(walkFrom true n 2 root m).2,if_neg (Nat.not_le.mpr hn),
    fun x hx => hfree ▸ List.mem_append_right new hx,
    ⟨?_,fun x hx => ?_,fun k _ => hch.value k⟩,hlow⟩
  · rw [add_zero] at hpages
    rw [total, owned, hpages, total, owned, hfree, ← Multiset.coe_add]
    ac_rfl
  · rw [total, owned, hfree, ← Multiset.coe_add] at hx
    simp only [Multiset.mem_add, not_or] at hx
    exact hch.frame x hx.1.1 hx.1.2.1

/-- walk without allocation finds the table of an entry. -/
theorem walkFrom_find {l p : ℕ} : walkFrom false n l p m = (m,lowest width m.tab n l p) := by
  induction l generalizing p with
  | zero => rfl
  | succ l ih =>
    rw [walkFrom, lowest]
    split
    · exact ih
    · rfl

theorem same_iff {k : ℕ} (hk : k < 2 ^ 26) (hn : n < 2 ^ 26) : Same width 2 k n ↔ k = n := by
  constructor
  · intro h
    have h0 := h 0 (by decide)
    have h1 := h 1 (by decide)
    have h2 := h 2 (by decide)
    unfold digit width at h0 h1 h2
    omega
  · rintro rfl
    exact fun _ _ => rfl

/-- An entry is written: the page it held is in the hands of the code, the one it holds is not. -/
theorem set_moves {c : Pte} (hn : n < 2 ^ 26) (hq : lowest width m.tab n 2 root = some q)
    (hnd : (total root m + c.page).Nodup) :
    Moves root m (m.set q (digit width 0 n) c) c.page (m.tab q (digit width 0 n)).page
      fun k => if k = n then c.toOption else lookup root m.tab k := by
  have hsub : (owned root m.tab + c.page).Nodup := by
    refine Multiset.nodup_of_le ?_ hnd
    exact add_le_add_left (Multiset.le_add_right _ _) _
  have hch := Change.set width_pos hq hsub
  refine ⟨?_,fun x hx => ?_,fun k hk => ?_⟩
  · rw [total, total, add_right_comm, add_right_comm (owned root m.tab)]
    exact congrArg (· + (m.free : Multiset ℕ)) hch.pages
  · rw [total] at hx
    simp only [Multiset.mem_add, not_or] at hx
    exact hch.frame x hx.1.1 hx.2
  · refine (hch.value k).trans ?_
    simp only [same_iff hk hn]
    rfl

/-- One page is mapped, or the memory for a table is missing. -/
theorem mappages_moves (perm : Perm) (hn : n < 2 ^ 26) (hnd : (total root m + {ppn}).Nodup)
    (hval : lookup root m.tab n = none) : ∃ ok m', mappages root n 1 ppn perm m = some (ok,m') ∧
      m'.free ⊆ m.free ∧ if ok = true then Moves root m m' {ppn} 0
        fun k => if k = n then some ⟨true,ppn,perm⟩ else lookup root m.tab k
      else Moves root m m' {ppn} {ppn} (lookup root m.tab) := by
  obtain ⟨m₁,r,hwalk,hfree,hmv,hlow⟩ := walk_moves hn hnd
  rw [mappages, if_neg (by decide), mapLoop, hwalk]
  cases r with
  | none => exact ⟨false,m₁,rfl,hfree,hmv⟩
  | some q =>
    have hq := hlow q rfl
    have hinv : (m₁.tab q (digit width 0 n)).v = false := by
      have hnone := (hmv.lookup n hn).trans hval
      rw [lookup, value, hq, Option.bind_some, Cell.toOption] at hnone
      split at hnone
      case isTrue => cases hnone
      case isFalse h => exact (Bool.not_eq_true _).mp h
    have hset := set_moves (c := (⟨true,ppn,perm⟩ : Pte)) hn hq
      (show (total root m₁ + {ppn}).Nodup by rwa [hmv.total])
    rw [show (m₁.tab q (digit width 0 n)).page = 0 from if_neg (by rw [hinv]; decide)] at hset
    refine ⟨true,m₁.set q (digit width 0 n) ⟨true,ppn,perm⟩,?_,hfree,?_⟩
    · dsimp only
      rw [if_neg (by rw [hinv]; decide), mapLoop]
    · refine (hmv.trans hset).congr fun k hk => ?_
      split
      · rfl
      · exact hmv.lookup k hk

/-- The pages that kfree takes: the free ones and those mapped for the user. -/
structure Sound (lo hi root : ℕ) (m : Mem) : Prop where
  nodup : (total root m).Nodup
  free : ∀ x ∈ m.free, lo ≤ x ∧ x < hi
  user : ∀ n < 2 ^ 26 - 2, ∀ c, lookup root m.tab n = some c → lo ≤ c.ppn ∧ c.ppn < hi

theorem Sound.of_moves {val : ℕ → Option Pte} (h : Sound lo hi root m)
    (hmv : Moves root m m' 0 0 val) (hfree : ∀ x ∈ m'.free, lo ≤ x ∧ x < hi)
    (hval : ∀ n < 2 ^ 26 - 2, ∀ c, val n = some c → lo ≤ c.ppn ∧ c.ppn < hi) :
    Sound lo hi root m' := by
  refine ⟨hmv.closed.1 ▸ h.nodup,hfree,fun n hn c hc => hval n hn c ?_⟩
  rw [← hmv.lookup n (by omega), hc]

/-- One round of uvmunmap. -/
theorem uvmunmap_step (hn : n < 2 ^ 26 - 2) (h : Sound lo hi root m) (k : ℕ) :
    ∃ m', uvmunmap lo hi root true (k + 1) n m = uvmunmap lo hi root true k (n + 1) m' ∧
      Sound lo hi root m' ∧
      Moves root m m' 0 0 fun j => if j = n then none else lookup root m.tab j := by
  have hstay : lookup root m.tab n = none →
      Moves root m m 0 0 fun j => if j = n then none else lookup root m.tab j := by
    intro hnone
    refine ⟨rfl,fun _ _ => rfl,fun j _ => ?_⟩
    split
    case isTrue hj => rw [hj, hnone]
    case isFalse => rfl
  rw [uvmunmap, walk, if_neg (by omega), walkFrom_find]
  have hlook : lookup root m.tab n = (lowest width m.tab n 2 root).bind _ := rfl
  cases hq : lowest width m.tab n 2 root with
  | none => exact ⟨m,rfl,h,hstay (by rw [hlook, hq]; rfl)⟩
  | some q =>
    rw [hq, Option.bind_some] at hlook
    dsimp only
    by_cases hv : (m.tab q (digit width 0 n)).v = false
    · rw [if_pos hv]
      exact ⟨m,rfl,h,hstay (by rw [hlook, Cell.toOption, hv]; rfl)⟩
    rw [if_neg hv, if_pos rfl]
    rw [Bool.not_eq_false] at hv
    rw [Cell.toOption, if_pos hv] at hlook
    have hr := h.user n hn _ hlook
    have hz : (total root m + Cell.page Pte.zero).Nodup := by
      rw [show Cell.page Pte.zero = 0 from rfl, add_zero]
      exact h.nodup
    have hset := set_moves (c := Pte.zero) (by omega) hq hz
    rw [show (m.tab q (digit width 0 n)).page = {(m.tab q (digit width 0 n)).ppn} from if_pos hv]
      at hset
    have hne := lowest_ne width_pos hq hv (Multiset.nodup_add.mp h.nodup).1
    generalize m.tab q (digit width 0 n) = c at hr hset hne ⊢
    have hfree : ((c.ppn :: m.free : List ℕ) : Multiset ℕ) + 0 =
        (m.free : Multiset ℕ) + {c.ppn} := by
      rw [← Multiset.cons_coe, ← Multiset.singleton_add]
      ac_rfl
    have hfill : Moves root (m.set q (digit width 0 n) .zero)
        (Mem.set { m.memset c.ppn (junk 1) with free := c.ppn :: m.free } q (digit width 0 n) .zero)
        {c.ppn} 0 _ :=
      fill_moves (hset.total ▸ hz) (setCell_update hne)
        (.inr (Multiset.mem_singleton_self _)) hfree
    have hmv := hset.keep hfill
    rw [kfree, if_neg (by omega), Option.bind_some]
    refine ⟨_,rfl,h.of_moves hmv (fun x hx => ?_) fun j hj d hd => ?_,hmv⟩
    · rcases List.mem_cons.mp hx with rfl | hx
      · exact hr
      · exact h.free x hx
    · split at hd
      · cases hd
      · exact h.user j hj d hd

/-- Pages are unmapped and freed, each once. -/
theorem uvmunmap_moves {k : ℕ} (hn : n + k ≤ 2 ^ 26 - 2) (h : Sound lo hi root m) :
    ∃ m', uvmunmap lo hi root true k n m = some m' ∧ Sound lo hi root m' ∧
      Moves root m m' 0 0
        fun j => if n ≤ j ∧ j < n + k then none else lookup root m.tab j := by
  induction k generalizing n m with
  | zero =>
    refine ⟨m,rfl,h,rfl,fun _ _ => rfl,fun j _ => ?_⟩
    rw [if_neg (by omega)]
  | succ k ih =>
    obtain ⟨m₁,hstep,h₁,hmv₁⟩ := uvmunmap_step (n := n) (by omega) h k
    obtain ⟨m₂,hrest,h₂,hmv₂⟩ := ih (n := n + 1) (by omega) h₁
    refine ⟨m₂,hstep.trans hrest,h₂,(hmv₁.trans hmv₂).congr fun j hj => ?_⟩
    rw [hmv₁.lookup j hj]
    by_cases hjn : j = n
    · rw [if_pos hjn, ite_self, if_pos (by omega)]
    · rw [if_neg hjn]
      exact if_congr (by omega) rfl rfl

/-- uvmdealloc unmaps the pages between the two sizes. -/
theorem uvmdealloc_moves (oldsz newsz : ℕ) (hsz : pageUp oldsz ≤ 2 ^ 26 - 2)
    (h : Sound lo hi root m) :
    ∃ m', uvmdealloc lo hi root oldsz newsz m = some (min oldsz newsz,m') ∧ Sound lo hi root m' ∧
      Moves root m m' 0 0
        fun j => if pageUp newsz ≤ j ∧ j < pageUp oldsz then none else lookup root m.tab j := by
  have hnone : pageUp oldsz ≤ pageUp newsz → Moves root m m 0 0
      fun j => if pageUp newsz ≤ j ∧ j < pageUp oldsz then none else lookup root m.tab j :=
    fun hle => ⟨rfl,fun _ _ => rfl,fun j _ => by rw [if_neg (by omega)]⟩
  unfold uvmdealloc
  split
  case isTrue hle =>
    exact ⟨m,by rw [Nat.min_eq_left hle],h,hnone (Nat.div_le_div_right (by omega))⟩
  case isFalse hgt =>
  rw [Nat.min_eq_right (by omega)]
  split
  case isTrue hlt =>
    obtain ⟨m',hun,h',hmv⟩ := uvmunmap_moves (n := pageUp newsz) (k := pageUp oldsz - pageUp newsz)
      (by omega) h
    rw [Nat.add_sub_cancel' (Nat.le_of_lt hlt)] at hmv
    exact ⟨m',by rw [hun]; rfl,h',hmv⟩
  case isFalse hge => exact ⟨m,rfl,h,hnone (Nat.le_of_not_lt hge)⟩

/-- The loop of uvmalloc maps its pages, or all pages from `start` on are unmapped. -/
theorem allocLoop_moves {a k start : ℕ} (newsz : ℕ) (perm : Perm) (hs : start ≤ a)
    (ha : a + k ≤ 2 ^ 26 - 2) (h : Sound lo hi root m)
    (hfree : ∀ j, a ≤ j → j < a + k → lookup root m.tab j = none) :
    ∃ r m', allocLoop lo hi root start newsz perm k a m = some (r,m') ∧ Sound lo hi root m' ∧
      ((r = newsz ∧ ∃ val, Moves root m m' 0 0 val ∧ ∀ j < 2 ^ 26, if a ≤ j ∧ j < a + k then
        ∃ q, val j = some ⟨true,q,perm⟩ else val j = lookup root m.tab j) ∨
      (r = 0 ∧ Moves root m m' 0 0
        fun j => if start ≤ j ∧ j < a then none else lookup root m.tab j)) := by
  have hup : ∀ b, pageUp (b * 4096) = b := fun b => by unfold pageUp; omega
  have hfail : ∀ a m, a ≤ 2 ^ 26 - 2 → Sound lo hi root m → ∃ m', uvmdealloc lo hi root (a * 4096)
      (start * 4096) m = some (min (a * 4096) (start * 4096),m') ∧ Sound lo hi root m' ∧
      Moves root m m' 0 0 fun j => if start ≤ j ∧ j < a then none else lookup root m.tab j := by
    intro a m ha h
    have hd := uvmdealloc_moves (a * 4096) (start * 4096) (by rwa [hup]) h
    rwa [hup, hup] at hd
  induction k generalizing a m with
  | zero =>
    refine ⟨newsz,m,rfl,h,.inl ⟨rfl,_,.refl,fun j _ => ?_⟩⟩
    rw [if_neg (by omega)]
  | succ k ih =>
    rw [allocLoop]
    cases hk : kalloc m with
    | none =>
      obtain ⟨m',hd,h',hmv⟩ := hfail a m (by omega) h
      exact ⟨0,m',by rw [hd]; rfl,h',.inr ⟨rfl,hmv⟩⟩
    | some x =>
      obtain ⟨q,m₁⟩ := x
      have hnd : (total root m + 0).Nodup := (add_zero (total root m)).symm ▸ h.nodup
      obtain ⟨hq,hsub₁,hmv₁⟩ := kalloc_moves hk hnd
      rw [zero_add] at hmv₁
      have hmv₂ : Moves root m (m₁.memset q fun _ => .zero) 0 {q} (lookup root m.tab) :=
        hmv₁.keep (fill_moves (hmv₁.total ▸ hnd) rfl
          (.inr (Multiset.mem_singleton_self q)) rfl)
      obtain ⟨ok,m₃,hmap,hsub₃,hmv₃⟩ := mappages_moves perm (n := a) (by omega)
        (hmv₂.total ▸ hnd) ((hmv₂.lookup a (by omega)).trans (hfree a (by omega) (by omega)))
      have hin : ∀ x ∈ m₃.free, lo ≤ x ∧ x < hi := fun x hx => h.free x (hsub₁ (hsub₃ hx))
      dsimp only
      rw [hmap]
      cases ok with
      | false =>
        -- no memory for a table: the page goes back
        have hmv := hmv₂.keep hmv₃
        obtain ⟨m₄,hkf,hfree₄,hmv₄⟩ := kfree_moves (h.free q hq) (hmv.total ▸ hnd)
        have hback := hmv.keep hmv₄
        have h₄ : Sound lo hi root m₄ := h.of_moves hback (by
          rw [hfree₄]
          exact List.forall_mem_cons.mpr ⟨h.free q hq,hin⟩) h.user
        obtain ⟨m',hd,h',hmv'⟩ := hfail a m₄ (by omega) h₄
        refine ⟨0,m',by dsimp only; rw [hkf, Option.bind_some, hd]; rfl,h',.inr ⟨rfl,?_⟩⟩
        exact (hback.trans hmv').congr fun j hj => by rw [hback.lookup j hj]
      | true =>
        have hmv := hmv₂.trans hmv₃
        have h₃ : Sound lo hi root m₃ := h.of_moves hmv hin fun j hj c hc => by
          split at hc
          · obtain rfl := Option.some.inj hc
            exact h.free q hq
          · exact h.user j hj c ((hmv₂.lookup j (by omega)).symm.trans hc)
        have hlook : ∀ j < 2 ^ 26, lookup root m₃.tab j =
            if j = a then some ⟨true,q,perm⟩ else lookup root m.tab j := fun j hj =>
          (hmv.lookup j hj).trans (by rw [hmv₂.lookup j hj])
        obtain ⟨r,m',hloop,h',hres⟩ := ih (a := a + 1) (by omega) (by omega) h₃ fun j h1 h2 => by
          rw [hlook j (by omega), if_neg (by omega)]
          exact hfree j (by omega) (by omega)
        rcases hres with ⟨hr,val,hmvr,hval⟩ | ⟨hr,hmvr⟩
        · refine ⟨r,m',hloop,h',.inl ⟨hr,val,hmv.trans hmvr,fun j hj => ?_⟩⟩
          have hj' := hval j hj
          rw [hlook j hj] at hj'
          by_cases hja : j = a
          · rw [if_neg (by omega), if_pos hja] at hj'
            rw [if_pos (by omega)]
            exact ⟨q,hj'⟩
          · rw [if_neg hja] at hj'
            exact (if_congr (by omega) rfl rfl).mp hj'
        · refine ⟨r,m',hloop,h',.inr ⟨hr,(hmv.trans hmvr).congr fun j hj => ?_⟩⟩
          rw [hlook j hj]
          by_cases hja : j = a
          · rw [if_pos (by omega), if_neg (by omega), hja, hfree a (by omega) (by omega)]
          · rw [if_neg hja]
            exact if_congr (by omega) rfl rfl

/-- uvmalloc maps all pages between the two sizes, or none. -/
theorem uvmalloc_moves {oldsz newsz : ℕ} (perm : Perm) (h : Sound lo hi root m)
    (hle : oldsz ≤ newsz) (hsz : newsz ≤ trapframe)
    (hfree : ∀ j, pageUp oldsz ≤ j → j < pageUp newsz → lookup root m.tab j = none) :
    ∃ r m' val, uvmalloc lo hi root oldsz newsz perm m = some (r,m') ∧ Sound lo hi root m' ∧
      Moves root m m' 0 0 val ∧ ((r = newsz ∧ ∀ j < 2 ^ 26, if pageUp oldsz ≤ j ∧ j < pageUp newsz
        then ∃ q, val j = some ⟨true,q,{ perm with r := true, u := true }⟩
        else val j = lookup root m.tab j) ∨ (r = 0 ∧ val = lookup root m.tab)) := by
  have hpages : pageUp oldsz ≤ pageUp newsz := Nat.div_le_div_right (by omega)
  have hadd := Nat.add_sub_cancel' hpages
  have hmax : pageUp newsz ≤ 2 ^ 26 - 2 := by unfold pageUp; unfold trapframe at hsz; omega
  obtain ⟨r,m',hloop,h',hres⟩ := allocLoop_moves newsz { perm with r := true, u := true }
    (Nat.le_refl (pageUp oldsz)) (by rwa [hadd]) h (by rwa [hadd])
  rw [hadd] at hres
  have hrun : uvmalloc lo hi root oldsz newsz perm m = some (r,m') :=
    (if_neg (by omega)).trans hloop
  rcases hres with ⟨hr,val,hmv,hval⟩ | ⟨hr,hmv⟩
  · exact ⟨r,m',val,hrun,h',hmv,.inl ⟨hr,hval⟩⟩
  · exact ⟨r,m',_,hrun,h',hmv,.inr ⟨hr,funext fun j => if_neg (by omega)⟩⟩

end Pages

section Processes
variable {lo hi root : ℕ} {p p' : Process}

/-- Nothing is mapped from the size of a process on. -/
structure Sized (lo hi root : ℕ) (p : Process) : Prop where
  sound : Sound lo hi root p.mem
  size : p.sz ≤ trapframe
  beyond : ∀ j, pageUp p.sz ≤ j → j < 2 ^ 26 - 2 → lookup root p.mem.tab j = none

/-- The answers of growproc: a failure changes nothing; otherwise the pages between the two sizes
are mapped or unmapped, and only these. A size below zero is not taken. -/
def Grown (root : ℕ) (n : Int32) (r : ℤ) (p p' : Process) : Prop :=
  (r = -1 ∧ p'.sz = p.sz ∧ ∀ j < 2 ^ 26, lookup root p'.mem.tab j = lookup root p.mem.tab j) ∨
  (r = 0 ∧ p'.sz = (if 0 ≤ p.sz + n.toInt then (p.sz + n.toInt).toNat else p.sz) ∧
    ∀ j < 2 ^ 26, if pageUp p.sz ≤ j ∧ j < pageUp p'.sz then
      ∃ q, lookup root p'.mem.tab j = some ⟨true,q,true,true,false,true⟩
    else lookup root p'.mem.tab j =
      if pageUp p'.sz ≤ j ∧ j < pageUp p.sz then none else lookup root p.mem.tab j)

theorem Sized.grown {n : Int32} {r : ℤ} (h : Sized lo hi root p) (hs : Sound lo hi root p'.mem)
    (hsz : p'.sz ≤ trapframe) (g : Grown root n r p p') : Sized lo hi root p' := by
  refine ⟨hs,hsz,fun j h1 h2 => ?_⟩
  rcases g with ⟨_,e,hj⟩ | ⟨_,_,hj⟩
  · rw [hj j (by omega), h.beyond j (e ▸ h1) h2]
  · have hj := hj j (by omega)
    rw [if_neg (by omega)] at hj
    rw [hj]
    split
    case isTrue => rfl
    case isFalse hout => exact h.beyond j (by omega) h2

theorem growproc_grown (n : Int32) (h : Sized lo hi root p) :
    ∃ r p' val, growproc lo hi root n p = some (r,p') ∧ Sized lo hi root p' ∧ Grown root n r p p' ∧
      Moves root p.mem p'.mem 0 0 val := by
  have hsize := h.size
  have hlt := n.toInt_lt
  have hge := n.le_toInt
  unfold trapframe at hsize
  unfold growproc
  dsimp only
  generalize hnew : ((p.sz + n.toInt) % 2 ^ 64).toNat = newsz
  split_ifs with hpos hbig hneg
  · exact ⟨-1,p,_,rfl,h,.inl ⟨rfl,rfl,fun _ _ => rfl⟩,.refl⟩
  · obtain ⟨r,m',val,hrun,hs,hmv,hres⟩ := uvmalloc_moves ⟨false,true,false,false⟩ h.sound
      (by omega) (Nat.le_of_not_lt hbig) fun j h1 h2 => h.beyond j h1 (by
        unfold trapframe at hbig
        unfold pageUp at h2
        omega)
    rw [hrun]
    rcases hres with ⟨rfl,hval⟩ | ⟨rfl,rfl⟩
    · have g : Grown root n 0 p ⟨r,m'⟩ := by
        refine .inr ⟨rfl,by dsimp only; split <;> omega,fun j hj => ?_⟩
        have hno : ¬(pageUp r ≤ j ∧ j < pageUp p.sz) := by unfold pageUp; omega
        dsimp only
        rw [hmv.lookup j hj, if_neg hno]
        exact hval j hj
      exact ⟨0,⟨r,m'⟩,val,by rw [Option.map_some, if_neg (by omega)],
        h.grown hs (Nat.le_of_not_lt hbig) g,g,hmv⟩
    · have g : Grown root n (-1) p ⟨p.sz,m'⟩ := .inl ⟨rfl,rfl,hmv.lookup⟩
      exact ⟨-1,⟨p.sz,m'⟩,_,rfl,h.grown hs h.size g,g,hmv⟩
  · obtain ⟨m',hrun,hs,hmv⟩ := uvmdealloc_moves p.sz newsz (by unfold pageUp; omega) h.sound
    rw [hrun]
    have g : Grown root n 0 p ⟨min p.sz newsz,m'⟩ := by
      refine .inr ⟨rfl,by dsimp only; split <;> omega,fun j hj => ?_⟩
      dsimp only
      rw [if_neg (by unfold pageUp; omega), hmv.lookup j hj]
      exact if_congr (by unfold pageUp; omega) rfl rfl
    exact ⟨0,_,_,rfl,h.grown hs ((Nat.min_le_left ..).trans h.size) g,g,hmv⟩
  · have g : Grown root n 0 p p := by
      refine .inr ⟨rfl,by split <;> omega,fun j _ => ?_⟩
      rw [if_neg (by omega), if_neg (by omega)]
    exact ⟨0,p,_,rfl,h,g,.refl⟩

theorem growAll_sized (ns : List Int32) (h : Sized lo hi root p) : ∃ p' val,
    growAll lo hi root ns p = some p' ∧ Sized lo hi root p' ∧ Moves root p.mem p'.mem 0 0 val := by
  induction ns generalizing p with
  | nil => exact ⟨p,_,rfl,h,.refl⟩
  | cons n ns ih =>
    obtain ⟨r,p₁,_,hn,h₁,_,hmv₁⟩ := growproc_grown n h
    obtain ⟨p₂,val,hns,h₂,hmv₂⟩ := ih h₁
    exact ⟨p₂,val,by rw [growAll, hn, Option.bind_some, hns],h₂,hmv₁.trans hmv₂⟩

/-- After any calls of growproc the next one does not panic and maps or unmaps the pages between
the two sizes, or none; no page is lost or in two places, and no other memory is written. -/
theorem growproc_runs (ns : List Int32) (n : Int32) (h : Sized lo hi root p) :
    ∃ p₁ r p₂, growAll lo hi root ns p = some p₁ ∧ growproc lo hi root n p₁ = some (r,p₂) ∧
      Grown root n r p₁ p₂ ∧ Sized lo hi root p₂ ∧ total root p₂.mem = total root p.mem ∧
      ∀ x, x ∉ total root p.mem → p₂.mem.tab x = p.mem.tab x := by
  obtain ⟨p₁,_,hns,h₁,hmv₁⟩ := growAll_sized ns h
  obtain ⟨r,p₂,_,hn,h₂,hg,hmv₂⟩ := growproc_grown n h₁
  exact ⟨p₁,r,p₂,hns,hn,hg,h₂,(hmv₁.trans hmv₂).closed⟩

/-- A process of size 0 and four free pages. -/
def idle : Process := ⟨0,fun _ _ => .zero,[6,7,8,9]⟩

theorem sized_idle : Sized 5 10 5 idle := by
  have hnone : ∀ j, lookup 5 idle.mem.tab j = none := fun j => value_empty fun _ => rfl
  refine ⟨⟨?_,by decide,fun j _ c hc => ?_⟩,Nat.zero_le _,fun j _ _ => hnone j⟩
  · rw [total, owned, pages_empty fun _ => rfl]
    decide
  · cases (hnone j).symm.trans hc

theorem growproc_runs_idle : ∃ p₁ r p₂, growAll 5 10 5 [8192,-4096] idle = some p₁ ∧
    growproc 5 10 5 40960 p₁ = some (r,p₂) ∧ Grown 5 40960 r p₁ p₂ ∧
      total 5 p₂.mem = total 5 idle.mem := by
  obtain ⟨p₁,r,p₂,hns,hn,hg,_,ht,_⟩ := growproc_runs [8192,-4096] 40960 sized_idle
  exact ⟨p₁,r,p₂,hns,hn,hg,ht⟩

end Processes

end CShellXv6.Vm
