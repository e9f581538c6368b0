import CShellXv6.Library.Transition
import Mathlib.Data.List.Nodup
import Mathlib.Logic.Function.Basic

/-! # Processors that share spin locks

Processors run programs that take and release spin locks and switch between
threads, each switch with only the lock of the thread held. A processor that
holds no lock can be trapped. When locks are taken in the order of a rank, no
cycle of processors waits for one another; acquisitions that break the order are
singled out as risky and do no harm as long as they do not have to wait.
-/
namespace CShellXv6.SpinLock
open Transition

/-- Programs of processors `H` over locks `L`, threads `T`, entry points `ι` and
shared data `σ`. A thread parks to continue elsewhere and is resumed from there. -/
inductive Prog (H L T ι σ : Type*)
  | done
  | halt
  | acquire (l : L) (k : Prog H L T ι σ)
  | release (l : L) (k : Prog H L T ι σ)
  | act (f : σ → σ) (k : Prog H L T ι σ)
  | look (k : H → σ → Prog H L T ι σ)
  | goto (e : ι)
  | spawn (t : T) (e : ι) (k : Prog H L T ι σ)
  | park (t : T) (e : ι) (k : Prog H L T ι σ)
  | resume (t : T)

/-- The programs at the entry points, the lock of each thread, and the traps that
can happen on a processor, in user mode or not. -/
structure Code (H L T ι σ : Type*) where
  lock : T → L
  body : ι → Prog H L T ι σ
  traps : H → σ → Bool → ι → Bool

/-- A processor runs the first of its frames; `noff` counts the locks it holds. -/
structure Machine (H L T ι σ : Type*) where
  frames : H → List (Prog H L T ι σ)
  noff : H → ℕ
  owner : L → Option H
  saved : T → List (Prog H L T ι σ)
  data : σ

inductive Event (H ι : Type*)
  | run (h : H)
  | trap (h : H) (e : ι)
  deriving DecidableEq

variable {H L T ι σ : Type*}

/-- The lock that a processor is about to take. -/
def Machine.stands (m : Machine H L T ι σ) (h : H) : Option L :=
  match m.frames h with
  | .acquire l _ :: _ => some l
  | _ => none

/-- One processor spins for a lock that the other holds. -/
def Machine.Waits (m : Machine H L T ι σ) (h h' : H) : Prop :=
  ∃ l, m.stands h = some l ∧ m.owner l = some h'

section Step
variable [DecidableEq H] [DecidableEq L] [DecidableEq T]

def Machine.put (m : Machine H L T ι σ) (h : H) (frames : List (Prog H L T ι σ)) :
    Machine H L T ι σ :=
  { m with frames := Function.update m.frames h frames }

/-- Taking a lock twice, releasing a lock that is not held and parking with other
locks held stop the processor. -/
def Machine.exec (code : Code H L T ι σ) (m : Machine H L T ι σ) (h : H)
    (rest : List (Prog H L T ι σ)) : Prog H L T ι σ → Option (Machine H L T ι σ)
  | .done => some (m.put h rest)
  | .halt => none
  | .acquire l k =>
    match m.owner l with
    | none => some { m.put h (k :: rest) with
        owner := Function.update m.owner l (some h)
        noff := Function.update m.noff h (m.noff h + 1) }
    | some h' => if h' = h then some (m.put h [.halt]) else none
  | .release l k =>
    if m.owner l = some h then some { m.put h (k :: rest) with
        owner := Function.update m.owner l none
        noff := Function.update m.noff h (m.noff h - 1) }
    else some (m.put h [.halt])
  | .act f k => some { m.put h (k :: rest) with data := f m.data }
  | .look k => some (m.put h (k h m.data :: rest))
  | .goto e => some (m.put h (code.body e :: rest))
  | .spawn t e k => some { m.put h (k :: rest) with
      saved := Function.update m.saved t [code.body e] }
  | .park t e k =>
    if m.noff h = 1 ∧ m.owner (code.lock t) = some h then some { m.put h [code.body e] with
        saved := Function.update m.saved t (k :: rest) }
    else some (m.put h [.halt])
  | .resume t => some (m.put h (m.saved t))

/-- Only a write changes the data. -/
theorem Machine.exec_data {code : Code H L T ι σ} {m m' : Machine H L T ι σ} {h : H}
    {rest : List (Prog H L T ι σ)} {p : Prog H L T ι σ} (hp : ∀ f k, p ≠ .act f k)
    (he : m.exec code h rest p = some m') : m'.data = m.data := by
  cases p with
  | act f k => exact absurd rfl (hp f k)
  | halt => cases he
  | acquire l k =>
    simp only [exec] at he
    split at he
    · cases he
      rfl
    · split at he
      · cases he
        rfl
      · cases he
  | release l k =>
    simp only [exec] at he
    split at he
    · cases he
      rfl
    · cases he
      rfl
  | park t e k =>
    simp only [exec] at he
    split at he
    · cases he
      rfl
    · cases he
      rfl
  | _ =>
    cases he
    rfl

def step (code : Code H L T ι σ) (m : Machine H L T ι σ) : Event H ι → Option (Machine H L T ι σ)
  | .run h =>
    match m.frames h with
    | [] => none
    | p :: rest => m.exec code h rest p
  | .trap h e =>
    if m.noff h = 0 ∧ code.traps h m.data (m.frames h).isEmpty e = true then
      some (m.put h (code.body e :: m.frames h))
    else none

omit [DecidableEq H] [DecidableEq L] [DecidableEq T] in
/-- The next instruction of the processor is a write. -/
def Machine.writes (m : Machine H L T ι σ) : Event H ι → Bool
  | .run h =>
    match m.frames h with
    | .act _ _ :: _ => true
    | _ => false
  | .trap _ _ => false

theorem step_data {code : Code H L T ι σ} {m m' : Machine H L T ι σ} {e : Event H ι}
    (hw : m.writes e = false) (he : step code m e = some m') : m'.data = m.data := by
  cases e with
  | run h =>
    simp only [step] at he
    split at he
    · cases he
    · next p rest hf =>
      refine Machine.exec_data (fun f k hp => ?_) he
      simp [Machine.writes,hf,hp] at hw
  | trap h e =>
    obtain ⟨_,heq⟩ := Option.ite_none_right_eq_some.mp he
    cases heq
    rfl

end Step

/-! ## Lock order -/

/-- A rank of the locks, the pairs of a held and a wanted lock that are excepted
from it, and the locks held at each entry point. -/
structure Discipline (L ι : Type*) where
  rank : L → ℕ
  risky : L → L → Prop
  risky_irrefl : ∀ l, ¬risky l l
  holds : ι → List L

/-- The lock may be taken with these locks held. -/
def Discipline.Allows (d : Discipline L ι) (held : List L) (l : L) : Prop :=
  ∀ m ∈ held, d.rank m < d.rank l ∨ d.risky m l

theorem Discipline.Allows.not_mem {d : Discipline L ι} {held : List L} {l : L}
    (h : d.Allows held l) : l ∉ held := by
  intro hmem
  rcases h l hmem with hlt | hr
  · exact Nat.lt_irrefl _ hlt
  · exact d.risky_irrefl l hr

/-- No risky acquisition has to wait. -/
def Machine.Calm (d : Discipline L ι) (m : Machine H L T ι σ) : Prop :=
  ∀ h l held, m.stands h = some l → m.owner held = some h → d.risky held l → m.owner l = none

section Ordered
variable [DecidableEq L]

/-- The program respects the order when it starts with these locks held. -/
def Ordered (code : Code H L T ι σ) (d : Discipline L ι) : List L → Prog H L T ι σ → Prop
  | held, .done => held = []
  | _, .halt => True
  | held, .acquire l k => d.Allows held l ∧ Ordered code d (l :: held) k
  | held, .release l k => l ∈ held ∧ Ordered code d (held.erase l) k
  | held, .act _ k => Ordered code d held k
  | held, .look k => ∀ h s, Ordered code d held (k h s)
  | held, .goto e => held = d.holds e
  | held, .spawn t e k => d.holds e = [code.lock t] ∧ Ordered code d held k
  | held, .park t e k =>
    held = [code.lock t] ∧ d.holds e = [code.lock t] ∧ Ordered code d [code.lock t] k
  | held, .resume t => held = [code.lock t]

theorem Ordered.release {code : Code H L T ι σ} {d : Discipline L ι} {held : List L} {l : L}
    {k : Prog H L T ι σ} (hk : Ordered code d held k) :
    Ordered code d (l :: held) (.release l k) := by
  refine ⟨List.mem_cons_self,?_⟩
  rwa [List.erase_cons_head]

/-- A short critical section. -/
theorem Ordered.section {code : Code H L T ι σ} {d : Discipline L ι} {held : List L} {l : L}
    {f : σ → σ} {k : Prog H L T ι σ} (hl : d.Allows held l) (hk : Ordered code d held k) :
    Ordered code d held (.acquire l (.act f (.release l k))) := ⟨hl,hk.release⟩

theorem Ordered.foldr {α : Type*} {code : Code H L T ι σ} {d : Discipline L ι} {held : List L}
    {f : α → Prog H L T ι σ → Prog H L T ι σ} {k : Prog H L T ι σ} (hk : Ordered code d held k)
    (hf : ∀ a k, Ordered code d held k → Ordered code d held (f a k)) (l : List α) :
    Ordered code d held (l.foldr f k) := by
  induction l with
  | nil => exact hk
  | cons a rest ih => exact hf a _ ih

/-- The frames of a processor or of a parked thread. -/
def StackOk (code : Code H L T ι σ) (d : Discipline L ι) (held : List L) :
    List (Prog H L T ι σ) → Prop
  | [] => held = []
  | p :: rest => Ordered code d held p ∧ ∀ q ∈ rest, Ordered code d [] q

/-- All entry points respect the order, and traps start with no lock. -/
structure Discipline.Sound (d : Discipline L ι) (code : Code H L T ι σ) : Prop where
  body : ∀ e, Ordered code d (d.holds e) (code.body e)
  traps : ∀ {h s user e}, code.traps h s user e = true → d.holds e = []

/-- The locks that each processor holds, in agreement with the machine. -/
structure Disciplined (code : Code H L T ι σ) (d : Discipline L ι) (m : Machine H L T ι σ)
    (held : H → List L) : Prop where
  owner : ∀ h l, m.owner l = some h ↔ l ∈ held h
  nodup : ∀ h, (held h).Nodup
  noff : ∀ h, m.noff h = (held h).length
  frames : ∀ h, StackOk code d (held h) (m.frames h)
  saved : ∀ t, StackOk code d [code.lock t] (m.saved t)

/-- The locks that are held after a step of the program. -/
def Prog.locks (held : List L) : Prog H L T ι σ → List L
  | .acquire l _ => l :: held
  | .release l _ => held.erase l
  | _ => held

variable {code : Code H L T ι σ} {d : Discipline L ι} {m m' : Machine H L T ι σ}
  {held : H → List L}

theorem Disciplined.nil_of_noff (h : Disciplined code d m held) {p : H} (hp : m.noff p = 0) :
    held p = [] :=
  List.length_eq_zero_iff.mp ((h.noff p).symm.trans hp)

/-- A processor that holds only the lock of a thread may park it. -/
theorem Disciplined.lock_held (h : Disciplined code d m held) {p : H} {t : T}
    (hp : held p = [code.lock t]) : m.noff p = 1 ∧ m.owner (code.lock t) = some p := by
  constructor
  · rw [h.noff p, hp, List.length_singleton]
  · apply (h.owner p _).mpr
    rw [hp]
    exact List.mem_singleton_self _

theorem StackOk.pop {p : Prog H L T ι σ} {rest : List (Prog H L T ι σ)} {hs : List L}
    (h : StackOk code d hs (p :: rest)) : StackOk code d [] rest := by
  cases rest with
  | nil => rfl
  | cons q rest =>
    exact ⟨h.2 q List.mem_cons_self,fun r hr => h.2 r (List.mem_cons_of_mem _ hr)⟩

/-! ### Steps -/

theorem Disciplined.setData (h : Disciplined code d m held) (s : σ) :
    Disciplined code d { m with data := s } held :=
  ⟨h.owner,h.nodup,h.noff,h.frames,h.saved⟩

theorem Disciplined.setSaved [DecidableEq T] (h : Disciplined code d m held) {t : T}
    {frames : List (Prog H L T ι σ)} (hf : StackOk code d [code.lock t] frames) :
    Disciplined code d { m with saved := Function.update m.saved t frames } held := by
  refine ⟨h.owner,h.nodup,h.noff,h.frames,fun q => ?_⟩
  by_cases hq : q = t
  · subst hq
    simpa using hf
  · simpa [hq] using h.saved q

variable [DecidableEq H]

theorem Disciplined.update (h : Disciplined code d m held) {p : H} {hs : List L}
    {frames : List (Prog H L T ι σ)} (hf : StackOk code d hs frames) (q : H) :
    StackOk code d (Function.update held p hs q) ((m.put p frames).frames q) := by
  by_cases hq : q = p
  · subst hq
    simpa [Machine.put] using hf
  · simpa [Machine.put,hq] using h.frames q

/-- A step that changes no owner. -/
theorem Disciplined.put (h : Disciplined code d m held) (p : H) (frames : List (Prog H L T ι σ))
    (hf : StackOk code d (held p) frames) : Disciplined code d (m.put p frames) held := by
  have hframes := h.update (p := p) hf
  rw [Function.update_eq_self] at hframes
  exact ⟨h.owner,h.nodup,h.noff,hframes,h.saved⟩

theorem Disciplined.acquire (h : Disciplined code d m held) {p : H} {l : L}
    {frames : List (Prog H L T ι σ)} (hfree : m.owner l = none)
    (hf : StackOk code d (l :: held p) frames) :
    Disciplined code d { m.put p frames with
      owner := Function.update m.owner l (some p)
      noff := Function.update m.noff p (m.noff p + 1) } (Function.update held p (l :: held p)) := by
  have hnot : ∀ q, l ∉ held q := fun q hmem => by
    have := (h.owner q l).mpr hmem
    rw [hfree] at this
    cases this
  refine ⟨fun q k => ?_,fun q => ?_,fun q => ?_,h.update hf,h.saved⟩
  · by_cases hk : k = l
    · subst hk
      by_cases hq : q = p
      · simp [hq]
      · simp [hq,hnot q,Ne.symm hq]
    · by_cases hq : q = p
      · simp [hk,hq,h.owner]
      · simp [hk,hq,h.owner]
  · by_cases hq : q = p
    · simp [hq,hnot p,h.nodup p]
    · simpa [hq] using h.nodup q
  · by_cases hq : q = p
    · simp [hq,h.noff p]
    · simpa [hq] using h.noff q

theorem Disciplined.release (h : Disciplined code d m held) {p : H} {l : L}
    {frames : List (Prog H L T ι σ)} (hmem : l ∈ held p)
    (hf : StackOk code d ((held p).erase l) frames) :
    Disciplined code d { m.put p frames with
      owner := Function.update m.owner l none
      noff := Function.update m.noff p (m.noff p - 1) }
      (Function.update held p ((held p).erase l)) := by
  have hnot : ∀ q, q ≠ p → l ∉ held q := fun q hq hmem' => by
    have h1 := (h.owner q l).mpr hmem'
    rw [(h.owner p l).mpr hmem] at h1
    exact hq (Option.some.inj h1).symm
  refine ⟨fun q k => ?_,fun q => ?_,fun q => ?_,h.update hf,h.saved⟩
  · by_cases hk : k = l
    · subst hk
      by_cases hq : q = p
      · simp [hq,(h.nodup p).not_mem_erase]
      · simp [hq,hnot q hq]
    · by_cases hq : q = p
      · simp [hk,hq,h.owner,List.mem_erase_of_ne hk]
      · simp [hk,hq,h.owner]
  · by_cases hq : q = p
    · simpa [hq] using (h.nodup p).erase l
    · simpa [hq] using h.nodup q
  · by_cases hq : q = p
    · simp [hq,h.noff p,List.length_erase_of_mem hmem]
    · simpa [hq] using h.noff q

variable [DecidableEq T]

theorem Disciplined.exec (hd : d.Sound code) (h : Disciplined code d m held) {p : H}
    {prog : Prog H L T ι σ} {rest : List (Prog H L T ι σ)} (hf : m.frames p = prog :: rest)
    (he : m.exec code p rest prog = some m') :
    Disciplined code d m' (Function.update held p (prog.locks (held p))) := by
  have hstack := h.frames p
  rw [hf] at hstack
  obtain ⟨hprog,hrest⟩ := hstack
  have hsame : Function.update held p (held p) = held := Function.update_eq_self p held
  cases prog with
  | done =>
    cases he
    have hnil : held p = [] := hprog
    simp only [Prog.locks, hsame]
    exact h.put p _ (hnil ▸ StackOk.pop ⟨hprog,hrest⟩)
  | halt => cases he
  | acquire l k =>
    simp only [Machine.exec] at he
    split at he
    · next hfree =>
      cases he
      exact h.acquire hfree ⟨hprog.2,hrest⟩
    · next p' howner =>
      split at he
      · next heq =>
        rw [heq] at howner
        exact absurd ((h.owner p l).mp howner) hprog.1.not_mem
      · cases he
  | release l k =>
    simp only [Machine.exec, (h.owner p l).mpr hprog.1, ↓reduceIte] at he
    cases he
    exact h.release hprog.1 ⟨hprog.2,hrest⟩
  | act f k =>
    cases he
    simp only [Prog.locks, hsame]
    exact (h.put p (k :: rest) ⟨hprog,hrest⟩).setData (f m.data)
  | look k =>
    cases he
    simp only [Prog.locks, hsame]
    exact h.put p _ ⟨hprog p m.data,hrest⟩
  | goto e =>
    cases he
    have hheld : held p = d.holds e := hprog
    simp only [Prog.locks, hsame]
    exact h.put p _ ⟨hheld ▸ hd.body e,hrest⟩
  | spawn t e k =>
    cases he
    simp only [Prog.locks, hsame]
    refine (h.put p (k :: rest) ⟨hprog.2,hrest⟩).setSaved ?_
    exact ⟨hprog.1 ▸ hd.body e,by simp⟩
  | park t e k =>
    obtain ⟨hheld,hentry,hk⟩ := hprog
    simp only [Machine.exec, h.lock_held hheld, and_self, ↓reduceIte] at he
    cases he
    simp only [Prog.locks, hsame]
    refine (h.put p [code.body e] ⟨?_,by simp⟩).setSaved ⟨hk,hrest⟩
    rw [hheld, ← hentry]
    exact hd.body e
  | resume t =>
    cases he
    have hheld : held p = [code.lock t] := hprog
    simp only [Prog.locks, hsame]
    exact h.put p _ (hheld ▸ h.saved t)

omit [DecidableEq T] in
/-- A processor that holds no lock is trapped. -/
theorem Disciplined.trap (hd : d.Sound code) (h : Disciplined code d m held) {p : H} {e : ι}
    (hnil : held p = []) (he : d.holds e = []) :
    Disciplined code d (m.put p (code.body e :: m.frames p)) held := by
  refine h.put p _ ⟨?_,fun q hq => ?_⟩
  · rw [hnil, ← he]
    exact hd.body e
  · have hstack := h.frames p
    cases hf : m.frames p with
    | nil =>
      rw [hf] at hq
      cases hq
    | cons r rest =>
      rw [hf] at hstack hq
      rcases List.mem_cons.mp hq with rfl | hq
      · exact hnil ▸ hstack.1
      · exact hstack.2 q hq

/-- Every step keeps the locks in order. -/
theorem Disciplined.step (hd : d.Sound code) (h : Disciplined code d m held) {e : Event H ι}
    (he : SpinLock.step code m e = some m') : ∃ held', Disciplined code d m' held' := by
  cases e with
  | run p =>
    simp only [SpinLock.step] at he
    split at he
    · cases he
    · next prog rest hf => exact ⟨_,h.exec hd hf he⟩
  | trap p e =>
    obtain ⟨⟨hoff,htrap⟩,he⟩ := Option.ite_none_right_eq_some.mp he
    cases he
    exact ⟨held,h.trap hd (h.nil_of_noff hoff) (hd.traps htrap)⟩

theorem Disciplined.runs (hd : d.Sound code) (h : Disciplined code d m held)
    {guard : Machine H L T ι σ → Event H ι → Prop} (hr : Runs (SpinLock.step code) guard m m') :
    ∃ held', Disciplined code d m' held' :=
  hr.invariant (I := fun m => ∃ held, Disciplined code d m held) ⟨held,h⟩
    (fun _ _ _ ⟨_,hs⟩ _ he => hs.step hd he)

end Ordered

/-! ### No cycles -/

section Cycle
variable [DecidableEq L] {code : Code H L T ι σ} {d : Discipline L ι} {m : Machine H L T ι σ}
  {held : H → List L}

theorem Disciplined.stands (h : Disciplined code d m held) {p : H} {l : L}
    (hl : m.stands p = some l) : d.Allows (held p) l := by
  have hstack := h.frames p
  unfold Machine.stands at hl
  split at hl
  · next k rest hf =>
    cases hl
    rw [hf] at hstack
    exact hstack.1.1
  · cases hl

/-- Along a chain of waiting processors the rank of the lock waited for grows. -/
theorem Disciplined.chain (h : Disciplined code d m held) (hc : m.Calm d) {p q r : H} {l k : L}
    (hpq : Relation.TransGen m.Waits p q) (hl : m.stands p = some l) (hk : m.stands q = some k)
    (howner : m.owner k = some r) : d.rank l < d.rank k := by
  have hedge : ∀ {p q r : H} {l k : L}, m.stands p = some l → m.owner l = some q →
      m.stands q = some k → m.owner k = some r → d.rank l < d.rank k := by
    intro p q r l k hl hq hk hr
    rcases h.stands hk l ((h.owner q l).mp hq) with hlt | hrisky
    · exact hlt
    · have hnone := hc q k l hk hq hrisky
      rw [hr] at hnone
      cases hnone
  induction hpq generalizing k r with
  | single hw =>
    obtain ⟨l',hl',howner'⟩ := hw
    rw [hl] at hl'
    cases hl'
    exact hedge hl howner' hk howner
  | tail _ hw ih =>
    obtain ⟨k',hk',howner'⟩ := hw
    exact Nat.lt_trans (ih hk' howner') (hedge hk' howner' hk howner)

theorem Disciplined.acyclic (h : Disciplined code d m held) (hc : m.Calm d) (p : H) :
    ¬Relation.TransGen m.Waits p p := by
  intro hcycle
  obtain ⟨q,⟨l,hl,howner⟩,_⟩ := Relation.TransGen.head'_iff.mp hcycle
  exact Nat.lt_irrefl _ (h.chain hc hcycle hl hl howner)

end Cycle

end CShellXv6.SpinLock
