import CShellXv6.Library.SpinLock

/-! # Programs on one processor

With one processor nothing happens to the data while a lock is held, since no trap comes then.
A program is followed with the data as they are while it holds a lock. Where it holds none, the
data may be replaced by any other quiet data, unless the processor is in its scheduler, which is
only trapped at the head of its loop. Threads are switched in quiet states as well.
-/
namespace CShellXv6.SpinLock
open Transition
variable {H L T ι σ : Type*}

/-- The states in which the processor may turn to something else and those in which it runs no
thread, what is assumed of the writes and what is shown of them, and the entry points of the
scheduler. -/
structure Regime (ι σ : Type*) where
  Quiet : σ → Prop
  Idle : σ → Prop
  Assumed : σ → σ → Prop
  Shown : σ → σ → Prop
  sched : ι → Bool

namespace Regime
variable (r : Regime ι σ)

def Steady (b : Bool) (s : σ) : Prop := r.Quiet s ∧ (b = true → r.Idle s)

/-- The next instruction is reached in the scheduler or not, with a number of locks. -/
def Next : Bool → ℕ → (σ → Prop) → σ → Prop
  | _, _ + 1, P, s => P s
  | true, 0, P, s => r.Steady true s ∧ P s
  | false, 0, P, s => r.Quiet s ∧ ∀ s', r.Quiet s' → P s'

/-- The program goes well from these data. -/
def Safe (h : H) : Prog H L T ι σ → Bool → ℕ → σ → Prop
  | .done, b, _, s => r.Steady b s
  | .halt, _, _, _ => True
  | .acquire _ p, b, k, s => Safe h p b (k + 1) s
  | .release _ p, b, k, s => r.Next b (k - 1) (Safe h p b (k - 1)) s
  | .act f p, b, k, s => r.Assumed s (f s) → r.Shown s (f s) ∧ r.Next b k (Safe h p b k) (f s)
  | .look p, b, k, s => r.Next b k (Safe h (p h s) b k) s
  | .goto e, b, _, s => r.sched e = b ∧ r.Steady b s
  | .spawn _ e p, b, k, s => r.sched e = false ∧ r.Next b k (Safe h p b k) s
  | .park _ e p, b, k, s =>
    b = false ∧ r.sched e = true ∧ r.Quiet s ∧ ∀ s', r.Quiet s' → Safe h p false k s'
  | .resume _, b, _, s => b = true ∧ r.Quiet s

variable {r}

theorem Steady.of_quiet {s : σ} (hs : r.Quiet s) : r.Steady false s := ⟨hs,nofun⟩

theorem Next.now {b : Bool} {k : ℕ} {P : σ → Prop} {s : σ} (h : r.Next b k P s) : P s := by
  cases k with
  | zero =>
    cases b with
    | true => exact h.2
    | false => exact h.2 s h.1
  | succ k => exact h

theorem Next.of_steady {b : Bool} {P : σ → Prop} (hP : ∀ s, r.Steady b s → P s) {s : σ}
    (hs : r.Steady b s) (k : ℕ) : r.Next b k P s := by
  cases k with
  | zero =>
    cases b with
    | true => exact ⟨hs,hP s hs⟩
    | false => exact ⟨hs.1,fun s' hs' => hP s' (.of_quiet hs')⟩
  | succ k => exact hP s hs

/-! ## Programs that keep the data steady -/

variable (r)

/-- Every write of the program keeps the data steady. -/
def Keeps (b : Bool) : Prog H L T ι σ → Prop
  | .done => True
  | .halt => True
  | .acquire _ p => Keeps b p
  | .release _ p => Keeps b p
  | .act f p => (∀ s, r.Steady b s → r.Assumed s (f s) → r.Shown s (f s) ∧ r.Steady b (f s)) ∧
      Keeps b p
  | .look p => ∀ h s, r.Steady b s → Keeps b (p h s)
  | .goto e => r.sched e = b
  | .spawn _ e p => r.sched e = false ∧ Keeps b p
  | .park _ e p => b = false ∧ r.sched e = true ∧ Keeps b p
  | .resume _ => False

variable {r}

theorem Keeps.foldr {b : Bool} {α : Type*} {f : α → Prog H L T ι σ → Prog H L T ι σ}
    {k : Prog H L T ι σ} (hk : r.Keeps b k) (hf : ∀ a k, r.Keeps b k → r.Keeps b (f a k))
    (l : List α) : r.Keeps b (l.foldr f k) := by
  induction l with
  | nil => exact hk
  | cons a rest ih => exact hf a _ ih

theorem Keeps.safe {b : Bool} (h : H) {p : Prog H L T ι σ} (hp : r.Keeps b p) (k : ℕ) {s : σ}
    (hs : r.Steady b s) : r.Safe h p b k s := by
  induction p generalizing k s with
  | done => exact hs
  | halt => trivial
  | acquire l p ih => exact ih hp (k + 1) hs
  | release l p ih => exact Next.of_steady (fun s hs => ih hp (k - 1) hs) hs _
  | act f p ih =>
    intro hassumed
    obtain ⟨hshown,hsteady⟩ := hp.1 s hs hassumed
    exact ⟨hshown,Next.of_steady (fun s hs => ih hp.2 k hs) hsteady k⟩
  | look p ih => exact Next.of_steady (fun s' hs' => ih h s (hp h s hs) k hs') hs k
  | goto e => exact ⟨hp,hs⟩
  | spawn t e p ih => exact ⟨hp.1,Next.of_steady (fun s hs => ih hp.2 k hs) hs k⟩
  | park t e p ih =>
    obtain ⟨rfl,he,hp⟩ := hp
    exact ⟨rfl,he,hs.1,fun s' hs' => ih hp k (.of_quiet hs')⟩
  | resume t => exact hp.elim

/-! ## The machine -/

section Machine
variable (r) (code : Code H L T ι σ) (d : Discipline L ι) (top : ι) (h : H)

/-- The programs at the entry points are safe, and so is a trap at the head of the loop of the
scheduler, which starts at `top`. -/
structure Sound : Prop where
  top : r.sched top = true ∧ d.holds top = []
  body : ∀ e {s}, r.Quiet s → (d.holds e = [] → r.sched e = true → r.Idle s) →
    r.Safe h (code.body e) (r.sched e) (d.holds e).length s
  traps : ∀ {s user e}, code.traps h s user e = true → r.sched e = false
  idle : ∀ {s e}, code.traps h s false e = true → r.Steady true s → r.Safe h (code.body e) true 0 s

/-- The frames below the one that runs. -/
def Below : Bool → List (Prog H L T ι σ) → Prop
  | false, rest => ∀ q ∈ rest, ∀ s, r.Quiet s → r.Safe h q false 0 s
  | true, rest => rest = [] ∨ rest = [code.body top]

def Stack (k : ℕ) (s : σ) : List (Prog H L T ι σ) → Prop
  | [] => r.Quiet s
  | p :: rest => ∃ b, r.Below code top h b rest ∧ r.Next b k (r.Safe h p b k) s

/-- The frames of a thread that is not on the processor. -/
def Parked (frames : List (Prog H L T ι σ)) : Prop :=
  ∃ p rest, frames = p :: rest ∧ (∀ s, r.Quiet s → r.Safe h p false 1 s) ∧
    r.Below code top h false rest

structure Governs (m : Machine H L T ι σ) : Prop where
  frames : r.Stack code top h (m.noff h) m.data (m.frames h)
  saved : ∀ t, r.Parked code top h (m.saved t)

/-- The scheduler is trapped only at the head of its loop. -/
def Masked (m : Machine H L T ι σ) (e : Event H ι) : Prop :=
  ∀ e', e = .trap h e' → r.Idle m.data → m.frames h = [] ∨ m.frames h = [code.body top]

end Machine

variable {code : Code H L T ι σ} {d : Discipline L ι} {top : ι} {h : H}

theorem Below.stack (hs : r.Sound code d top h) {b : Bool} {rest : List (Prog H L T ι σ)}
    (hb : r.Below code top h b rest) {s : σ} (hsteady : r.Steady b s) :
    r.Stack code top h 0 s rest := by
  cases rest with
  | nil => exact hsteady.1
  | cons q rest =>
    cases b with
    | false =>
      refine ⟨false,fun q hq => hb q (List.mem_cons_of_mem _ hq),hsteady.1,?_⟩
      exact hb q List.mem_cons_self
    | true =>
      obtain ⟨rfl,rfl⟩ := List.cons.inj (hb.resolve_left (List.cons_ne_nil _ _))
      have hbody := hs.body top hsteady.1 fun _ _ => hsteady.2 rfl
      rw [hs.top.1, hs.top.2] at hbody
      exact ⟨true,Or.inl rfl,hsteady,hbody⟩

/-- The program at an entry point is the next to run. -/
theorem Sound.next (hs : r.Sound code d top h) {e : ι} {s : σ} (hsteady : r.Steady (r.sched e) s) :
    r.Next (r.sched e) (d.holds e).length
      (r.Safe h (code.body e) (r.sched e) (d.holds e).length) s :=
  Next.of_steady (fun _ hs' => hs.body e hs'.1 fun _ => hs'.2) hsteady _

/-- The program at an entry point of a thread, in any quiet state. -/
theorem Sound.thread (hs : r.Sound code d top h) {e : ι} (hsched : r.sched e = false) {s : σ}
    (hquiet : r.Quiet s) : r.Safe h (code.body e) false (d.holds e).length s := by
  have hbody := hs.body e hquiet fun _ hsched' =>
    absurd (hsched.symm.trans hsched') Bool.false_ne_true
  rwa [hsched] at hbody

/-- The scheduler goes on when a thread has been parked. -/
theorem Sound.back (hs : r.Sound code d top h) {e : ι} {l : L} (hsched : r.sched e = true)
    (hholds : d.holds e = [l]) {s : σ} (hquiet : r.Quiet s) :
    r.Safe h (code.body e) true 1 s := by
  have hbody := hs.body e hquiet fun hnil => absurd (hholds.symm.trans hnil) (List.cons_ne_nil _ _)
  rwa [hsched, hholds] at hbody

theorem Sound.spawned (hs : r.Sound code d top h) {e : ι} {l : L} (hsched : r.sched e = false)
    (hholds : d.holds e = [l]) : r.Parked code top h [code.body e] := by
  refine ⟨_,_,rfl,fun s hquiet => ?_,fun q hq => absurd hq List.not_mem_nil⟩
  have hbody := hs.thread hsched hquiet
  rwa [hholds] at hbody

variable [DecidableEq H] [DecidableEq L] [DecidableEq T] {m m' : Machine H L T ι σ}
  {held : H → List L}

omit [DecidableEq L] [DecidableEq T] in
theorem Governs.put {k : ℕ} {s : σ} {frames : List (Prog H L T ι σ)}
    (hf : r.Stack code top h k s frames) (hsaved : ∀ t, r.Parked code top h (m.saved t))
    {noff : H → ℕ} (hk : noff h = k) (owner : L → Option H) :
    r.Governs code top h { m.put h frames with noff, owner, data := s } := by
  refine ⟨?_,hsaved⟩
  have hframes : (m.put h frames).frames h = frames := Function.update_self _ _ _
  show r.Stack code top h (noff h) s ((m.put h frames).frames h)
  rw [hframes, hk]
  exact hf

omit [DecidableEq L] [DecidableEq T] in
theorem Governs.frame {b : Bool} {k : ℕ} {s : σ} {p : Prog H L T ι σ}
    {rest : List (Prog H L T ι σ)} (hb : r.Below code top h b rest)
    (hp : r.Next b k (r.Safe h p b k) s) (hsaved : ∀ t, r.Parked code top h (m.saved t))
    {noff : H → ℕ} (hk : noff h = k) (owner : L → Option H) :
    r.Governs code top h { m.put h (p :: rest) with noff, owner, data := s } := by
  have hf : r.Stack code top h k s (p :: rest) := ⟨b,hb,hp⟩
  exact Governs.put hf hsaved hk owner

omit [DecidableEq H] [DecidableEq L] in
theorem Governs.park (hsaved : ∀ t, r.Parked code top h (m.saved t)) {t : T}
    {frames : List (Prog H L T ι σ)} (hf : r.Parked code top h frames) (q : T) :
    r.Parked code top h (Function.update m.saved t frames q) := by
  by_cases hq : q = t
  · subst hq
    simpa using hf
  · simpa [hq] using hsaved q

/-- A step of the program that runs. What it writes is shown if it is assumed. -/
theorem Governs.exec [Subsingleton H] (hs : r.Sound code d top h)
    (hheld : Disciplined code d m held) (hm : r.Governs code top h m) {p : Prog H L T ι σ}
    {rest : List (Prog H L T ι σ)} (hf : m.frames h = p :: rest)
    (he : m.exec code h rest p = some m') (ha : r.Assumed m.data m'.data) :
    r.Governs code top h m' ∧ (m'.data = m.data ∨ r.Shown m.data m'.data) := by
  have hordered := hheld.frames h
  have hframes := hm.frames
  have hcount := hheld.noff h
  rw [hf] at hordered hframes
  obtain ⟨b,hbelow,hnext⟩ := hframes
  have hsafe := hnext.now
  cases p with
  | done =>
    cases he
    have hnil : held h = [] := hordered.1
    rw [hnil] at hcount
    exact ⟨Governs.put (hbelow.stack hs hsafe) hm.saved hcount m.owner,Or.inl rfl⟩
  | halt => cases he
  | acquire l p =>
    simp only [Machine.exec] at he
    split at he
    · cases he
      refine ⟨Governs.frame (k := m.noff h + 1) hbelow hsafe hm.saved ?_ _,Or.inl rfl⟩
      exact Function.update_self _ _ _
    · next h' howner =>
      rw [Subsingleton.elim h' h] at howner
      exact absurd ((hheld.owner h l).mp howner) hordered.1.1.not_mem
  | release l p =>
    simp only [Machine.exec, (hheld.owner h l).mpr hordered.1.1, ↓reduceIte] at he
    cases he
    refine ⟨Governs.frame hbelow hsafe hm.saved ?_ _,Or.inl rfl⟩
    exact Function.update_self _ _ _
  | act f p =>
    cases he
    obtain ⟨hshown,hnext⟩ := hsafe ha
    exact ⟨Governs.frame hbelow hnext hm.saved rfl m.owner,Or.inr hshown⟩
  | look p =>
    cases he
    exact ⟨Governs.frame hbelow hsafe hm.saved rfl m.owner,Or.inl rfl⟩
  | goto e =>
    cases he
    obtain ⟨rfl,hsteady⟩ := hsafe
    have hholds : held h = d.holds e := hordered.1
    rw [hholds] at hcount
    exact ⟨Governs.frame hbelow (hs.next hsteady) hm.saved hcount m.owner,Or.inl rfl⟩
  | spawn t e p =>
    cases he
    obtain ⟨hsched,hnext⟩ := hsafe
    have hparked := hs.spawned hsched hordered.1.1
    have hput := Governs.frame (m := m) hbelow hnext hm.saved rfl m.owner
    exact ⟨⟨hput.frames,Governs.park hm.saved hparked⟩,Or.inl rfl⟩
  | park t e p =>
    obtain ⟨hlock,hholds,_⟩ := hordered.1
    simp only [Machine.exec, hheld.lock_held hlock, and_self, ↓reduceIte] at he
    cases he
    obtain ⟨rfl,hsched,hquiet,hp⟩ := hsafe
    rw [hlock] at hcount
    rw [hcount] at hp
    have hput := Governs.frame (m := m) (b := true) (k := 1) (Or.inl rfl)
      (hs.back hsched hholds hquiet) hm.saved hcount m.owner
    exact ⟨⟨hput.frames,Governs.park hm.saved ⟨p,rest,rfl,hp,hbelow⟩⟩,Or.inl rfl⟩
  | resume t =>
    cases he
    obtain ⟨rfl,hquiet⟩ := hsafe
    have hlock : held h = [code.lock t] := hordered.1
    rw [hlock] at hcount
    obtain ⟨p,rest',hsaved,hp,hrest⟩ := hm.saved t
    refine ⟨Governs.put ?_ hm.saved hcount m.owner,Or.inl rfl⟩
    rw [hsaved]
    exact ⟨false,hrest,hp m.data hquiet⟩

omit [DecidableEq T] in
/-- A trap comes while no lock is held. -/
theorem Governs.trap (hd : d.Sound code) (hs : r.Sound code d top h) (hm : r.Governs code top h m)
    {e : ι} (hoff : m.noff h = 0)
    (htrap : code.traps h m.data (m.frames h).isEmpty e = true)
    (hmasked : r.Masked code top h m (.trap h e)) :
    r.Governs code top h (m.put h (code.body e :: m.frames h)) := by
  have hbody : ∀ s, r.Quiet s → r.Safe h (code.body e) false 0 s := by
    intro s hquiet
    have hbody := hs.thread (hs.traps htrap) hquiet
    rwa [hd.traps htrap] at hbody
  refine Governs.put ?_ hm.saved hoff m.owner
  have hframes := hm.frames
  rw [hoff] at hframes
  cases hf : m.frames h with
  | nil =>
    rw [hf] at hframes
    exact ⟨false,fun q hq => absurd hq List.not_mem_nil,hframes,hbody⟩
  | cons p rest =>
    rw [hf] at hframes htrap
    obtain ⟨b,hbelow,hnext⟩ := hframes
    cases b with
    | false =>
      refine ⟨false,fun q hq => ?_,hnext.1,hbody⟩
      rcases List.mem_cons.mp hq with rfl | hq
      · exact hnext.2
      · exact hbelow q hq
    | true =>
      have hhead := hmasked e rfl (hnext.1.2 rfl)
      rw [hf] at hhead
      exact ⟨true,Or.inr (hhead.resolve_left (List.cons_ne_nil _ _)),hnext.1,hs.idle htrap hnext.1⟩

theorem Governs.step [Subsingleton H] (hd : d.Sound code) (hs : r.Sound code d top h)
    (hheld : Disciplined code d m held) (hm : r.Governs code top h m) {e : Event H ι}
    (hmasked : r.Masked code top h m e) (he : SpinLock.step code m e = some m')
    (ha : r.Assumed m.data m'.data) :
    r.Governs code top h m' ∧ (m'.data = m.data ∨ r.Shown m.data m'.data) := by
  cases e with
  | run q =>
    rw [Subsingleton.elim q h] at he
    simp only [SpinLock.step] at he
    split at he
    · cases he
    · next p rest hf => exact hm.exec hs hheld hf he ha
  | trap q e =>
    rw [Subsingleton.elim q h] at he hmasked
    obtain ⟨⟨hoff,htrap⟩,he⟩ := Option.ite_none_right_eq_some.mp he
    cases he
    exact ⟨hm.trap hd hs hoff htrap hmasked,Or.inl rfl⟩

end Regime

end CShellXv6.SpinLock
