import CShellXv6.Library.SpinLock

/-! # Protocols between processors that share spin locks

A protocol says which moves an agent may make on the shared data, and on a ghost
state beside it, with which locks held. A program meets the protocol when every
write of it is such a move. What it knows while it holds locks has to survive
the moves of the other processors; what it knows with no lock held has to
survive that its thread is interrupted and goes on elsewhere. When all programs
meet the protocol, every step of the machine is a move of the protocol.
-/
namespace CShellXv6.SpinLock
open Transition
variable {H L T ι σ G : Type*}

/-- A processor, the thread on whose stack it runs (none for its own stack), and
whether it handles a trap that interrupted the kernel. -/
structure Agent (H T : Type*) where
  processor : H
  thread : Option T
  nested : Bool

/-- Moves carry the trap they start, if any, and the locks held. A thread is at
home where it runs, and `User` holds of it in user mode; `Entry` and `pre` are who
may come to an entry point and what holds there. -/
structure Protocol (H L T ι σ G : Type*) where
  Inv : σ × G → Prop
  Move : Agent H T → Option ι → List L → σ × G → σ × G → Prop
  Home : Option T → H → σ × G → Prop
  User : Option T → σ × G → Prop
  Entry : ι → Option T → Bool → Prop
  pre : ι → Option T → H → σ × G → Prop
  inv_move : ∀ {a tr held w w'}, Move a tr held w w' → Inv w → Inv w'
  home_move : ∀ {a tr held w w'} (c h), Move a tr held w w' → Inv w → a.processor ≠ h →
    Home c h w → Home c h w'
  user_move : ∀ {a tr held w w'} (c), Move a tr held w w' → Inv w →
    (∀ t, c = some t → a.thread = some t → a.nested = true) → User c w → User c w'
  home_unique : ∀ {t h h' w}, Inv w → Home (some t) h w → Home (some t) h' w → h = h'

namespace Protocol
variable (pr : Protocol H L T ι σ G)

/-- Kept by every move that is not one of the thread itself outside its traps. -/
def Firm (c : Option T) (F : σ × G → Prop) : Prop :=
  ∀ ⦃a tr held w w'⦄, pr.Inv w → (∀ t, c = some t → a.thread = some t → a.nested = true) →
    pr.Move a tr held w w' → F w → F w'

/-- Kept by the moves of the other processors, which hold other locks. -/
def Steady (c : Option T) (h : H) (held : List L) (P : σ × G → Prop) : Prop :=
  ∀ ⦃a tr held' w w'⦄, pr.Inv w → a.processor ≠ h → (∀ t, c = some t → a.thread ≠ some t) →
    (∀ l ∈ held, l ∉ held') → pr.Move a tr held' w w' → P w → P w'

/-- At home with a fact. -/
def At (c : Option T) (h : H) (F : σ × G → Prop) (w : σ × G) : Prop := pr.Home c h w ∧ F w

/-- What can be known at a point of a program. A thread that is not at home holds
its own lock. -/
structure Point (lock : T → L) (c : Option T) (h : H) (held : List L) (P : σ × G → Prop) :
    Prop where
  steady : pr.Steady c h held P
  anchored : ∀ t, c = some t → ∀ w, pr.Inv w → P w → pr.Home c h w ∨ lock t ∈ held

/-- The program described by `M` can go on from the states in `P`. -/
def Stay (lock : T → L) (c : Option T) (M : H → List L → (σ × G → Prop) → Prop) (h : H)
    (held : List L) (P : σ × G → Prop) : Prop :=
  (held = [] ∧ ∃ F, pr.Firm c F ∧ (∀ w, pr.Inv w → P w → pr.At c h F w) ∧
    ∀ h', M h' [] (pr.At c h' F)) ∨
  (held ≠ [] ∧ ∃ Q, pr.Point lock c h held Q ∧ (∀ w, pr.Inv w → P w → Q w) ∧ M h held Q)

section Points
variable {pr} {lock : T → L} {c : Option T} {h : H} {held : List L} {P Q : σ × G → Prop}
  {M : H → List L → (σ × G → Prop) → Prop}

theorem Steady.and (hp : pr.Steady c h held P) (hq : pr.Steady c h held Q) :
    pr.Steady c h held (fun w => P w ∧ Q w) :=
  fun _ _ _ _ _ hi ha hc hl hm hw => ⟨hp hi ha hc hl hm hw.1,hq hi ha hc hl hm hw.2⟩

theorem Firm.and {F F' : σ × G → Prop} (hf : pr.Firm c F) (hf' : pr.Firm c F') :
    pr.Firm c (fun w => F w ∧ F' w) :=
  fun _ _ _ _ _ hi ha hm hw => ⟨hf hi ha hm hw.1,hf' hi ha hm hw.2⟩

theorem Firm.steady {F : σ × G → Prop} (hf : pr.Firm c F) : pr.Steady c h held F :=
  fun _ _ _ _ _ hi _ hc _ hm hw => hf hi (fun t ht ha => absurd ha (hc t ht)) hm hw

theorem home_steady : pr.Steady c h held (pr.Home c h) :=
  fun _ _ _ _ _ hi ha _ _ hm hw => pr.home_move c h hm hi ha hw

theorem Firm.point {F : σ × G → Prop} (hf : pr.Firm c F) : pr.Point lock c h held (pr.At c h F) :=
  ⟨home_steady.and hf.steady,fun _ _ _ _ hw => Or.inl hw.1⟩

theorem Steady.mono {held' : List L} (hp : pr.Steady c h held P) (hs : ∀ l ∈ held, l ∈ held') :
    pr.Steady c h held' P :=
  fun _ _ _ _ _ hi ha hc hl hm hw => hp hi ha hc (fun l h => hl l (hs l h)) hm hw

theorem Point.and (hp : pr.Point lock c h held P) (hq : pr.Steady c h held Q) :
    pr.Point lock c h held (fun w => P w ∧ Q w) :=
  ⟨hp.steady.and hq,fun t ht w hi hw => hp.anchored t ht w hi hw.1⟩

theorem Point.cons (hp : pr.Point lock c h held P) (l : L) : pr.Point lock c h (l :: held) P :=
  ⟨hp.steady.mono (fun _ => List.mem_cons_of_mem l),
    fun t ht w hi hw => (hp.anchored t ht w hi hw).imp_right (List.mem_cons_of_mem l)⟩

theorem Stay.free {F : σ × G → Prop} (hf : pr.Firm c F) (hp : ∀ w, pr.Inv w → P w → pr.At c h F w)
    (hm : ∀ h', M h' [] (pr.At c h' F)) : pr.Stay lock c M h [] P := Or.inl ⟨rfl,F,hf,hp,hm⟩

theorem Stay.locked (hne : held ≠ []) (hq : pr.Point lock c h held Q)
    (hp : ∀ w, pr.Inv w → P w → Q w) (hm : M h held Q) : pr.Stay lock c M h held P :=
  Or.inr ⟨hne,Q,hq,hp,hm⟩

theorem Stay.weaken (hs : pr.Stay lock c M h held Q) (hp : ∀ w, pr.Inv w → P w → Q w) :
    pr.Stay lock c M h held P := by
  rcases hs with ⟨hnil,F,hf,hq,hm⟩ | ⟨hne,R,hr,hq,hm⟩
  · exact Or.inl ⟨hnil,F,hf,fun w hi hw => hq w hi (hp w hi hw),hm⟩
  · exact Or.inr ⟨hne,R,hr,fun w hi hw => hq w hi (hp w hi hw),hm⟩

/-- What is known about a state from which the program can go on. -/
theorem Stay.known (hs : pr.Stay lock c M h held P) {w : σ × G} (hi : pr.Inv w) (hw : P w) :
    ∃ Q, Q w ∧ pr.Point lock c h held Q ∧ M h held Q := by
  rcases hs with ⟨rfl,F,hf,hp,hm⟩ | ⟨_,Q,hq,hp,hm⟩
  · exact ⟨_,hp w hi hw,hf.point,hm h⟩
  · exact ⟨Q,hp w hi hw,hq,hm⟩

theorem Stay.home (hs : pr.Stay lock c M h [] P) {w : σ × G} (hi : pr.Inv w) (hw : P w) :
    pr.Home c h w := by
  rcases hs with ⟨_,F,_,hp,_⟩ | ⟨hne,_⟩
  · exact (hp w hi hw).1
  · exact absurd rfl hne

end Points

variable [DecidableEq L]

/-- The program keeps to the protocol, started on a processor with these locks
held and this known. -/
def Meets (lock : T → L) (c : Option T) (nested : Bool) :
    Prog H L T ι σ → H → List L → (σ × G → Prop) → Prop
  | .done, _, _, P => nested = false → c ≠ none ∧ ∀ w, pr.Inv w → P w → pr.User c w
  | .halt, _, _, _ => True
  | .acquire l k, h, held, P => Meets lock c nested k h (l :: held) P
  | .release l k, h, held, P => pr.Stay lock c (Meets lock c nested k) h (held.erase l) P
  | .act f k, h, held, P => ∃ Q : σ × G → Prop,
      (∀ w, pr.Inv w → P w → ∃ g, pr.Move ⟨h,c,nested⟩ none held w (f w.1,g) ∧ Q (f w.1,g)) ∧
      pr.Stay lock c (Meets lock c nested k) h held Q
  | .look k, h, held, P => ∀ s, (∃ w, pr.Inv w ∧ P w ∧ w.1 = s) →
      pr.Stay lock c (Meets lock c nested (k h s)) h held (fun w => P w ∧ w.1 = s)
  | .goto e, h, _, P => pr.Entry e c nested ∧ ∀ w, pr.Inv w → P w → pr.pre e c h w
  | .spawn t e k, h, held, P => pr.Entry e (some t) false ∧
      (∃ F, pr.Firm (some t) F ∧ (∀ w, pr.Inv w → P w → F w) ∧
        ∀ h' w, pr.Inv w → pr.At (some t) h' F w → pr.pre e (some t) h' w) ∧
      pr.Stay lock c (Meets lock c nested k) h held P
  | .park t e k, h, _, P => c = some t ∧ pr.Entry e none false ∧
      (∀ w, pr.Inv w → P w → pr.pre e none h w) ∧
      ∃ F, pr.Firm c F ∧ (∀ w, pr.Inv w → P w → F w) ∧
        ∀ h', pr.Stay lock c (Meets lock c nested k) h' [lock t] (pr.At c h' F)
  | .resume t, h, _, P => c = none ∧ nested = false ∧
      ∀ w, pr.Inv w → P w → pr.Home (some t) h w

/-! ### Rules -/

section Rules
variable {pr} {lock : T → L} {c : Option T} {nested : Bool} {h : H} {held : List L} {l : L}
  {P Q F F' : σ × G → Prop} {f : σ → σ} {k : Prog H L T ι σ} {r : H → σ → Prog H L T ι σ}

theorem Meets.weaken (hk : pr.Meets lock c nested k h held Q) (hP : ∀ w, pr.Inv w → P w → Q w) :
    pr.Meets lock c nested k h held P := by
  induction k generalizing held with
  | done => exact fun hn => ⟨(hk hn).1,fun w hi hw => (hk hn).2 w hi (hP w hi hw)⟩
  | halt => trivial
  | acquire l k ih => exact ih hk
  | release l k => exact Stay.weaken hk hP
  | act f k =>
    obtain ⟨R,hmove,hstay⟩ := hk
    exact ⟨R,fun w hi hw => hmove w hi (hP w hi hw),hstay⟩
  | look r =>
    rintro s ⟨w,hi,hw,hs⟩
    exact (hk s ⟨w,hi,hP w hi hw,hs⟩).weaken (fun v hi hv => ⟨hP v hi hv.1,hv.2⟩)
  | goto e => exact ⟨hk.1,fun w hi hw => hk.2 w hi (hP w hi hw)⟩
  | spawn t e k =>
    obtain ⟨he,⟨R,hR,hRw,hpre⟩,hstay⟩ := hk
    exact ⟨he,⟨R,hR,fun w hi hw => hRw w hi (hP w hi hw),hpre⟩,hstay.weaken hP⟩
  | park t e k =>
    obtain ⟨hc,he,hpre,R,hR,hRw,hstay⟩ := hk
    exact ⟨hc,he,fun w hi hw => hpre w hi (hP w hi hw),R,hR,fun w hi hw => hRw w hi (hP w hi hw),
      hstay⟩
  | resume t => exact ⟨hk.1,hk.2.1,fun w hi hw => hk.2.2 w hi (hP w hi hw)⟩

theorem Meets.acquire (hk : pr.Meets lock c nested k h (l :: held) P) :
    pr.Meets lock c nested (.acquire l k) h held P := hk

theorem Meets.act (hmove : ∀ w, pr.Inv w → P w →
      ∃ g, pr.Move ⟨h,c,nested⟩ none held w (f w.1,g) ∧ Q (f w.1,g))
    (hne : held ≠ []) (hQ : pr.Point lock c h held Q) (hk : pr.Meets lock c nested k h held Q) :
    pr.Meets lock c nested (.act f k) h held P :=
  ⟨Q,hmove,Stay.locked hne hQ (fun _ _ hw => hw) hk⟩

theorem Meets.act_free (hmove : ∀ w, pr.Inv w → P w →
      ∃ g, pr.Move ⟨h,c,nested⟩ none [] w (f w.1,g) ∧ pr.At c h F (f w.1,g))
    (hF : pr.Firm c F) (hk : ∀ h', pr.Meets lock c nested k h' [] (pr.At c h' F)) :
    pr.Meets lock c nested (.act f k) h [] P :=
  ⟨_,hmove,Stay.free hF (fun _ _ hw => hw) hk⟩

theorem Meets.look (hne : held ≠ []) (hP : pr.Point lock c h held P)
    (hk : ∀ s, pr.Meets lock c nested (r h s) h held P) :
    pr.Meets lock c nested (.look r) h held P :=
  fun s _ => Stay.locked hne hP (fun _ _ hw => hw.1) (hk s)

theorem Meets.look_free (hF : pr.Firm c F)
    (hk : ∀ s h', pr.Meets lock c nested (r h s) h' [] (pr.At c h' F)) :
    pr.Meets lock c nested (.look r) h [] (pr.At c h F) :=
  fun s _ => Stay.free hF (fun _ _ hw => hw.1) (hk s)

theorem Meets.release_free (hF : pr.Firm c F) (hP : ∀ w, pr.Inv w → P w → pr.At c h F w)
    (hk : ∀ h', pr.Meets lock c nested k h' [] (pr.At c h' F)) :
    pr.Meets lock c nested (.release l k) h [l] P := by
  show pr.Stay lock c _ h ([l].erase l) P
  rw [List.erase_cons_head]
  exact Stay.free hF hP hk

theorem Meets.release_from {held' : List L} (he : held'.erase l = held) (hne : held ≠ [])
    (hQ : pr.Point lock c h held Q) (hP : ∀ w, pr.Inv w → P w → Q w)
    (hk : pr.Meets lock c nested k h held Q) : pr.Meets lock c nested (.release l k) h held' P := by
  show pr.Stay lock c _ h (held'.erase l) P
  rw [he]
  exact Stay.locked hne hQ hP hk

theorem Meets.release (hne : held ≠ []) (hQ : pr.Point lock c h held Q)
    (hP : ∀ w, pr.Inv w → P w → Q w) (hk : pr.Meets lock c nested k h held Q) :
    pr.Meets lock c nested (.release l k) h (l :: held) P :=
  Meets.release_from (List.erase_cons_head ..) hne hQ hP hk

/-- A short critical section, entered with no lock held. -/
theorem Meets.section_free (hmove : ∀ w, pr.Inv w → pr.At c h F w →
      ∃ g, pr.Move ⟨h,c,nested⟩ none [l] w (f w.1,g) ∧ pr.At c h F' (f w.1,g))
    (hF : pr.Firm c F') (hk : ∀ h', pr.Meets lock c nested k h' [] (pr.At c h' F')) :
    pr.Meets lock c nested (.acquire l (.act f (.release l k))) h [] (pr.At c h F) :=
  Meets.act hmove (List.cons_ne_nil _ _) hF.point
    (Meets.release_free hF (fun _ _ hw => hw) hk)

/-- A short critical section within another one. -/
theorem Meets.section (hmove : ∀ w, pr.Inv w → P w →
      ∃ g, pr.Move ⟨h,c,nested⟩ none (l :: held) w (f w.1,g) ∧ P (f w.1,g))
    (hne : held ≠ []) (hP : pr.Point lock c h held P) (hk : pr.Meets lock c nested k h held P) :
    pr.Meets lock c nested (.acquire l (.act f (.release l k))) h held P :=
  Meets.act hmove (List.cons_ne_nil _ _) (hP.cons l)
    (Meets.release hne hP (fun _ _ hw => hw) hk)

end Rules

/-! ## The machine -/

variable (code : Code H L T ι σ)

/-- The interrupted frames of a thread. -/
def Below (c : Option T) (w : σ × G) : List (Prog H L T ι σ) → Prop
  | [] => True
  | q :: rest => (∃ F, pr.Firm c F ∧ F w ∧
      ∀ h, pr.Meets code.lock c (!rest.isEmpty) q h [] (pr.At c h F)) ∧ Below c w rest

/-- The frames of a processor; in user mode there are none. -/
def Stands (c : Option T) (h : H) (held : List L) (w : σ × G) : List (Prog H L T ι σ) → Prop
  | [] => c ≠ none ∧ pr.Home c h w ∧ pr.User c w
  | p :: rest => pr.Stay code.lock c (pr.Meets code.lock c (!rest.isEmpty) p) h held (· = w) ∧
      Below pr code c w rest

/-- The frames of a thread that runs nowhere. -/
def Parked (t : T) (w : σ × G) : List (Prog H L T ι σ) → Prop
  | [] => False
  | k :: rest => (∃ F, pr.Firm (some t) F ∧ F w ∧ ∀ h,
      pr.Stay code.lock (some t) (pr.Meets code.lock (some t) (!rest.isEmpty) k) h [code.lock t]
        (pr.At (some t) h F)) ∧ Below pr code (some t) w rest

/-- Every entry point and every trap keeps to the protocol. -/
structure Sound (d : Discipline L ι) : Prop where
  body : ∀ {e c nested}, pr.Entry e c nested → ∀ h,
    pr.Stay code.lock c (pr.Meets code.lock c nested (code.body e)) h (d.holds e) (pr.pre e c h)
  trap : ∀ {h c user e w}, code.traps h w.1 user e = true → pr.Inv w → pr.Home c h w →
    (user = true → c ≠ none ∧ pr.User c w) → pr.Entry e c (!user) ∧
      ∃ g, pr.Move ⟨h,c,!user⟩ (some e) [] w (w.1,g) ∧ pr.pre e c h (w.1,g)

/-- The machine keeps to the protocol in the world `w`, where `ctx` tells on which
stack each processor runs. -/
structure Conforms (d : Discipline L ι) (m : Machine H L T ι σ) (w : σ × G) (held : H → List L)
    (ctx : H → Option T) : Prop extends Disciplined code d m held where
  data : m.data = w.1
  inv : pr.Inv w
  alone : ∀ {h h' t}, ctx h = some t → ctx h' = some t → h = h'
  stands : ∀ h, pr.Stands code (ctx h) h (held h) w (m.frames h)
  parked : ∀ t, (∀ h, ctx h ≠ some t) → pr.Parked code t w (m.saved t)

/-! ### What others do -/

/-- Nothing happens, or a move of the agent. -/
def Drift (a : Agent H T) (held : List L) (w w' : σ × G) : Prop :=
  w' = w ∨ ∃ tr, pr.Move a tr held w w'

section Drift
variable {pr code} {a : Agent H T} {w w' : σ × G} {c : Option T} {h : H} {held held' : List L}

omit [DecidableEq L] in
theorem Drift.inv (hw : pr.Drift a held w w') (hi : pr.Inv w) : pr.Inv w' := by
  rcases hw with rfl | ⟨tr,hm⟩
  · exact hi
  · exact pr.inv_move hm hi

theorem Below.drift {rest : List (Prog H L T ι σ)} (hb : pr.Below code c w rest) (hi : pr.Inv w)
    (ha : rest ≠ [] → ∀ t, c = some t → a.thread = some t → a.nested = true)
    (hw : pr.Drift a held w w') : pr.Below code c w' rest := by
  rcases hw with rfl | ⟨tr,hm⟩
  · exact hb
  induction rest with
  | nil => trivial
  | cons q rest ih =>
    have ha' := ha (List.cons_ne_nil q rest)
    obtain ⟨⟨F,hf,hF,hq⟩,hrest⟩ := hb
    exact ⟨⟨F,hf,hf hi ha' hm hF,hq⟩,ih hrest (fun _ => ha')⟩

omit [DecidableEq L] in
theorem Stay.drift {lock : T → L} {M : H → List L → (σ × G → Prop) → Prop}
    (hs : pr.Stay lock c M h held' (· = w)) (hi : pr.Inv w) (hh : a.processor ≠ h)
    (hc : ∀ t, c = some t → a.thread ≠ some t) (hl : ∀ l ∈ held', l ∉ held)
    (hw : pr.Drift a held w w') : pr.Stay lock c M h held' (· = w') := by
  rcases hw with rfl | ⟨tr,hm⟩
  · exact hs
  rcases hs with ⟨hnil,F,hf,hp,hM⟩ | ⟨hne,Q,hq,hp,hM⟩
  · obtain ⟨hhome,hF⟩ := hp w hi rfl
    have hat : pr.At c h F w' :=
      ⟨pr.home_move c h hm hi hh hhome,hf hi (fun t ht ha => absurd ha (hc t ht)) hm hF⟩
    exact Or.inl ⟨hnil,F,hf,fun v _ hv => hv ▸ hat,hM⟩
  · have hq' : Q w' := hq.steady hi hh hc hl hm (hp w hi rfl)
    exact Or.inr ⟨hne,Q,hq,fun v _ hv => hv ▸ hq',hM⟩

theorem Stands.drift {frames : List (Prog H L T ι σ)} (hs : pr.Stands code c h held' w frames)
    (hi : pr.Inv w) (hh : a.processor ≠ h) (hc : ∀ t, c = some t → a.thread ≠ some t)
    (hl : ∀ l ∈ held', l ∉ held) (hw : pr.Drift a held w w') :
    pr.Stands code c h held' w' frames := by
  cases frames with
  | nil =>
    rcases hw with rfl | ⟨tr,hm⟩
    · exact hs
    · exact ⟨hs.1,pr.home_move c h hm hi hh hs.2.1,
        pr.user_move c hm hi (fun t ht ha => absurd ha (hc t ht)) hs.2.2⟩
  | cons p rest =>
    exact ⟨hs.1.drift hi hh hc hl hw,
      hs.2.drift hi (fun _ t ht ha => absurd ha (hc t ht)) hw⟩

theorem Parked.drift {t : T} {frames : List (Prog H L T ι σ)} (hp : pr.Parked code t w frames)
    (hi : pr.Inv w) (ha : a.thread ≠ some t) (hw : pr.Drift a held w w') :
    pr.Parked code t w' frames := by
  have hother : ∀ t', some t = some t' → a.thread = some t' → a.nested = true := by
    intro t' ht hat
    cases ht
    exact absurd hat ha
  cases frames with
  | nil => exact hp
  | cons k rest =>
    obtain ⟨⟨F,hf,hF,hk⟩,hrest⟩ := hp
    refine ⟨⟨F,hf,?_,hk⟩,hrest.drift hi (fun _ => hother) hw⟩
    rcases hw with rfl | ⟨tr,hm⟩
    · exact hF
    · exact hf hi hother hm hF

end Drift

/-! ### Steps -/

/-- A step of the machine as a step of the protocol. -/
def Stepped : Event H ι → σ × G → σ × G → Prop
  | .run h, w, w' => w' = w ∨ ∃ c nested held, pr.Move ⟨h,c,nested⟩ none held w w'
  | .trap h e, w, w' => ∃ c nested, pr.Home c h w ∧ pr.Move ⟨h,c,nested⟩ (some e) [] w w' ∧
      w'.1 = w.1

section Steps
variable {pr code} {d : Discipline L ι} {m m' : Machine H L T ι σ} {w w' : σ × G}
  {held held' : H → List L} {ctx ctx' : H → Option T} {p : H} {nested : Bool}

theorem Conforms.apart (hc : pr.Conforms code d m w held ctx) {q : H} (hq : q ≠ p) :
    ∀ l ∈ held q, l ∉ held p := by
  intro l hl hl'
  have howner := (hc.owner q l).mpr hl
  rw [(hc.owner p l).mpr hl'] at howner
  exact hq (Option.some.inj howner).symm

/-- One processor makes a step; the others only see a move. -/
theorem Conforms.advance (hc : pr.Conforms code d m w held ctx) (hd : Disciplined code d m' held')
    (hdata : m'.data = w'.1) (hw : pr.Drift ⟨p,ctx p,nested⟩ (held p) w w')
    (hframes : ∀ q, q ≠ p → m'.frames q = m.frames q) (hheld : ∀ q, q ≠ p → held' q = held q)
    (hctx : ∀ q, q ≠ p → ctx' q = ctx q) (halone : ∀ q t, q ≠ p → ctx q = some t → ctx' p ≠ some t)
    (hstands : pr.Stands code (ctx' p) p (held' p) w' (m'.frames p))
    (hparked : ∀ t, (∀ q, ctx' q ≠ some t) → pr.Parked code t w' (m'.saved t)) :
    pr.Conforms code d m' w' held' ctx' := by
  refine ⟨hd,hdata,hw.inv hc.inv,?_,?_,hparked⟩
  · intro q q' t hq hq'
    by_cases hqp : q = p
    · by_cases hqp' : q' = p
      · rw [hqp, hqp']
      · rw [hctx q' hqp'] at hq'
        rw [hqp] at hq
        exact absurd hq (halone q' t hqp' hq')
    · rw [hctx q hqp] at hq
      by_cases hqp' : q' = p
      · rw [hqp'] at hq'
        exact absurd hq' (halone q t hqp hq)
      · rw [hctx q' hqp'] at hq'
        exact hc.alone hq hq'
  · intro q
    by_cases hqp : q = p
    · rw [hqp]
      exact hstands
    · rw [hctx q hqp, hheld q hqp, hframes q hqp]
      exact (hc.stands q).drift hc.inv (Ne.symm hqp)
        (fun t ht hp => hqp (hc.alone ht hp)) (hc.apart hqp) hw

theorem Stands.cons {c : Option T} {hs : List L} {k : Prog H L T ι σ} {rest : List (Prog H L T ι σ)}
    {P : σ × G → Prop} (hk : pr.Stay code.lock c (pr.Meets code.lock c (!rest.isEmpty) k) p hs P)
    (hw : P w) (hrest : pr.Below code c w rest) : pr.Stands code c p hs w (k :: rest) :=
  ⟨hk.weaken (fun _ _ hv => hv ▸ hw),hrest⟩

/-- A thread whose lock is held and that is at home here runs on no other processor. -/
theorem Conforms.elsewhere (hc : pr.Conforms code d m w held ctx) {t : T}
    (hhome : pr.Home (some t) p w) (hlock : code.lock t ∈ held p) {q : H} (hq : q ≠ p) :
    ctx q ≠ some t := by
  intro hctx
  have hstands := hc.stands q
  rw [hctx] at hstands
  have hhome' : pr.Home (some t) q w := by
    cases hf : m.frames q with
    | nil =>
      rw [hf] at hstands
      exact hstands.2.1
    | cons k rest =>
      rw [hf] at hstands
      obtain ⟨P,hP,hpoint,_⟩ := hstands.1.known hc.inv rfl
      rcases hpoint.anchored t rfl w hc.inv hP with hhome' | hmem
      · exact hhome'
      · exact absurd hlock (hc.apart hq _ hmem)
  exact hq (pr.home_unique hc.inv hhome' hhome)

/-- A thread that starts at an entry point. -/
theorem Sound.parked (hs : pr.Sound code d) {t : T} {e : ι} (hentry : pr.Entry e (some t) false)
    (hholds : d.holds e = [code.lock t]) {F : σ × G → Prop} (hF : pr.Firm (some t) F) (hw : F w)
    (hpre : ∀ h v, pr.Inv v → pr.At (some t) h F v → pr.pre e (some t) h v) :
    pr.Parked code t w [code.body e] := by
  refine ⟨⟨F,hF,hw,fun h => ?_⟩,trivial⟩
  have hbody := hs.body hentry h
  rw [hholds] at hbody
  exact hbody.weaken (fun v hi hv => hpre h v hi hv)

variable [DecidableEq H]

/-- A step within one stack. -/
theorem Conforms.proceed (hc : pr.Conforms code d m w held ctx) (hs : List L)
    {frames : List (Prog H L T ι σ)} (hd : Disciplined code d m' (Function.update held p hs))
    (hdata : m'.data = w'.1) (hw : pr.Drift ⟨p,ctx p,nested⟩ (held p) w w')
    (hframes : m'.frames = (m.put p frames).frames) (hsaved : m'.saved = m.saved)
    (hstands : pr.Stands code (ctx p) p hs w' frames) :
    pr.Conforms code d m' w' (Function.update held p hs) ctx := by
  refine hc.advance hd hdata hw (fun q hq => ?_) (fun q hq => Function.update_of_ne hq _ _)
    (fun _ _ => rfl) (fun q t hq ht hp => hq (hc.alone ht hp)) ?_ (fun t ht => ?_)
  · rw [hframes]
    simp [Machine.put,hq]
  · rw [hframes, Function.update_self]
    simpa [Machine.put] using hstands
  · rw [hsaved]
    exact (hc.parked t ht).drift hc.inv (ht p) hw

/-- A step within one stack that leaves the world as it is. -/
theorem Conforms.silent (hc : pr.Conforms code d m w held ctx) (hs : List L)
    {frames : List (Prog H L T ι σ)} (hd : Disciplined code d m' (Function.update held p hs))
    (hdata : m'.data = m.data) (hframes : m'.frames = (m.put p frames).frames)
    (hsaved : m'.saved = m.saved) (hstands : pr.Stands code (ctx p) p hs w frames) :
    ∃ w' held' ctx', pr.Conforms code d m' w' held' ctx' ∧ pr.Stepped (.run p) w w' := by
  have hdrift : pr.Drift ⟨p,ctx p,false⟩ (held p) w w := Or.inl rfl
  exact ⟨w,_,ctx,hc.proceed hs hd (hdata.trans hc.data) hdrift hframes hsaved hstands,Or.inl rfl⟩

/-- A switch to another stack. -/
theorem Conforms.switch (hc : pr.Conforms code d m w held ctx) {c : Option T}
    {frames : List (Prog H L T ι σ)}
    (hd : Disciplined code d m' (Function.update held p (held p))) (hdata : m'.data = m.data)
    (hframes : m'.frames = (m.put p frames).frames)
    (hnew : ∀ q t, q ≠ p → ctx q = some t → c ≠ some t)
    (hstands : pr.Stands code c p (held p) w frames)
    (hparked : ∀ t, c ≠ some t → (∀ q, q ≠ p → ctx q ≠ some t) → pr.Parked code t w (m'.saved t)) :
    ∃ w' held' ctx', pr.Conforms code d m' w' held' ctx' ∧ pr.Stepped (.run p) w w' := by
  have hdrift : pr.Drift ⟨p,ctx p,false⟩ (held p) w w := Or.inl rfl
  rw [Function.update_eq_self] at hd
  refine ⟨w,held,Function.update ctx p c,hc.advance hd (hdata.trans hc.data) hdrift (fun q hq => ?_)
    (fun _ _ => rfl) (fun q hq => Function.update_of_ne hq _ _) ?_ ?_ (fun t ht => ?_),Or.inl rfl⟩
  · rw [hframes]
    simp [Machine.put,hq]
  · rwa [Function.update_self]
  · rw [hframes, Function.update_self]
    simpa [Machine.put] using hstands
  · apply hparked t
    · simpa using ht p
    · intro q hq
      simpa [hq] using ht q

/-- A program that ends, with what was interrupted below it. -/
theorem Conforms.finish (hc : pr.Conforms code d m w held ctx) {rest : List (Prog H L T ι σ)}
    (hd : Disciplined code d (m.put p rest) (Function.update held p (held p)))
    (hnil : held p = []) (hhome : pr.Home (ctx p) p w)
    (huser : rest.isEmpty = true → ctx p ≠ none ∧ pr.User (ctx p) w)
    (hbelow : pr.Below code (ctx p) w rest) :
    ∃ w' held' ctx', pr.Conforms code d (m.put p rest) w' held' ctx' ∧
      pr.Stepped (.run p) w w' := by
  refine hc.silent (held p) hd rfl rfl rfl ?_
  cases rest with
  | nil => exact ⟨(huser rfl).1,hhome,(huser rfl).2⟩
  | cons q rest =>
    obtain ⟨⟨F,hF,hFw,hq⟩,hbelow⟩ := hbelow
    rw [hnil]
    exact ⟨Stay.free hF (fun _ _ hv => hv ▸ ⟨hhome,hFw⟩) hq,hbelow⟩

/-- A thread that runs nowhere after a switch and did not run here before it. -/
theorem Conforms.others (hc : pr.Conforms code d m w held ctx) {t : T} (hp : ctx p ≠ some t)
    (hq : ∀ q, q ≠ p → ctx q ≠ some t) : pr.Parked code t w (m.saved t) := by
  apply hc.parked t
  intro q hctx
  by_cases hqp : q = p
  · exact hp (hqp ▸ hctx)
  · exact hq q hqp hctx

/-- A switch to a thread that is at home here. -/
theorem Conforms.resume (hc : pr.Conforms code d m w held ctx) {t : T}
    (hd : Disciplined code d (m.put p (m.saved t)) (Function.update held p (held p)))
    (hctx : ctx p = none) (hheld : held p = [code.lock t]) (hhome : pr.Home (some t) p w) :
    ∃ w' held' ctx', pr.Conforms code d (m.put p (m.saved t)) w' held' ctx' ∧
      pr.Stepped (.run p) w w' := by
  have hmem : code.lock t ∈ held p := by
    rw [hheld]
    exact List.mem_singleton_self _
  have hnone : ∀ t', ctx p ≠ some t' := fun t' hp => by
    rw [hctx] at hp
    cases hp
  have halone : ∀ q, q ≠ p → ctx q ≠ some t := fun q hq => hc.elsewhere hhome hmem hq
  refine hc.switch (c := some t) hd rfl rfl (fun q t' hq ht' h => halone q hq (h ▸ ht')) ?_
    (fun t' _ ht' => hc.others (hnone t') ht')
  have hparked := hc.others (hnone t) halone
  cases hf : m.saved t with
  | nil =>
    rw [hf] at hparked
    exact hparked.elim
  | cons k rest =>
    rw [hf] at hparked
    obtain ⟨⟨F,_,hFw,hk⟩,hrest⟩ := hparked
    rw [hheld]
    exact Stands.cons (hk p) ⟨hhome,hFw⟩ hrest

variable [DecidableEq T]

/-- A switch that leaves one thread with new frames. -/
theorem Conforms.leave (hc : pr.Conforms code d m w held ctx) {t : T} {c : Option T}
    {frames new : List (Prog H L T ι σ)}
    (hd : Disciplined code d { m.put p frames with saved := Function.update m.saved t new }
      (Function.update held p (held p)))
    (hnew : ∀ q t, q ≠ p → ctx q = some t → c ≠ some t)
    (hother : ∀ t', t' ≠ t → c ≠ some t' → ctx p ≠ some t')
    (hstands : pr.Stands code c p (held p) w frames) (hparked : pr.Parked code t w new) :
    ∃ w' held' ctx', pr.Conforms code d { m.put p frames with
      saved := Function.update m.saved t new } w' held' ctx' ∧ pr.Stepped (.run p) w w' := by
  refine hc.switch hd rfl rfl hnew hstands (fun t' hp ht' => ?_)
  by_cases htt : t' = t
  · subst htt
    simp only [Function.update_self]
    exact hparked
  · simp only [Function.update_of_ne htt]
    exact hc.others (hother t' htt hp) ht'

/-- Every step of a program is nothing or a move of the protocol. -/
theorem Conforms.exec (hd : d.Sound code) (hs : pr.Sound code d)
    (hc : pr.Conforms code d m w held ctx) {prog : Prog H L T ι σ}
    {rest : List (Prog H L T ι σ)} (hf : m.frames p = prog :: rest)
    (he : m.exec code p rest prog = some m') :
    ∃ w' held' ctx', pr.Conforms code d m' w' held' ctx' ∧ pr.Stepped (.run p) w w' := by
  have hdisc := hc.toDisciplined.exec hd hf he
  have hprog := hc.frames p
  have hstand := hc.stands p
  rw [hf] at hprog hstand
  replace hprog := hprog.1
  obtain ⟨hstay,hbelow⟩ := hstand
  obtain ⟨P,hP,hpoint,hmeets⟩ := hstay.known hc.inv rfl
  cases prog with
  | done =>
    cases he
    have hnil : held p = [] := hprog
    have hhome : pr.Home (ctx p) p w := by
      rw [hnil] at hstay
      exact hstay.home hc.inv rfl
    exact hc.finish hdisc hnil hhome
      (fun hempty => ⟨(hmeets (by simp [hempty])).1,(hmeets (by simp [hempty])).2 w hc.inv hP⟩) hbelow
  | halt => cases he
  | acquire l k =>
    simp only [Machine.exec] at he
    split at he
    · cases he
      exact hc.silent _ hdisc rfl rfl rfl (Stands.cons
        (Stay.locked (List.cons_ne_nil _ _) (hpoint.cons l) (fun _ _ hv => hv) hmeets) hP hbelow)
    · next p' howner =>
      split at he
      · next heq =>
        rw [heq] at howner
        exact absurd ((hc.owner p l).mp howner) hprog.1.not_mem
      · cases he
  | release l k =>
    simp only [Machine.exec, (hc.owner p l).mpr hprog.1, ↓reduceIte] at he
    cases he
    exact hc.silent _ hdisc rfl rfl rfl (Stands.cons hmeets hP hbelow)
  | act f k =>
    cases he
    obtain ⟨Q,hmove,hk⟩ := hmeets
    obtain ⟨g,hm,hQ⟩ := hmove w hc.inv hP
    have hdrift : pr.Drift ⟨p,ctx p,!rest.isEmpty⟩ (held p) w (f w.1,g) := Or.inr ⟨none,hm⟩
    have hbelow' : pr.Below code (ctx p) (f w.1,g) rest := by
      apply hbelow.drift hc.inv _ hdrift
      intro hne _ _ _
      simpa using hne
    exact ⟨(f w.1,g),_,ctx,hc.proceed (held p) hdisc (congrArg f hc.data) hdrift rfl rfl
      (Stands.cons hk hQ hbelow'),Or.inr ⟨_,_,_,hm⟩⟩
  | look k =>
    cases he
    exact hc.silent (held p) hdisc rfl rfl rfl
      (Stands.cons (hmeets m.data ⟨w,hc.inv,hP,hc.data.symm⟩) ⟨hP,hc.data.symm⟩ hbelow)
  | goto e =>
    cases he
    have hheld : held p = d.holds e := hprog
    exact hc.silent (held p) hdisc rfl rfl rfl
      (Stands.cons (hheld ▸ hs.body hmeets.1 p) (hmeets.2 w hc.inv hP) hbelow)
  | spawn t e k =>
    cases he
    obtain ⟨hentry,⟨F,hF,hFw,hpre⟩,hk⟩ := hmeets
    exact hc.leave (c := ctx p) hdisc (fun q t' hq ht' hp => hq (hc.alone ht' hp))
      (fun _ _ hp => hp) (Stands.cons hk hP hbelow)
      (hs.parked hentry hprog.1 hF (hFw w hc.inv hP) hpre)
  | park t e k =>
    obtain ⟨hheld,hentry,hk⟩ := hprog
    obtain ⟨hctx,hin,hpre,F,hF,hPF,hstayk⟩ := hmeets
    simp only [Machine.exec, hc.lock_held hheld, and_self, ↓reduceIte] at he
    cases he
    have hbody := hs.body hin p
    rw [hentry, ← hheld] at hbody
    refine hc.leave (c := none) hdisc (fun _ _ _ _ h => by cases h) (fun t' htt _ hp => ?_)
      (Stands.cons hbody (hpre w hc.inv hP) trivial) ?_
    · rw [hctx] at hp
      exact htt (Option.some.inj hp).symm
    · rw [hctx] at hF hstayk hbelow
      exact ⟨⟨F,hF,hPF w hc.inv hP,hstayk⟩,hbelow⟩
  | resume t =>
    cases he
    obtain ⟨hctx,_,hhome⟩ := hmeets
    exact hc.resume hdisc hctx hprog (hhome w hc.inv hP)

omit [DecidableEq T] in
/-- A trap starts with a move of the protocol. -/
theorem Conforms.trap (hd : d.Sound code) (hs : pr.Sound code d)
    (hc : pr.Conforms code d m w held ctx) {e : ι} (hnil : held p = [])
    (htrap : code.traps p m.data (m.frames p).isEmpty e = true) :
    ∃ w' held' ctx', pr.Conforms code d (m.put p (code.body e :: m.frames p)) w' held' ctx' ∧
      pr.Stepped (.trap p e) w w' := by
  have hstand := hc.stands p
  have hhome : pr.Home (ctx p) p w ∧
      ((m.frames p).isEmpty = true → ctx p ≠ none ∧ pr.User (ctx p) w) ∧
      pr.Below code (ctx p) w (m.frames p) := by
    cases hf : m.frames p with
    | nil =>
      rw [hf] at hstand
      exact ⟨hstand.2.1,fun _ => ⟨hstand.1,hstand.2.2⟩,trivial⟩
    | cons k rest =>
      rw [hf, hnil] at hstand
      obtain ⟨⟨_,F,hF,hFw,hk⟩ | ⟨hne,_⟩,hrest⟩ := hstand
      · obtain ⟨hhome,hFw⟩ := hFw w hc.inv rfl
        exact ⟨hhome,by simp,⟨F,hF,hFw,hk⟩,hrest⟩
      · exact absurd rfl hne
  obtain ⟨hhome,huser,hbelow⟩ := hhome
  rw [hc.data] at htrap
  obtain ⟨hentry,g,hm,hpre⟩ := hs.trap htrap hc.inv hhome huser
  have hdrift : pr.Drift ⟨p,ctx p,!(m.frames p).isEmpty⟩ (held p) w (w.1,g) := by
    rw [hnil]
    exact Or.inr ⟨_,hm⟩
  have hbelow' : pr.Below code (ctx p) (w.1,g) (m.frames p) := by
    apply hbelow.drift hc.inv _ hdrift
    intro hne _ _ _
    simpa using hne
  have hholds := hd.traps htrap
  have hbody := hs.body hentry p
  rw [hholds, ← hnil] at hbody
  have hdisc := hc.toDisciplined.trap hd hnil hholds
  rw [← Function.update_eq_self p held] at hdisc
  exact ⟨(w.1,g),_,ctx,hc.proceed (held p) hdisc hc.data hdrift rfl rfl
    (Stands.cons hbody hpre hbelow'),_,_,hhome,hm,rfl⟩

/-- Every step of the machine is a step of the protocol. -/
theorem Conforms.step (hd : d.Sound code) (hs : pr.Sound code d)
    (hc : pr.Conforms code d m w held ctx) {e : Event H ι}
    (he : SpinLock.step code m e = some m') :
    ∃ w' held' ctx', pr.Conforms code d m' w' held' ctx' ∧ pr.Stepped e w w' := by
  cases e with
  | run p =>
    simp only [SpinLock.step] at he
    split at he
    · cases he
    · next prog rest hf => exact hc.exec hd hs hf he
  | trap p e =>
    obtain ⟨⟨hoff,htrap⟩,he⟩ := Option.ite_none_right_eq_some.mp he
    cases he
    exact hc.trap hd hs (hc.nil_of_noff hoff) htrap

/-- What holds of the world and an observer of the data along the steps of the
protocol holds along the guarded runs of the machine. -/
theorem Conforms.runs {O : Type*} (hd : d.Sound code) (hs : pr.Sound code d)
    (hc : pr.Conforms code d m w held ctx) {note : σ → Event H ι → σ → O → O}
    {guard : Machine H L T ι σ × O → Event H ι → Prop} {I : σ × G → O → Prop} {o : O}
    {x : Machine H L T ι σ × O} (hI : I w o)
    (hstep : ∀ {m m' w w' o e}, pr.Inv w → pr.Inv w' → m.data = w.1 → m'.data = w'.1 →
      guard (m,o) e → SpinLock.step code m e = some m' → pr.Stepped e w w' → I w o →
      I w' (note w.1 e w'.1 o))
    (hr : Runs (watched (SpinLock.step code) (fun m e m' => note m.data e m'.data)) guard (m,o) x) :
    ∃ w held ctx, pr.Conforms code d x.1 w held ctx ∧ I w x.2 := by
  apply hr.invariant (I := fun x => ∃ w held ctx, pr.Conforms code d x.1 w held ctx ∧ I w x.2)
    ⟨w,held,ctx,hc,hI⟩
  rintro ⟨m,o⟩ e y ⟨w,held,ctx,hc,hI⟩ hg he
  obtain ⟨m',hm,rfl⟩ := Option.map_eq_some_iff.mp he
  obtain ⟨w',held',ctx',hc',hw⟩ := hc.step hd hs hm
  refine ⟨w',held',ctx',hc',?_⟩
  have hdata : m.data = w.1 := hc.data
  show I w' (note m.data e m'.data o)
  rw [hdata, hc'.data]
  exact hstep hc.inv hc'.inv hc.data hc'.data hg hm hw hI

end Steps

end Protocol
end CShellXv6.SpinLock
