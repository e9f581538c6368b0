import CShellXv6.Library.SpinLock

/-! # One processor that runs alone

While the other processors stand still and no trap comes, a processor goes through its program
in one way. `Leads` follows the program through its locks and the data; the locks that are
taken on the way are listed, and a condition is met by the owners of the locks at every step.
-/
namespace CShellXv6.SpinLock
open Transition
variable {H L T ι σ : Type*} [DecidableEq L]

/-- One step of a program, with the lock that it takes. -/
inductive Goes (h : H) :
    Prog H L T ι σ → (L → Option H) → σ → List L → Prog H L T ι σ → (L → Option H) → σ → Prop
  | acquire {l : L} {k : Prog H L T ι σ} {o : L → Option H} {s : σ} (hfree : o l = none) :
      Goes h (.acquire l k) o s [l] k (Function.update o l (some h)) s
  | release {l : L} {k : Prog H L T ι σ} {o : L → Option H} {s : σ} (hheld : o l = some h) :
      Goes h (.release l k) o s [] k (Function.update o l none) s
  | act {f : σ → σ} {k : Prog H L T ι σ} {o : L → Option H} {s : σ} :
      Goes h (.act f k) o s [] k o (f s)
  | look {k : H → σ → Prog H L T ι σ} {o : L → Option H} {s : σ} :
      Goes h (.look k) o s [] (k h s) o s

/-- The program `p` leads to `q`; at every step before that the owners meet the condition. -/
inductive Leads (h : H) (inv : (L → Option H) → Prop) :
    Prog H L T ι σ → (L → Option H) → σ → List L → Prog H L T ι σ → (L → Option H) → σ → Prop
  | refl (p : Prog H L T ι σ) (o : L → Option H) (s : σ) : Leads h inv p o s [] p o s
  | head {p q r : Prog H L T ι σ} {o o' o'' : L → Option H} {s s' s'' : σ} {now later : List L} :
      inv o → Goes h p o s now q o' s' → Leads h inv q o' s' later r o'' s'' →
      Leads h inv p o s (now ++ later) r o'' s''

section Leads
variable {h : H} {inv : (L → Option H) → Prop} {p q r : Prog H L T ι σ} {o o' o'' : L → Option H}
  {s s' s'' : σ} {taken more : List L}

theorem Leads.trans (hp : Leads h inv p o s taken q o' s')
    (hq : Leads h inv q o' s' more r o'' s'') : Leads h inv p o s (taken ++ more) r o'' s'' := by
  induction hp with
  | refl => exact hq
  | head hinv hgoes _ ih =>
    rw [List.append_assoc]
    exact .head hinv hgoes (ih hq)

theorem Leads.acquire {l : L} (hinv : inv o) (hfree : o l = none)
    (hp : Leads h inv p (Function.update o l (some h)) s taken q o' s') :
    Leads h inv (.acquire l p) o s (l :: taken) q o' s' := .head hinv (.acquire hfree) hp

theorem Leads.release {l : L} (hinv : inv o) (hheld : o l = some h)
    (hp : Leads h inv p (Function.update o l none) s taken q o' s') :
    Leads h inv (.release l p) o s taken q o' s' := .head hinv (.release hheld) hp

theorem Leads.act {f : σ → σ} (hinv : inv o) (hp : Leads h inv p o (f s) taken q o' s') :
    Leads h inv (.act f p) o s taken q o' s' := .head hinv .act hp

theorem Leads.look {k : H → σ → Prog H L T ι σ} (hinv : inv o)
    (hp : Leads h inv (k h s) o s taken q o' s') : Leads h inv (.look k) o s taken q o' s' :=
  .head hinv .look hp

/-- A lock that is taken and released again is free as before. -/
theorem update_free {l : L} (hfree : o l = none) (x : Option H) :
    Function.update (Function.update o l x) l none = o := by
  rw [Function.update_idem, ← hfree, Function.update_eq_self]

end Leads

/-! ## More data -/

section Beside
variable {μ : Type*}

/-- The program beside data that it does not touch. -/
def Prog.beside : Prog H L T ι σ → Prog H L T ι (σ × μ)
  | .done => .done
  | .halt => .halt
  | .acquire l k => .acquire l k.beside
  | .release l k => .release l k.beside
  | .act f k => .act (fun s => (f s.1,s.2)) k.beside
  | .look k => .look fun h s => (k h s.1).beside
  | .goto e => .goto e
  | .spawn t e k => .spawn t e k.beside
  | .park t e k => .park t e k.beside
  | .resume t => .resume t

/-- On its first component the one program does what the other does; what it notes in the
second one is its own. -/
inductive Follows : Prog H L T ι (σ × μ) → Prog H L T ι σ → Prop
  | done : Follows .done .done
  | halt : Follows .halt .halt
  | acquire {l : L} {k' : Prog H L T ι (σ × μ)} {k : Prog H L T ι σ} :
      Follows k' k → Follows (.acquire l k') (.acquire l k)
  | release {l : L} {k' : Prog H L T ι (σ × μ)} {k : Prog H L T ι σ} :
      Follows k' k → Follows (.release l k') (.release l k)
  | act {f' : σ × μ → σ × μ} {f : σ → σ} {k' : Prog H L T ι (σ × μ)} {k : Prog H L T ι σ} :
      (∀ s, (f' s).1 = f s.1) → Follows k' k → Follows (.act f' k') (.act f k)
  | note {f' : σ × μ → σ × μ} {k' : Prog H L T ι (σ × μ)} {k : Prog H L T ι σ} :
      (∀ s, (f' s).1 = s.1) → Follows k' k → Follows (.act f' k') k
  | look {k' : H → σ × μ → Prog H L T ι (σ × μ)} {k : H → σ → Prog H L T ι σ} :
      (∀ h s, Follows (k' h s) (k h s.1)) → Follows (.look k') (.look k)
  | goto (e : ι) : Follows (.goto e) (.goto e)
  | spawn {t : T} {e : ι} {k' : Prog H L T ι (σ × μ)} {k : Prog H L T ι σ} :
      Follows k' k → Follows (.spawn t e k') (.spawn t e k)
  | park {t : T} {e : ι} {k' : Prog H L T ι (σ × μ)} {k : Prog H L T ι σ} :
      Follows k' k → Follows (.park t e k') (.park t e k)
  | resume (t : T) : Follows (.resume t) (.resume t)

omit [DecidableEq L] in
theorem Prog.beside_follows (p : Prog H L T ι σ) :
    Follows (p.beside : Prog H L T ι (σ × μ)) p := by
  induction p with
  | done => exact .done
  | halt => exact .halt
  | acquire l k ih => exact .acquire ih
  | release l k ih => exact .release ih
  | act f k ih => exact .act (fun _ => rfl) ih
  | look k ih => exact .look fun h s => ih h s.1
  | goto e => exact .goto e
  | spawn t e k ih => exact .spawn ih
  | park t e k ih => exact .park ih
  | resume t => exact .resume t

theorem Follows.goes {h : H} {p' q' : Prog H L T ι (σ × μ)} {p : Prog H L T ι σ}
    {o o' : L → Option H} {s s' : σ × μ} {now : List L} (hp : Follows p' p)
    (hgoes : Goes h p' o s now q' o' s') :
    (now = [] ∧ o' = o ∧ s'.1 = s.1 ∧ Follows q' p) ∨
      ∃ q, Goes h p o s.1 now q o' s'.1 ∧ Follows q' q := by
  cases hgoes with
  | acquire hfree =>
    cases hp with
    | acquire hk => exact Or.inr ⟨_,.acquire hfree,hk⟩
  | release hheld =>
    cases hp with
    | release hk => exact Or.inr ⟨_,.release hheld,hk⟩
  | act =>
    cases hp with
    | act hf hk =>
      rw [hf]
      exact Or.inr ⟨_,.act,hk⟩
    | note hf hk => exact Or.inl ⟨rfl,rfl,hf s,hk⟩
  | look =>
    cases hp with
    | look hk => exact Or.inr ⟨_,.look,hk h s⟩

/-- Where the one program leads, the other leads as well. -/
theorem Follows.leads {h : H} {inv : (L → Option H) → Prop} {p' q' : Prog H L T ι (σ × μ)}
    {p : Prog H L T ι σ} {o o' : L → Option H} {s s' : σ × μ} {taken : List L}
    (hp : Follows p' p) (hleads : Leads h inv p' o s taken q' o' s') :
    ∃ q, Leads h inv p o s.1 taken q o' s'.1 ∧ Follows q' q := by
  induction hleads generalizing p with
  | refl => exact ⟨p,.refl _ _ _,hp⟩
  | head hinv hgoes _ ih =>
    rcases hp.goes hgoes with ⟨rfl,rfl,hdata,hq⟩ | ⟨q,hq,hfollows⟩
    · obtain ⟨r,hleads,hr⟩ := ih hq
      rw [hdata] at hleads
      exact ⟨r,hleads,hr⟩
    · obtain ⟨r,hleads,hr⟩ := ih hfollows
      exact ⟨r,.head hinv hq hleads,hr⟩

end Beside

/-! ## Runs -/

variable [DecidableEq H] [DecidableEq T]

/-- The locks that a processor takes, in their order. -/
def noteTaken (h : H) (m : Machine H L T ι σ) (_ : Event H ι) (_ : Machine H L T ι σ)
    (log : List L) : List L :=
  match m.stands h with
  | some l => if m.owner l = none then log ++ [l] else log
  | none => log

/-- Only the processor steps, and the owners of the locks meet the condition. -/
def Alone (h : H) (inv : (L → Option H) → Prop) (x : Machine H L T ι σ × List L)
    (e : Event H ι) : Prop := e = .run h ∧ inv x.1.owner

/-- The processor has changed nothing but its frames, its locks and the data. -/
structure Machine.Reaches (m m' : Machine H L T ι σ) (h : H) (frames : List (Prog H L T ι σ))
    (o : L → Option H) (s : σ) : Prop where
  frames : m'.frames h = frames
  owner : m'.owner = o
  data : m'.data = s
  others : ∀ h', h' ≠ h → m'.frames h' = m.frames h'
  saved : m'.saved = m.saved

omit [DecidableEq L] [DecidableEq H] [DecidableEq T] in
theorem Machine.Reaches.trans {m m' m'' : Machine H L T ι σ} {h : H}
    {frames frames' : List (Prog H L T ι σ)} {o o' : L → Option H} {s s' : σ}
    (hm : m.Reaches m' h frames o s) (hm' : m'.Reaches m'' h frames' o' s') :
    m.Reaches m'' h frames' o' s' :=
  ⟨hm'.frames,hm'.owner,hm'.data,fun h' hh => (hm'.others h' hh).trans (hm.others h' hh),
    hm'.saved.trans hm.saved⟩

theorem step_run {code : Code H L T ι σ} {m : Machine H L T ι σ} {h : H} {p : Prog H L T ι σ}
    {rest : List (Prog H L T ι σ)} (hf : m.frames h = p :: rest) :
    step code m (.run h) = m.exec code h rest p := by
  simp only [step, hf]

theorem Goes.step (code : Code H L T ι σ) {h : H} {p q : Prog H L T ι σ} {m : Machine H L T ι σ}
    {o' : L → Option H} {s' : σ} {now : List L} (hgoes : Goes h p m.owner m.data now q o' s')
    {rest : List (Prog H L T ι σ)} (hframes : m.frames h = p :: rest) (log : List L) :
    ∃ m', SpinLock.step code m (.run h) = some m' ∧
      noteTaken h m (.run h) m' log = log ++ now ∧ m.Reaches m' h (q :: rest) o' s' := by
  have hput : ∀ (k : Prog H L T ι σ), (m.put h (k :: rest)).frames h = k :: rest :=
    fun k => Function.update_self _ _ _
  have hothers : ∀ (k : Prog H L T ι σ) (h' : H), h' ≠ h →
      (m.put h (k :: rest)).frames h' = m.frames h' := fun k h' hh => Function.update_of_ne hh _ _
  rw [step_run hframes]
  simp only [noteTaken, Machine.stands, hframes]
  cases hgoes with
  | acquire hfree =>
    simp only [Machine.exec, hfree, if_true]
    exact ⟨_,rfl,trivial,hput _,rfl,rfl,hothers _,rfl⟩
  | release hheld =>
    rw [List.append_nil, Machine.exec, if_pos hheld]
    exact ⟨_,rfl,rfl,hput _,rfl,rfl,hothers _,rfl⟩
  | act =>
    rw [List.append_nil]
    exact ⟨_,rfl,rfl,hput _,rfl,rfl,hothers _,rfl⟩
  | look =>
    rw [List.append_nil]
    exact ⟨_,rfl,rfl,hput _,rfl,rfl,hothers _,rfl⟩

/-- A processor that is alone goes where its program leads. -/
theorem Leads.runs (code : Code H L T ι σ) {h : H} {inv : (L → Option H) → Prop}
    {p q : Prog H L T ι σ} {o o' : L → Option H} {s s' : σ} {taken : List L}
    (hleads : Leads h inv p o s taken q o' s') {m : Machine H L T ι σ}
    {rest : List (Prog H L T ι σ)} (hframes : m.frames h = p :: rest) (howner : m.owner = o)
    (hdata : m.data = s) (log : List L) :
    ∃ m', Runs (watched (SpinLock.step code) (noteTaken h)) (Alone h inv) (m,log)
        (m',log ++ taken) ∧ m.Reaches m' h (q :: rest) o' s' := by
  induction hleads generalizing m log with
  | refl =>
    rw [List.append_nil]
    exact ⟨m,.refl _,hframes,howner,hdata,fun _ _ => rfl,rfl⟩
  | @head _ _ _ _ _ _ _ _ _ now later hinv hgoes _ ih =>
    subst howner hdata
    obtain ⟨m₁,hstep,hnote,hreaches⟩ := hgoes.step code hframes log
    obtain ⟨m',hruns,hlater⟩ := ih hreaches.frames hreaches.owner hreaches.data (log ++ now)
    have hfirst : watched (SpinLock.step code) (noteTaken h) (m,log) (.run h) =
        some (m₁,log ++ now) := by
      simp only [watched, hstep, Option.map_some, hnote]
    have halone : Alone h inv (m,log) (.run h) := ⟨rfl,hinv⟩
    rw [← List.append_assoc]
    exact ⟨m',(Runs.single halone hfirst).trans hruns,hreaches.trans hlater⟩

end CShellXv6.SpinLock
