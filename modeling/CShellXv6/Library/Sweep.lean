import Mathlib.Data.List.Basic

/-! # Loops over an array that consult an environment

A sweep visits the cells of an array in order, replaces each and threads an
environment through the visits. A fold sweep also carries the local variables
of the loop. The rules below turn a fact about one visit into a fact about the
whole loop.
-/
namespace CShellXv6.Sweep
variable {α β σ : Type*}

def sweep (f : α → σ → α × σ) : List α → σ → List α × σ
  | [], s => ([],s)
  | a :: rest, s =>
    let r := f a s
    let q := sweep f rest r.2
    (r.1 :: q.1,q.2)

def foldSweep (f : β → α → σ → β × α × σ) : β → List α → σ → β × List α × σ
  | b, [], s => (b,[],s)
  | b, a :: rest, s =>
    let r := f b a s
    let q := foldSweep f r.1 rest r.2.2
    (q.1,r.2.1 :: q.2.1,q.2.2)

/-- Each cell of the second array comes from the cell of the first at the same
place. -/
def Cellwise (R : α → α → Prop) (l l' : List α) : Prop :=
  ∀ (i : ℕ) (a' : α), l'[i]? = some a' → ∃ a, l[i]? = some a ∧ R a a'

section Cellwise
variable {R : α → α → Prop}

theorem Cellwise.get {l l' : List α} (h : Cellwise R l l') {i : ℕ} {a a' : α}
    (ha : l[i]? = some a) (ha' : l'[i]? = some a') : R a a' := by
  obtain ⟨b,hb,hR⟩ := h i a' ha'
  rw [ha] at hb
  cases hb
  exact hR

theorem Cellwise.refl (hR : ∀ a, R a a) (l : List α) : Cellwise R l l :=
  fun _ a ha => ⟨a,ha,hR a⟩

theorem Cellwise.trans {Q T : α → α → Prop} {l m n : List α} (h : Cellwise R l m)
    (k : Cellwise Q m n) (hT : ∀ a b c, R a b → Q b c → T a c) : Cellwise T l n := by
  intro i c hc
  obtain ⟨b,hb,hbc⟩ := k i c hc
  obtain ⟨a,ha,hab⟩ := h i b hb
  exact ⟨a,ha,hT a b c hab hbc⟩

theorem Cellwise.map {g : α → α} (hg : ∀ a, R a (g a)) (l : List α) : Cellwise R l (l.map g) := by
  intro i a' ha'
  rw [List.getElem?_map] at ha'
  obtain ⟨a,ha,rfl⟩ := Option.map_eq_some_iff.mp ha'
  exact ⟨a,ha,hg a⟩

theorem Cellwise.modify {g : α → α} (l : List α) (n : ℕ) (hR : ∀ a, R a a)
    (hg : ∀ a, l[n]? = some a → R a (g a)) : Cellwise R l (l.modify n g) := by
  intro i a' ha'
  rw [List.getElem?_modify] at ha'
  obtain ⟨a,ha,heq⟩ := Option.map_eq_some_iff.mp ha'
  refine ⟨a,ha,?_⟩
  rw [← heq]
  split
  · next hn =>
    subst hn
    exact hg a ha
  · exact hR a

theorem Cellwise.set {l : List α} {n : ℕ} {a b : α} (hR : ∀ a, R a a) (ha : l[n]? = some a)
    (hab : R a b) : Cellwise R l (l.set n b) := by
  intro i a' ha'
  rw [List.getElem?_set] at ha'
  split at ha'
  · next hn =>
    subst hn
    split at ha'
    · cases ha'
      exact ⟨a,ha,hab⟩
    · cases ha'
  · exact ⟨a',ha',hR a'⟩

theorem Cellwise.pairwise {C : α → α → Prop} {l l' : List α} (h : Cellwise R l l')
    (hC : ∀ a a' b b', R a a' → R b b' → C a b → C a' b') (hl : l.Pairwise C) : l'.Pairwise C := by
  rw [List.pairwise_iff_getElem] at hl ⊢
  intro i j hi hj hij
  obtain ⟨a,ha,hRa⟩ := h i _ (List.getElem?_eq_getElem hi)
  obtain ⟨b,hb,hRb⟩ := h j _ (List.getElem?_eq_getElem hj)
  obtain ⟨hi',rfl⟩ := List.getElem?_eq_some_iff.mp ha
  obtain ⟨hj',rfl⟩ := List.getElem?_eq_some_iff.mp hb
  exact hC _ _ _ _ hRa hRb (hl i j hi' hj' hij)

theorem sweep_cellwise {f : α → σ → α × σ} (hf : ∀ a s, R a (f a s).1) (l : List α) (s : σ) :
    Cellwise R l (sweep f l s).1 := by
  induction l generalizing s with
  | nil => exact fun i a' ha' => absurd ha' (by simp [sweep])
  | cons a rest ih =>
    intro i a' ha'
    cases i with
    | zero =>
      cases ha'
      exact ⟨a,rfl,hf a s⟩
    | succ i => exact ih (f a s).2 i a' (by simpa [sweep] using ha')

end Cellwise

/-- The visit to one cell finds an environment in which an invariant of the
earlier visits holds. -/
theorem sweep_at {f : α → σ → α × σ} {I : σ → Prop} {l : List α} {i : ℕ} {a : α}
    (ha : l[i]? = some a)
    (hI : ∀ (j : ℕ) (b : α) (s : σ), j < i → l[j]? = some b → I s → I (f b s).2) {s : σ} (hs : I s) : ∃ s', I s' ∧ (sweep f l s).1[i]? = some (f a s').1 := by
  induction l generalizing i s with
  | nil => simp at ha
  | cons b rest ih =>
    cases i with
    | zero =>
      cases ha
      exact ⟨s,hs,rfl⟩
    | succ i =>
      exact ih (i := i) ha (fun j c s hj hc => hI (j + 1) c s (by omega) hc)
        (hI 0 b s (by omega) rfl hs)

theorem sweep_env {f : α → σ → α × σ} {I : σ → Prop} {l : List α}
    (hI : ∀ a ∈ l, ∀ s, I s → I (f a s).2) {s : σ} (hs : I s) : I (sweep f l s).2 := by
  induction l generalizing s with
  | nil => exact hs
  | cons a rest ih =>
    exact ih (fun b hb => hI b (List.mem_cons_of_mem _ hb)) (hI a List.mem_cons_self s hs)

/-- A visit turns the property `P` of its own cell into `Q`, and keeps `P` of the
compatible cells to come and `Q` of those behind. -/
theorem sweep_pairwise {f : α → σ → α × σ} {P Q : α → σ → Prop} {C : α → α → Prop}
    (hself : ∀ a s, P a s → Q (f a s).1 (f a s).2)
    (hother : ∀ a b s, C a b → P b s → P b (f a s).2)
    (hdone : ∀ a b s, C a b → Q a s → Q a (f b s).2)
    (hleft : ∀ a b s, C a b → C (f a s).1 b) (hright : ∀ a b s, C a b → C a (f b s).1)
    {l : List α} {s : σ} (hC : l.Pairwise C) (hP : ∀ a ∈ l, P a s) :
    (∀ a ∈ (sweep f l s).1, Q a (sweep f l s).2) ∧ (sweep f l s).1.Pairwise C ∧
      ∀ a, Q a s → (∀ b ∈ l, C a b) →
        Q a (sweep f l s).2 ∧ ∀ b ∈ (sweep f l s).1, C a b := by
  induction l generalizing s with
  | nil => exact ⟨by simp [sweep],.nil,fun a ha _ => ⟨ha,by simp [sweep]⟩⟩
  | cons a rest ih =>
    obtain ⟨hCa,hCrest⟩ := List.pairwise_cons.mp hC
    have hrest : ∀ b ∈ rest, P b (f a s).2 := fun b hb =>
      hother a b s (hCa b hb) (hP b (List.mem_cons_of_mem _ hb))
    obtain ⟨hall,hpair,hkeep⟩ := ih hCrest hrest
    obtain ⟨hfirst,hfirstC⟩ := hkeep (f a s).1 (hself a s (hP a List.mem_cons_self))
      (fun b hb => hleft a b s (hCa b hb))
    refine ⟨?_,List.pairwise_cons.mpr ⟨hfirstC,hpair⟩,?_⟩
    · intro b hb
      rcases List.mem_cons.mp hb with rfl | hb
      · exact hfirst
      · exact hall b hb
    · intro b hQb hCb
      have hba := hCb a List.mem_cons_self
      obtain ⟨hQb',hCb'⟩ := hkeep b (hdone b a s hba hQb)
        (fun c hc => hCb c (List.mem_cons_of_mem _ hc))
      refine ⟨hQb',?_⟩
      intro c hc
      rcases List.mem_cons.mp hc with rfl | hc
      · exact hright b a s hba
      · exact hCb' c hc

/-- Induction along the visited part of the array. -/
theorem foldSweep_induct {f : β → α → σ → β × α × σ} {P : β → List α → List α → σ → Prop}
    (l : List α) {b : β} {s : σ} (hP : P b [] [] s)
    (hf : ∀ b done done' a s, P b done done' s →
      P (f b a s).1 (done ++ [a]) (done' ++ [(f b a s).2.1]) (f b a s).2.2) :
    P (foldSweep f b l s).1 l (foldSweep f b l s).2.1 (foldSweep f b l s).2.2 := by
  suffices hgen : ∀ done done' : List α, P b done done' s →
      P (foldSweep f b l s).1 (done ++ l) (done' ++ (foldSweep f b l s).2.1)
        (foldSweep f b l s).2.2 from hgen [] [] hP
  clear hP
  induction l generalizing b s with
  | nil =>
    intro done done' hP
    simpa [foldSweep] using hP
  | cons a rest ih =>
    intro done done' hP
    simpa [foldSweep] using ih _ _ (hf b done done' a s hP)

/-- A feature of the cells that no visit changes. -/
theorem foldSweep_map {γ : Type*} {f : β → α → σ → β × α × σ} {g : α → γ}
    (hf : ∀ b a s, g (f b a s).2.1 = g a) (b : β) (l : List α) (s : σ) :
    (foldSweep f b l s).2.1.map g = l.map g := by
  induction l generalizing b s with
  | nil => rfl
  | cons a rest ih =>
    rw [foldSweep]
    simp only [List.map_cons]
    rw [hf, ih]

theorem foldSweep_env {f : β → α → σ → β × α × σ} {I : σ → Prop} {l : List α}
    (hI : ∀ b, ∀ a ∈ l, ∀ s, I s → I (f b a s).2.2) {b : β} {s : σ} (hs : I s) :
    I (foldSweep f b l s).2.2 := by
  induction l generalizing b s with
  | nil => exact hs
  | cons a rest ih =>
    exact ih (fun b c hc => hI b c (List.mem_cons_of_mem _ hc)) (hI b a List.mem_cons_self s hs)

end CShellXv6.Sweep
