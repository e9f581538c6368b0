import Mathlib.Computability.ContextFreeGrammar

/-! # Right-linear grammars

A context-free grammar is right-linear when every rule writes a word followed
by at most one nonterminal. Its derivations are walks through the
nonterminals, which is the form in which a recursive-descent recognizer meets
them.
-/
namespace CShellXv6.RightLinear
variable {T : Type*} (g : ContextFreeGrammar T)

def IsRightLinear : Prop :=
  ∀ r ∈ g.rules, (∃ w : List T, r.output = w.map Symbol.terminal) ∨
    ∃ (w : List T) (B : g.NT), r.output = w.map Symbol.terminal ++ [Symbol.nonterminal B]

/-- `Walk g A w`: the word `w` is written by a chain of rules that starts at `A`. -/
inductive Walk : g.NT → List T → Prop
  | stop {A : g.NT} {w : List T} : ⟨A,w.map Symbol.terminal⟩ ∈ g.rules → Walk A w
  | step {A B : g.NT} {w v : List T} :
      ⟨A,w.map Symbol.terminal ++ [Symbol.nonterminal B]⟩ ∈ g.rules → Walk B v → Walk A (w ++ v)

variable {g}

theorem Walk.derives {A : g.NT} {w : List T} (h : Walk g A w) :
    g.Derives [Symbol.nonterminal A] (w.map Symbol.terminal) := by
  induction h with
  | stop hr => exact ContextFreeGrammar.Produces.single ⟨_,hr,ContextFreeRule.Rewrites.input_output⟩
  | @step A B w v hr _ ih =>
    have hp : g.Produces [Symbol.nonterminal A] (w.map Symbol.terminal ++ [Symbol.nonterminal B]) :=
      ⟨_,hr,ContextFreeRule.Rewrites.input_output⟩
    rw [List.map_append]
    exact hp.trans_derives (ih.append_left _)

private theorem terminal_injective : Function.Injective (Symbol.terminal : T → Symbol T g.NT) := by
  intro a b h
  cases h
  rfl

private theorem nonterminal_notMem (w : List T) (A : g.NT) :
    (Symbol.nonterminal A) ∉ w.map (Symbol.terminal : T → Symbol T g.NT) := by
  intro h
  obtain ⟨a,_,he⟩ := List.mem_map.mp h
  cases he

/-- The only nonterminal of a right-linear sentential form stands last. -/
private theorem rewrites_last {r : ContextFreeRule T g.NT} {w : List T} {B : g.NT}
    {y : List (Symbol T g.NT)}
    (h : r.Rewrites (w.map Symbol.terminal ++ [Symbol.nonterminal B]) y) :
    r.input = B ∧ y = w.map Symbol.terminal ++ r.output := by
  induction w generalizing y with
  | nil =>
    cases h with
    | head => exact ⟨rfl,by simp⟩
    | cons _ hrs => cases hrs
  | cons a w ih =>
    cases h with
    | cons _ hrs =>
      obtain ⟨hi,ho⟩ := ih hrs
      exact ⟨hi,by simp [ho]⟩

/-- Sentential forms keep the words that complete them. -/
theorem derives_form (hg : IsRightLinear g) {A : g.NT} {x : List (Symbol T g.NT)}
    (h : g.Derives [Symbol.nonterminal A] x) :
    (∃ w : List T, x = w.map Symbol.terminal ∧ Walk g A w) ∨
      ∃ (w : List T) (B : g.NT), x = w.map Symbol.terminal ++ [Symbol.nonterminal B] ∧
        ∀ v, Walk g B v → Walk g A (w ++ v) := by
  induction h with
  | refl => exact Or.inr ⟨[],A,by simp,fun v hv => by simpa using hv⟩
  | tail _ hp ih =>
    obtain ⟨r,hr,hrw⟩ := hp
    rcases ih with ⟨w,rfl,_⟩ | ⟨w,B,rfl,hw⟩
    · exact absurd hrw.nonterminal_input_mem (nonterminal_notMem w r.input)
    · obtain ⟨hi,rfl⟩ := rewrites_last hrw
      rcases hg r hr with ⟨u,ho⟩ | ⟨u,C,ho⟩
      · have hstop : Walk g B u := .stop (by rw [← hi,← ho]; exact hr)
        exact Or.inl ⟨w ++ u,by simp [ho],hw u hstop⟩
      · have hstep : ∀ v, Walk g C v → Walk g B (u ++ v) :=
          fun v hv => .step (by rw [← hi,← ho]; exact hr) hv
        refine Or.inr ⟨w ++ u,C,by simp [ho],fun v hv => ?_⟩
        rw [List.append_assoc]
        exact hw _ (hstep v hv)

/-- The language of a right-linear grammar is the set of its walks. -/
theorem mem_language_iff_walk (hg : IsRightLinear g) (w : List T) :
    w ∈ g.language ↔ Walk g g.initial w := by
  rw [ContextFreeGrammar.mem_language_iff]
  constructor
  · intro h
    rcases derives_form hg h with ⟨u,hu,hwalk⟩ | ⟨u,B,hu,_⟩
    · rwa [List.map_injective_iff.mpr terminal_injective hu]
    · have hm : Symbol.nonterminal B ∈ w.map (Symbol.terminal : T → Symbol T g.NT) := by
        rw [hu]
        simp
      exact absurd hm (nonterminal_notMem w B)
  · exact Walk.derives

end CShellXv6.RightLinear
