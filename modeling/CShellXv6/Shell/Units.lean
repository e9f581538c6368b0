import CShellXv6.Shell.Segments
import CShellXv6.Shell.Executor

/-! # A group runs its units

On an accepted line both pipeline functions and their three dispatchers come
down to one function per pipe-free command, its unit. What they do besides is
harmless, except that a pipeline with more stages than the stage array holds is
turned away.
-/
namespace CShellXv6.Executor
open Lexer TokenCategory

/-- The commands of a group that are given to a process. -/
def units (u : TokenList) : List TokenList :=
  if (segments u).length ≤ arraySize then segments u else []

/-- A use of tokens and arrays that cannot go wrong. -/
def Harmless : Action → Prop
  | .store _ index => index < arraySize
  | .deref token => token.IsWord
  | .invalidSyntax => False

theorem segments_sub {u s : TokenList} (hs : s ∈ segments u) : ∀ t ∈ s, t ∈ u := by
  induction u generalizing s with
  | nil => simp_all [segments]
  | cons c u ih =>
    by_cases hc : isPipe c = true
    · rw [segments_cons_pipe hc, List.mem_cons] at hs
      rcases hs with rfl | hs
      · simp
      · exact fun t ht => List.mem_cons_of_mem _ (ih hs t ht)
    · rw [segments_cons (by simpa using hc)] at hs
      cases hseg : segments u with
      | nil => simp [hseg] at hs
      | cons s0 rest =>
        rw [hseg, List.modifyHead_cons, List.mem_cons] at hs
        intro t ht
        rcases hs with rfl | hs
        · rcases List.mem_cons.mp ht with rfl | ht
          · exact List.mem_cons_self
          · exact List.mem_cons_of_mem _ (ih (by simp [hseg]) t ht)
        · exact List.mem_cons_of_mem _ (ih (by simp [hseg,hs]) t ht)

theorem units_sub {u s : TokenList} (hs : s ∈ units u) : s ∈ segments u := by
  rw [units] at hs
  split at hs
  · exact hs
  · cases hs

theorem Command.units_simple {u s : TokenList} (h : Command u) (hs : s ∈ units u) : Simple s :=
  h.segments_simple s (units_sub hs)

theorem segments_eq_self {u : TokenList} (h : (segments u).length = 1) : segments u = [u] := by
  rw [segments_length] at h
  apply List.splitOnP_eq_singleton
  intro t ht
  have hzero : u.countP isPipe = 0 := by omega
  simpa using List.countP_eq_zero.mp hzero t ht

theorem Command.executeCmdInternal_eq {u : TokenList} (h : Command u) (o : Outcome) :
    dispatch o u (executeCmdInternal o u) = executeStageChild o u := by
  rw [executeCmdInternal, executeStageChild, if_neg h.ne_nil, if_neg h.ne_nil,
    beforeSeparator_eq h.noSeparator]

theorem Command.executePipelineFg_eq {u : TokenList} (h : Command u) (o : Outcome) :
    executePipelineFg o u = if (segments u).length = 1 then executeStageChild o u
      else runStages o u o.anyStopped := by
  rw [executePipelineFg, if_neg h.ne_nil, numStages_eq h.noSeparator, h.executeCmdInternal_eq]

theorem Command.executePipelineBg_eq {u : TokenList} (h : Command u) (o : Outcome) :
    executePipelineBg o u = ((wordsOf u).take 1).map .deref ++
      if (segments u).length = 1 then executeStageChild o u else runStages o u true := by
  rw [executePipelineBg, if_neg h.ne_nil, numStages_eq h.noSeparator, h.executeCmdInternal_eq]

theorem Command.stagesOf_length {u : TokenList} (h : Command u) :
    (stagesOf u).length = min arraySize (segments u).length := by
  have := congrArg List.length h.stagesOf_tokens
  simpa using this

theorem Command.stage_mem {u : TokenList} (h : Command u) {s : Stage} (hs : s ∈ stagesOf u) :
    s.tokens u ∈ segments u := by
  have : s.tokens u ∈ (segments u).take arraySize := by
    rw [← h.stagesOf_tokens]
    exact List.mem_map_of_mem hs
  exact List.mem_of_mem_take this

theorem Command.stage_count {u : TokenList} (h : Command u) {s : Stage} (hs : s ∈ stagesOf u) :
    s.count ≠ 0 := by
  intro hzero
  apply (h.segments_simple _ (h.stage_mem hs)).ne_nil
  rw [Stage.tokens, hzero, List.take_zero]

theorem Command.head_word {u : TokenList} (h : Command u) (htag : ∀ t ∈ u, t.Tagged) {t : Token}
    (ht : t ∈ u.take 1) : t.IsWord := by
  apply (htag t (List.mem_of_mem_take ht)).isWord
  have hh := h.head
  cases u with
  | nil => simp at ht
  | cons c u => simp_all

/-- Too many stages: the stage array is filled and the pipeline is refused. -/
theorem Command.runStages_long {u : TokenList} (h : Command u) (o : Outcome) (register : Bool)
    (hlong : arraySize < (segments u).length) :
    runStages o u register =
      (List.range arraySize).map (.store .stages) ++ [.invalidSyntax] := by
  have hlen : (stagesOf u).length = arraySize := by
    rw [h.stagesOf_length]
    omega
  simp only [runStages, hlen, numStages_eq h.noSeparator, hlong, ↓reduceIte]

theorem Command.runStages_short {u : TokenList} (h : Command u) (htag : ∀ t ∈ u, t.Tagged)
    (o : Outcome) (register : Bool) (hshort : (segments u).length ≤ arraySize) {a : Action} :
    (a ∈ runStages o u register → Harmless a ∨ ∃ s ∈ segments u, a ∈ executeStageChild o s) ∧
      ((∃ s ∈ segments u, a ∈ executeStageChild o s) → a ∈ runStages o u register) := by
  have htokens : (stagesOf u).map (Stage.tokens u) = segments u := by
    rw [h.stagesOf_tokens, List.take_of_length_le hshort]
  have hlen : (stagesOf u).length = (segments u).length := by
    rw [← htokens, List.length_map]
  have hcount : (stagesOf u).any (fun s => s.count == 0) = false := by
    rw [List.any_eq_false]
    intro s hs
    simpa using h.stage_count hs
  have hrange : ∀ n ≤ arraySize, ∀ b, a ∈ (List.range n).map (Action.store b) → Harmless a := by
    intro n hn b ha
    obtain ⟨i,hi,rfl⟩ := List.mem_map.mp ha
    exact lt_of_lt_of_le (List.mem_range.mp hi) hn
  have hchild : a ∈ (stagesOf u).flatMap (fun s => executeStageChild o (s.tokens u)) ↔
      ∃ s ∈ segments u, a ∈ executeStageChild o s := by
    rw [← htokens]
    simp
  simp only [runStages, numStages_eq h.noSeparator, hlen, hcount, lt_irrefl, ↓reduceIte,
    Bool.false_eq_true, List.mem_append, hchild]
  refine ⟨?_,fun hs => Or.inr (Or.inl (Or.inr hs))⟩
  rintro (ha | ((ha | ha) | ha) | ha)
  · exact Or.inl (hrange _ hshort _ ha)
  · exact Or.inl (hrange _ (by omega) _ ha)
  · exact Or.inl (hrange _ hshort _ ha)
  · exact Or.inr ha
  · cases register with
    | false => simp at ha
    | true =>
      rcases List.mem_append.mp ha with ha | ha
      · exact Or.inl (hrange _ hshort _ ha)
      · obtain ⟨s,hs,ha⟩ := List.mem_flatMap.mp ha
        obtain ⟨t,ht,rfl⟩ := List.mem_map.mp ha
        have hmem := h.stage_mem hs
        have hsimple := h.segments_simple _ hmem
        exact Or.inl (hsimple.head_word (fun v hv => htag v (segments_sub hmem v hv)) ht)

/-- Everything that running a group does. -/
theorem Command.executeGroup_cases {g : TokenList × Bool} (h : Command g.1)
    (htag : ∀ t ∈ g.1, t.Tagged) {o : Outcome} {a : Action} (ha : a ∈ executeGroup o g) :
    Harmless a ∨ (a = .invalidSyntax ∧ arraySize < (segments g.1).length) ∨
      ∃ s ∈ units g.1, a ∈ executeStageChild o s := by
  have hbody : ∀ register, a ∈ (if (segments g.1).length = 1 then executeStageChild o g.1
      else runStages o g.1 register) → Harmless a ∨
      (a = .invalidSyntax ∧ arraySize < (segments g.1).length) ∨
      ∃ s ∈ units g.1, a ∈ executeStageChild o s := by
    intro register ha
    by_cases hone : (segments g.1).length = 1
    · rw [if_pos hone] at ha
      refine Or.inr (Or.inr ⟨g.1,?_,ha⟩)
      rw [units, if_pos (by rw [hone]; decide), segments_eq_self hone]
      exact List.mem_singleton_self _
    rw [if_neg hone] at ha
    by_cases hshort : (segments g.1).length ≤ arraySize
    · rcases (h.runStages_short htag o register hshort).1 ha with ha | hs
      · exact Or.inl ha
      · exact Or.inr (Or.inr (by rwa [units, if_pos hshort]))
    · rw [h.runStages_long o register (by omega), List.mem_append, List.mem_singleton] at ha
      rcases ha with ha | ha
      · obtain ⟨i,hi,rfl⟩ := List.mem_map.mp ha
        exact Or.inl (List.mem_range.mp hi)
      · exact Or.inr (Or.inl ⟨ha,by omega⟩)
  have hword : ∀ t ∈ wordsOf g.1, t.IsWord := by
    intro t ht
    rw [mem_wordsOf] at ht
    exact (htag t ht.1).isWord ht.2
  rcases List.mem_append.mp ha with ha | ha
  · obtain ⟨t,ht,rfl⟩ := List.mem_map.mp ha
    exact Or.inl (hword t (List.mem_filter.mp ht).1)
  · cases hbg : g.2 with
    | false =>
      rw [hbg, if_neg Bool.false_ne_true, h.executePipelineFg_eq] at ha
      exact hbody _ ha
    | true =>
      rw [hbg, if_pos rfl, h.executePipelineBg_eq, List.mem_append] at ha
      rcases ha with ha | ha
      · obtain ⟨t,ht,rfl⟩ := List.mem_map.mp ha
        exact Or.inl (hword t (List.mem_of_mem_take ht))
      · exact hbody _ ha

/-- Both branches of a group contain the pipeline body. -/
theorem Command.executeGroup_body {g : TokenList × Bool} (h : Command g.1) {o : Outcome}
    {a : Action} (ha : ∀ register, a ∈ (if (segments g.1).length = 1 then executeStageChild o g.1
      else runStages o g.1 register)) : a ∈ executeGroup o g := by
  rw [executeGroup]
  apply List.mem_append_right
  split
  · rw [h.executePipelineBg_eq]
    exact List.mem_append_right _ (ha true)
  · rw [h.executePipelineFg_eq]
    exact ha o.anyStopped

theorem Command.executeGroup_unit {g : TokenList × Bool} (h : Command g.1)
    (htag : ∀ t ∈ g.1, t.Tagged) {o : Outcome} {s : TokenList} (hs : s ∈ units g.1) {a : Action}
    (ha : a ∈ executeStageChild o s) :
    a ∈ executeGroup o g := by
  apply h.executeGroup_body
  intro register
  have hseg := units_sub hs
  have hshort : (segments g.1).length ≤ arraySize := by
    by_contra hlong
    rw [units, if_neg hlong] at hs
    cases hs
  by_cases hone : (segments g.1).length = 1
  · rw [segments_eq_self hone, List.mem_singleton] at hseg
    rwa [if_pos hone, ← hseg]
  · rw [if_neg hone]
    exact (h.runStages_short htag o register hshort).2 ⟨s,hseg,ha⟩

theorem Command.executeGroup_long {g : TokenList × Bool} (h : Command g.1) (o : Outcome)
    (hlong : arraySize < (segments g.1).length) : .invalidSyntax ∈ executeGroup o g := by
  apply h.executeGroup_body
  intro register
  rw [if_neg (by unfold arraySize at hlong; omega), h.runStages_long o register hlong]
  exact List.mem_append_right _ (List.mem_singleton_self _)

/-- The units of an accepted line are commands of tagged tokens. -/
theorem AcceptedLine.unit (l : AcceptedLine) {g : TokenList × Bool} (hg : g ∈ groups l.tokens)
    {s : TokenList} (hs : s ∈ units g.1) : Simple s ∧ ∀ t ∈ s, t.Tagged :=
  ⟨(l.command hg).units_simple hs,fun t ht => l.tagged hg t (segments_sub (units_sub hs) t ht)⟩

end CShellXv6.Executor
