import CShellXv6.Shell.Units
import Mathlib.Order.Basic

/-! # Stages before a separator

The pipeline functions may be given a whole line. Their stage loop stops at the
first separator, where it has just stored the last stage, and the case after the
loop then stores that stage once more, now up to the end of the list.
-/
namespace CShellXv6.Executor
open Lexer TokenCategory Recognizer

/-- The loop up to a separator is the loop on the tokens before it and a last push. -/
theorem stageLoop_separator {sep : Token} (hsep : isSeparator sep = true) (pre post : TokenList)
    (hs : ∀ t ∈ pre, isSeparator t = false) (i startIdx : ℕ) (stages : List Stage) :
    stageLoop (pre ++ sep :: post) i startIdx stages =
      let r := stageLoop pre i startIdx stages
      (r.1,if r.1 < i + pre.length then pushStage r.2 ⟨r.1,i + pre.length - r.1⟩ else r.2) := by
  induction pre generalizing i startIdx stages with
  | nil => simp [stageLoop,hsep]
  | cons t pre ih =>
    have ht : isSeparator t = false := hs t List.mem_cons_self
    have hs' : ∀ v ∈ pre, isSeparator v = false := fun v hv => hs v (List.mem_cons_of_mem _ hv)
    have hlen : i + 1 + pre.length = i + (t :: pre).length := by
      rw [List.length_cons]
      omega
    simp only [List.cons_append, stageLoop, ht, Bool.false_eq_true, ↓reduceIte]
    split
    · rw [ih hs', hlen]
    · rw [ih hs', hlen]

/-- No stage reaches past the tokens that were seen. -/
theorem stageLoop_within (rest : TokenList) (i startIdx : ℕ) (stages : List Stage)
    (hs : ∀ t ∈ rest, isSeparator t = false) (hi : startIdx ≤ i)
    (hstages : ∀ s ∈ stages, s.startIdx + s.count ≤ i) :
    (stageLoop rest i startIdx stages).1 ≤ i + rest.length ∧
      ∀ s ∈ (stageLoop rest i startIdx stages).2, s.startIdx + s.count ≤ i + rest.length := by
  induction rest generalizing i startIdx stages with
  | nil => exact ⟨hi,hstages⟩
  | cons t rest ih =>
    have ht : isSeparator t = false := hs t List.mem_cons_self
    have hs' : ∀ v ∈ rest, isSeparator v = false := fun v hv => hs v (List.mem_cons_of_mem _ hv)
    have hlen : i + (t :: rest).length = i + 1 + rest.length := by
      rw [List.length_cons]
      omega
    have hgrown : ∀ s ∈ stages, s.startIdx + s.count ≤ i + 1 :=
      fun s hsm => Nat.le_succ_of_le (hstages s hsm)
    simp only [stageLoop, ht, Bool.false_eq_true, ↓reduceIte, hlen]
    split
    · refine ih (i + 1) (i + 1) _ hs' (Nat.le_refl _) (fun s hsm => ?_)
      unfold pushStage at hsm
      split at hsm
      · rcases List.mem_append.mp hsm with hsm | hsm
        · exact hgrown s hsm
        · rw [List.mem_singleton.mp hsm]
          dsimp only
          omega
      · exact hgrown s hsm
    · exact ih (i + 1) startIdx stages hs' (by omega) hgrown

theorem Stage.tokens_append {pre : TokenList} {s : Stage} (h : s.startIdx + s.count ≤ pre.length)
    (post : TokenList) : s.tokens (pre ++ post) = s.tokens pre := by
  rw [Stage.tokens, Stage.tokens, List.drop_append_of_le_length (by omega),
    List.take_append_of_le_length (by rw [List.length_drop]; omega)]

section Before
variable {pre : TokenList} (h : Command pre)
include h

/-- Where the loop leaves the last stage of a command open. -/
theorem Command.open_stage : (stageLoop pre 0 0 []).1 < pre.length ∧
    stagesOf pre = pushStage (stageLoop pre 0 0 []).2
      ⟨(stageLoop pre 0 0 []).1,pre.length - (stageLoop pre 0 0 []).1⟩ := by
  have hopen := stageLoop_open pre pre 0 0 [] rfl (List.length_pos_of_ne_nil h.ne_nil) h.followed
    h.noSeparator
  have hsep := h.noSeparator _ (List.getElem_mem hopen)
  refine ⟨hopen,?_⟩
  simp only [stagesOf, List.getElem?_eq_getElem hopen, hsep, Bool.false_eq_true, ↓reduceIte]

theorem Command.stagesOf_within : ∀ s ∈ stagesOf pre, s.startIdx + s.count ≤ pre.length := by
  obtain ⟨hopen,hstages⟩ := h.open_stage
  obtain ⟨_,hwithin⟩ := stageLoop_within pre 0 0 [] h.noSeparator (Nat.le_refl _) (by simp)
  rw [Nat.zero_add] at hwithin
  intro s hs
  rw [hstages, pushStage] at hs
  split at hs
  · rcases List.mem_append.mp hs with hs | hs
    · exact hwithin s hs
    · rw [List.mem_singleton.mp hs]
      dsimp only
      omega
  · exact hwithin s hs

/-- Behind a separator the last stage is pushed twice. -/
theorem Command.stagesOf_separator {sep : Token} (hsep : isSeparator sep = true)
    (post : TokenList) : stagesOf (pre ++ sep :: post) = pushStage (stagesOf pre)
      ⟨(stageLoop pre 0 0 []).1,(pre ++ sep :: post).length - (stageLoop pre 0 0 []).1⟩ := by
  obtain ⟨hopen,hstages⟩ := h.open_stage
  have hloop := stageLoop_separator hsep pre post h.noSeparator 0 0 []
  simp only [Nat.zero_add, hopen, ↓reduceIte, ← hstages] at hloop
  have hget : (pre ++ sep :: post)[(stageLoop pre 0 0 []).1]? =
      some pre[(stageLoop pre 0 0 []).1] := by
    rw [List.getElem?_append_left hopen, List.getElem?_eq_getElem hopen]
  have hword := h.noSeparator _ (List.getElem_mem hopen)
  simp only [stagesOf, hloop, hget, hword, Bool.false_eq_true, ↓reduceIte]

theorem Command.stagesOf_exact (hfit : numStages pre ≤ arraySize) (post : TokenList) :
    (stagesOf pre).map (Stage.tokens (pre ++ post)) = segments pre := by
  have htokens : (stagesOf pre).map (Stage.tokens (pre ++ post)) =
      (stagesOf pre).map (Stage.tokens pre) :=
    List.map_congr_left (fun s hs => Stage.tokens_append (h.stagesOf_within s hs) post)
  rw [numStages_eq h.noSeparator] at hfit
  rw [htokens, h.stagesOf_tokens, List.take_of_length_le hfit]

theorem Command.stagesOf_numStages (hfit : numStages pre ≤ arraySize) :
    (stagesOf pre).length = numStages pre := by
  rw [numStages_eq h.noSeparator] at hfit ⊢
  rw [h.stagesOf_length, Nat.min_eq_right hfit]

end Before

/-- A list is all before its first separator, or it goes on with that separator. -/
theorem beforeSeparator_cases (list : TokenList) :
    (beforeSeparator list = list ∧ ∀ t ∈ list, isSeparator t = false) ∨
      ∃ sep post, isSeparator sep = true ∧ list = beforeSeparator list ++ sep :: post := by
  induction list with
  | nil => exact Or.inl ⟨rfl,by simp⟩
  | cons t rest ih =>
    by_cases ht : isSeparator t = true
    · exact Or.inr ⟨t,rest,ht,by simp [beforeSeparator,ht]⟩
    · have hpre : beforeSeparator (t :: rest) = t :: beforeSeparator rest := by
        simp [beforeSeparator,ht]
      rw [hpre]
      rcases ih with ⟨heq,hall⟩ | ⟨sep,post,hsep,heq⟩
      · refine Or.inl ⟨by rw [heq],fun v hv => ?_⟩
        rcases List.mem_cons.mp hv with rfl | hv
        · simpa using ht
        · exact hall v hv
      · exact Or.inr ⟨sep,post,hsep,by rw [List.cons_append, ← heq]⟩

theorem beforeSeparator_noSeparator (list : TokenList) :
    ∀ t ∈ beforeSeparator list, isSeparator t = false := by
  intro t ht
  simpa using List.mem_takeWhile_imp ht

/-- What an accepted list has before its first separator is a command. -/
theorem beforeSeparator_command {list : TokenList} (h : parseTokens list = true)
    (hne : beforeSeparator list ≠ []) : Command (beforeSeparator list) := by
  obtain ⟨hf,hhead⟩ := parseTokens_followed h
  have hs := beforeSeparator_noSeparator list
  have hlist : list ≠ [] := by
    rintro rfl
    exact hne rfl
  have hword : (beforeSeparator list).head?.map Token.type = some opWord := by
    rw [← hhead.resolve_left hlist]
    rcases beforeSeparator_cases list with ⟨heq,_⟩ | ⟨sep,post,_,heq⟩
    · rw [heq]
    · nth_rewrite 2 [heq]
      rw [List.head?_append_of_ne_nil _ hne]
  refine ⟨hword,?_,hs⟩
  rcases beforeSeparator_cases list with ⟨heq,_⟩ | ⟨sep,post,hsep,heq⟩
  · rw [heq] at hs ⊢
    exact hf.followed hs
  · rw [heq] at hf
    exact (hf.cut (separator_ne_word hsep) hs).1

/-- The stages stored for an accepted list with a pipe are the runs between its pipes up to
the first separator exactly when there is no separator or no room for one stage more. -/
theorem stages_exact_iff {list : TokenList} (h : parseTokens list = true)
    (hpipe : 2 ≤ numStages list) (hfit : numStages list ≤ arraySize) :
    ((stagesOf list).map (Stage.tokens list) = segments (beforeSeparator list) ∧
        (stagesOf list).length = numStages list ∧
        ∀ s ∈ stagesOf list, s.startIdx + s.count ≤ (beforeSeparator list).length) ↔
      ((∀ t ∈ list, isSeparator t = false) ∨ numStages list = arraySize) := by
  have hne : beforeSeparator list ≠ [] := by
    intro hnil
    rw [numStages, hnil, List.countP_nil] at hpipe
    omega
  have hcommand := beforeSeparator_command h hne
  have hnum : numStages (beforeSeparator list) = numStages list := by
    rw [numStages, numStages, beforeSeparator_eq hcommand.noSeparator]
  have hfit' : numStages (beforeSeparator list) ≤ arraySize := by rwa [hnum]
  have hlen := hcommand.stagesOf_numStages hfit'
  have hexact := hcommand.stagesOf_exact hfit'
  have hwithin := hcommand.stagesOf_within
  rw [hnum] at hlen
  rcases beforeSeparator_cases list with ⟨heq,hall⟩ | ⟨sep,post,hsep,heq⟩
  · refine iff_of_true ?_ (Or.inl hall)
    rw [heq] at hlen hexact hwithin ⊢
    exact ⟨by simpa using hexact [],hlen,hwithin⟩
  · have htwice := hcommand.stagesOf_separator hsep post
    rw [← heq] at htwice
    have hsome : ¬∀ t ∈ list, isSeparator t = false := by
      intro hall
      have hfalse := hall sep (by rw [heq]; simp)
      rw [hsep] at hfalse
      cases hfalse
    by_cases hfull : numStages list = arraySize
    · refine iff_of_true ?_ (Or.inr hfull)
      rw [pushStage, hlen, if_neg (by omega)] at htwice
      rw [htwice]
      refine ⟨?_,hlen,hwithin⟩
      have := hexact (sep :: post)
      rwa [← heq] at this
    · refine iff_of_false ?_ (not_or.mpr ⟨hsome,hfull⟩)
      rintro ⟨_,hcount,_⟩
      rw [htwice, pushStage, hlen, if_pos (by omega), List.length_append, hlen] at hcount
      simp at hcount

/-- The tokens of `a|b`. -/
def twoStages : TokenList := [Token.word ['a'],Token.operator opPipe,Token.word ['b']]

theorem stages_exact_two :
    (stagesOf twoStages).map (Stage.tokens twoStages) =
      [[Token.word ['a']],[Token.word ['b']]] := by
  have hparse : parseTokens twoStages = true := by
    rw [parseTokens_eq_shape]
    decide
  exact ((stages_exact_iff hparse (by decide) (by decide)).mpr (Or.inl (by decide))).1

/-- In `a|b;c` there are two stages and three are stored, the last one reaching past
the separator. -/
theorem stages_past_separator :
    let list := twoStages ++ [Token.operator opSemi,Token.word ['c']]
    parseTokens list = true ∧ numStages list = 2 ∧ (stagesOf list).map (Stage.tokens list) =
      [[Token.word ['a']],[Token.word ['b']],
        [Token.word ['b'],Token.operator opSemi,Token.word ['c']]] := by
  refine ⟨?_,by decide,by decide⟩
  rw [parseTokens_eq_shape]
  decide

end CShellXv6.Executor
