import CShellXv6.Shell.Lexer
import CShellXv6.Shell.Grammar
import CShellXv6.Shell.Split
import Mathlib.Data.List.TakeWhile

/-! # What an accepted line looks like to the executor

The parser promises which tokens follow each other. Cutting at separators and
then at pipes keeps that promise, so every group and every stage is a command:
it starts with a word, and each of its operators is followed by a word of the
same command.
-/
namespace CShellXv6.Executor
open Lexer TokenCategory Recognizer

/-- Every operator is followed by a word. -/
def Followed : TokenList → Prop
  | [] => True
  | t :: rest => (t.type ≠ opWord → rest.head?.map Token.type = some opWord) ∧ Followed rest

/-- Every operator but a final `&` is followed by a word. -/
def FollowedOrAmp : TokenList → Prop
  | [] => True
  | t :: rest => (t.type ≠ opWord → rest.head?.map Token.type = some opWord ∨
      (t.type = opAmp ∧ rest = [])) ∧ FollowedOrAmp rest

structure Command (u : TokenList) : Prop where
  head : u.head?.map Token.type = some opWord
  followed : Followed u
  noSeparator : ∀ t ∈ u, isSeparator t = false

theorem Command.ne_nil {u : TokenList} (h : Command u) : u ≠ [] := by
  rintro rfl
  cases h.head

theorem followedOrAmp_of_chain {ts : TokenList} (hc : (ts.map Token.type).IsChain Allowed)
    (hl : (ts.map Token.type).getLast? = some opWord ∨ (ts.map Token.type).getLast? = some opAmp) :
    FollowedOrAmp ts := by
  induction ts with
  | nil => trivial
  | cons t rest ih =>
    cases rest with
    | nil =>
      refine ⟨fun ht => Or.inr ⟨?_,rfl⟩,trivial⟩
      simpa [ht] using hl
    | cons u rest =>
      simp only [List.map_cons, List.isChain_cons_cons] at hc
      refine ⟨fun ht => Or.inl (by simp [hc.1 ht]),ih hc.2 ?_⟩
      simpa using hl

theorem parseTokens_followed {ts : TokenList} (h : parseTokens ts = true) :
    FollowedOrAmp ts ∧ (ts = [] ∨ ts.head?.map Token.type = some opWord) := by
  rw [parseTokens_eq_shape] at h
  cases ts with
  | nil => exact ⟨trivial,Or.inl rfl⟩
  | cons t ts =>
    simp only [List.map_cons, shape, Bool.and_eq_true, beq_iff_eq] at h
    obtain ⟨ht,hs⟩ := h
    obtain ⟨hc,hl⟩ := (argShape_iff_chain _).mp hs
    have hcons : (t :: ts).map Token.type = opWord :: ts.map Token.type := by simp [ht]
    rw [← hcons] at hc hl
    exact ⟨followedOrAmp_of_chain hc hl,Or.inr (by simp [ht])⟩

/-- Without separators there is no final `&`. -/
theorem FollowedOrAmp.followed {u : TokenList} (h : FollowedOrAmp u)
    (hs : ∀ t ∈ u, isSeparator t = false) : Followed u := by
  induction u with
  | nil => trivial
  | cons t rest ih =>
    refine ⟨fun ht => ?_,ih h.2 (fun v hv => hs v (List.mem_cons_of_mem _ hv))⟩
    rcases h.1 ht with hw | ⟨ha,_⟩
    · exact hw
    · have hsep := hs t List.mem_cons_self
      simp [isSeparator,ha] at hsep

/-- Before an operator stands a word, so a cut there leaves both sides intact. -/
theorem FollowedOrAmp.cut {cur rest : TokenList} {t : Token} (h : FollowedOrAmp (cur ++ t :: rest))
    (ht : t.type ≠ opWord) (hs : ∀ v ∈ cur, isSeparator v = false) :
    Followed cur ∧ FollowedOrAmp (t :: rest) := by
  induction cur with
  | nil => exact ⟨trivial,h⟩
  | cons c cur ih =>
    obtain ⟨hcur,hrest⟩ := ih h.2 (fun v hv => hs v (List.mem_cons_of_mem _ hv))
    refine ⟨⟨fun hc => ?_,hcur⟩,hrest⟩
    rcases h.1 hc with hw | ⟨_,hnil⟩
    · cases cur with
      | nil => exact absurd (by simpa using hw) ht
      | cons d cur => simpa using hw
    · simp at hnil

theorem separator_ne_word {t : Token} (h : isSeparator t = true) : t.type ≠ opWord := by
  intro hw
  simp [isSeparator,hw] at h

theorem groupLoop_command (rest cur : TokenList) (hf : FollowedOrAmp (cur ++ rest))
    (hh : cur ++ rest = [] ∨ (cur ++ rest).head?.map Token.type = some opWord)
    (hs : ∀ t ∈ cur, isSeparator t = false) :
    ∀ g ∈ groupLoop rest cur, Command g.1 := by
  induction rest generalizing cur with
  | nil =>
    intro g hg
    rw [List.append_nil] at hf hh
    by_cases hc : cur = []
    · simp [groupLoop,hc] at hg
    · simp only [groupLoop, hc, ↓reduceIte, List.mem_singleton] at hg
      subst hg
      exact ⟨hh.resolve_left hc,hf.followed hs,hs⟩
  | cons t rest ih =>
    intro g hg
    rw [groupLoop] at hg
    by_cases ht : isSeparator t = true
    · have hne := separator_ne_word ht
      obtain ⟨hcur,hrest⟩ := hf.cut hne hs
      have hnext : ∀ g ∈ groupLoop rest [], Command g.1 := by
        refine ih [] hrest.2 ?_ (by simp)
        rcases hrest.1 hne with hw | ⟨_,hnil⟩
        · exact Or.inr hw
        · exact Or.inl hnil
      by_cases hc : cur = []
      · simp only [ht, hc, ↓reduceIte] at hg
        exact hnext g hg
      · simp only [ht, hc, ↓reduceIte, List.mem_cons] at hg
        rcases hg with rfl | hg
        · refine ⟨?_,hcur,hs⟩
          have hh' := hh.resolve_left (by simp)
          cases cur with
          | nil => exact absurd rfl hc
          | cons c cur => simpa using hh'
        · exact hnext g hg
    · simp only [ht] at hg
      refine ih (cur ++ [t]) ?_ ?_ ?_ g hg
      · rwa [List.append_assoc, List.singleton_append]
      · rwa [List.append_assoc, List.singleton_append]
      · intro v hv
        rcases List.mem_append.mp hv with hv | hv
        · exact hs v hv
        · rw [List.mem_singleton.mp hv]
          simpa using ht

/-- Every group of an accepted line is a command. -/
theorem groups_command {ts : TokenList} (h : parseTokens ts = true) {g : TokenList × Bool}
    (hg : g ∈ groups ts) : Command g.1 := by
  obtain ⟨hf,hh⟩ := parseTokens_followed h
  exact groupLoop_command ts [] hf hh (by simp) g hg

theorem groupLoop_sub (rest cur : TokenList) {g : TokenList × Bool} (hg : g ∈ groupLoop rest cur) :
    ∀ t ∈ g.1, t ∈ cur ++ rest := by
  induction rest generalizing cur with
  | nil =>
    rw [groupLoop] at hg
    split at hg
    · cases hg
    · rw [List.mem_singleton.mp hg, List.append_nil]
      exact fun t ht => ht
  | cons c rest ih =>
    have hlater : g ∈ groupLoop rest [] → ∀ t ∈ g.1, t ∈ cur ++ c :: rest := by
      intro hg t ht
      exact List.mem_append_right _ (List.mem_cons_of_mem _ (ih [] hg t ht))
    rw [groupLoop] at hg
    split at hg
    · split at hg
      · exact hlater hg
      · rcases List.mem_cons.mp hg with rfl | hg
        · exact fun t ht => List.mem_append_left _ ht
        · exact hlater hg
    · intro t ht
      simpa using ih (cur ++ [c]) hg t ht

/-- An input line that the lexer and the parser accept. -/
structure AcceptedLine where
  line : CString
  tokens : TokenList
  lexed : lexLine line = some tokens
  parsed : parseTokens tokens = true

theorem AcceptedLine.command (l : AcceptedLine) {g : TokenList × Bool} (hg : g ∈ groups l.tokens) :
    Command g.1 := groups_command l.parsed hg

theorem AcceptedLine.tagged (l : AcceptedLine) {g : TokenList × Bool} (hg : g ∈ groups l.tokens) :
    ∀ t ∈ g.1, t.Tagged :=
  fun t ht => lexLine_tagged l.lexed t (groupLoop_sub l.tokens [] hg t ht)

theorem groupLoop_single (rest cur : TokenList) (hs : ∀ t ∈ rest, isSeparator t = false)
    (hne : cur ++ rest ≠ []) : groupLoop rest cur = [(cur ++ rest,false)] := by
  induction rest generalizing cur with
  | nil =>
    rw [List.append_nil] at hne
    simp [groupLoop,hne]
  | cons t rest ih =>
    have ht := hs t List.mem_cons_self
    have := ih (cur ++ [t]) (fun v hv => hs v (List.mem_cons_of_mem _ hv)) (by simp)
    simpa [groupLoop,ht] using this

/-! ## Stages -/

/-- The stages of a group as its maximal runs without pipes. -/
def segments (u : TokenList) : List TokenList := u.splitOnP isPipe

/-- A command without pipes, the unit that one process runs. -/
structure Simple (u : TokenList) : Prop extends Command u where
  noPipe : ∀ t ∈ u, isPipe t = false

theorem segments_cons_pipe {t : Token} (ht : isPipe t = true) (rest : TokenList) :
    segments (t :: rest) = [] :: segments rest := by
  simp [segments,List.splitOnP_cons_eq_if_modifyHead,ht]

theorem segments_cons {t : Token} (ht : isPipe t = false) (rest : TokenList) :
    segments (t :: rest) = (segments rest).modifyHead (List.cons t) := by
  simp [segments,List.splitOnP_cons_eq_if_modifyHead,ht]

theorem word_not_pipe {t : Token} (h : t.type = opWord) : isPipe t = false := by
  simp [isPipe,h]

/-- The first segment may be incomplete on the left, all others are commands. -/
theorem segments_shape {u : TokenList} (hf : Followed u) (hs : ∀ t ∈ u, isSeparator t = false) :
    ∃ s0 rest, segments u = s0 :: rest ∧
      (∀ t, u.head? = some t → isPipe t = false → s0.head? = some t) ∧
      Followed s0 ∧ (∀ t ∈ s0, isSeparator t = false ∧ isPipe t = false) ∧
      ∀ s ∈ rest, Simple s := by
  induction u with
  | nil => exact ⟨[],[],rfl,by simp,trivial,by simp,by simp⟩
  | cons t u ih =>
    obtain ⟨s0,rest,hseg,hhead,hs0,hs0s,hrest⟩ :=
      ih hf.2 (fun v hv => hs v (List.mem_cons_of_mem _ hv))
    have hnext : t.type ≠ opWord → s0.head?.map Token.type = some opWord := by
      intro ht
      obtain ⟨w,hw,hwt⟩ := Option.map_eq_some_iff.mp (hf.1 ht)
      simp [hhead w hw (word_not_pipe hwt),hwt]
    by_cases ht : isPipe t = true
    · have hne : t.type ≠ opWord := by
        intro hw
        simp [word_not_pipe hw] at ht
      refine ⟨[],s0 :: rest,by rw [segments_cons_pipe ht,hseg],?_,trivial,by simp,?_⟩
      · intro v hv hvp
        cases hv
        simp [ht] at hvp
      · intro s hsm
        rcases List.mem_cons.mp hsm with rfl | hsm
        · exact ⟨⟨hnext hne,hs0,fun v hv => (hs0s v hv).1⟩,fun v hv => (hs0s v hv).2⟩
        · exact hrest s hsm
    · have ht' : isPipe t = false := by simpa using ht
      refine ⟨t :: s0,rest,by rw [segments_cons ht',hseg]; rfl,fun v hv _ => hv,⟨hnext,hs0⟩,?_,hrest⟩
      intro v hv
      rcases List.mem_cons.mp hv with rfl | hv
      · exact ⟨hs v List.mem_cons_self,ht'⟩
      · exact hs0s v hv

theorem Command.segments_simple {u : TokenList} (h : Command u) : ∀ s ∈ segments u, Simple s := by
  obtain ⟨s0,rest,hseg,hhead,hs0,hs0s,hrest⟩ := segments_shape h.followed h.noSeparator
  intro s hs
  rw [hseg] at hs
  rcases List.mem_cons.mp hs with rfl | hs
  · obtain ⟨w,hw,hwt⟩ := Option.map_eq_some_iff.mp h.head
    refine ⟨⟨?_,hs0,fun v hv => (hs0s v hv).1⟩,fun v hv => (hs0s v hv).2⟩
    simp [hhead w hw (word_not_pipe hwt),hwt]
  · exact hrest s hs

theorem segments_length (u : TokenList) : (segments u).length = u.countP isPipe + 1 := by
  induction u with
  | nil => rfl
  | cons t u ih =>
    by_cases ht : isPipe t = true
    · rw [segments_cons_pipe ht, List.countP_cons_of_pos ht, List.length_cons, ih]
    · rw [segments_cons (by simpa using ht), List.countP_cons_of_neg ht, List.length_modifyHead, ih]

theorem beforeSeparator_eq {u : TokenList} (h : ∀ t ∈ u, isSeparator t = false) :
    beforeSeparator u = u := by
  unfold beforeSeparator
  rw [List.takeWhile_eq_self_iff]
  intro t ht
  simp [h t ht]

theorem numStages_eq {u : TokenList} (h : ∀ t ∈ u, isSeparator t = false) :
    numStages u = (segments u).length := by
  rw [numStages, beforeSeparator_eq h, segments_length]

theorem pushStage_map {α : Type*} (f : Stage → α) (stages : List Stage) (s : Stage)
    (h : stages.length ≤ arraySize) :
    (pushStage stages s).map f = (stages.map f ++ [f s]).take arraySize ∧
      (pushStage stages s).length ≤ arraySize := by
  unfold pushStage
  by_cases hlt : stages.length < arraySize
  · simp only [hlt, ↓reduceIte, List.map_append, List.map_cons, List.map_nil, List.length_append,
      List.length_singleton]
    refine ⟨(List.take_of_length_le ?_).symm,by omega⟩
    simp
    omega
  · have heq : stages.length = arraySize := by omega
    simp only [hlt, ↓reduceIte]
    refine ⟨?_,h⟩
    rw [List.take_append_of_le_length (by simp [heq]), List.take_of_length_le (by simp [heq])]

theorem take_take_append {α : Type*} (n : ℕ) (l m : List α) :
    (l.take n ++ m).take n = (l ++ m).take n := by
  rw [List.take_append, List.take_append, List.take_take, Nat.min_self, List.length_take]
  congr 2
  omega

theorem modifyHead_nil_append {α : Type*} (l : List (List α)) :
    l.modifyHead (([] : List α) ++ ·) = l := by
  cases l <;> simp

/-- The stages stored by the loop and the part still open are the segments seen
so far, up to the capacity of the array. -/
theorem stageLoop_segments (u rest : TokenList) (i startIdx : ℕ) (stages : List Stage)
    (hrest : u.drop i = rest) (hi : startIdx ≤ i) (hs : ∀ t ∈ rest, isSeparator t = false)
    (hlen : stages.length ≤ arraySize) :
    ((stageLoop rest i startIdx stages).2.map (Stage.tokens u) ++
        [u.drop (stageLoop rest i startIdx stages).1]).take arraySize =
      (stages.map (Stage.tokens u) ++
        (segments rest).modifyHead (((u.drop startIdx).take (i - startIdx)) ++ ·)).take arraySize ∧
      (stageLoop rest i startIdx stages).2.length ≤ arraySize := by
  induction rest generalizing i startIdx stages with
  | nil =>
    have hfull : (u.drop startIdx).take (i - startIdx) = u.drop startIdx := by
      apply List.take_of_length_le
      have := List.drop_eq_nil_iff.mp hrest
      simp
      omega
    simp [stageLoop,segments,hfull,hlen]
  | cons t rest ih =>
    have hsep : isSeparator t = false := hs t List.mem_cons_self
    have hs' : ∀ v ∈ rest, isSeparator v = false := fun v hv => hs v (List.mem_cons_of_mem _ hv)
    have hrest' : u.drop (i + 1) = rest := by
      rw [← List.tail_drop, hrest, List.tail_cons]
    by_cases ht : isPipe t = true
    · obtain ⟨hpush,hpushlen⟩ :=
        pushStage_map (Stage.tokens u) stages ⟨startIdx,i - startIdx⟩ hlen
      have := ih (i + 1) (i + 1) _ hrest' (Nat.le_refl _) hs' hpushlen
      simp only [Nat.sub_self, List.take_zero, modifyHead_nil_append, hpush, take_take_append] at this
      simpa [stageLoop,hsep,ht,segments_cons_pipe ht,Stage.tokens] using this
    · have ht' : isPipe t = false := by simpa using ht
      have hgrow : (u.drop startIdx).take (i + 1 - startIdx) =
          (u.drop startIdx).take (i - startIdx) ++ [t] := by
        have hget : (u.drop startIdx)[i - startIdx]? = some t := by
          rw [List.getElem?_drop, Nat.add_sub_cancel' hi, ← List.head?_drop, hrest, List.head?_cons]
        rw [Nat.sub_add_comm hi, List.take_add_one, hget]
        rfl
      have := ih (i + 1) startIdx stages hrest' (by omega) hs' hlen
      simp only [hgrow] at this
      simpa [stageLoop,hsep,ht',segments_cons ht',List.modifyHead_modifyHead,Function.comp_def]
        using this

/-- A pipe is followed by a word, so the open stage is never empty at the end. -/
theorem stageLoop_open (u rest : TokenList) (i startIdx : ℕ) (stages : List Stage)
    (hrest : u.drop i = rest) (hi : startIdx < u.length) (hf : Followed rest)
    (hs : ∀ t ∈ rest, isSeparator t = false) :
    (stageLoop rest i startIdx stages).1 < u.length := by
  induction rest generalizing i startIdx stages with
  | nil => simpa [stageLoop] using hi
  | cons t rest ih =>
    have hsep : isSeparator t = false := hs t List.mem_cons_self
    have hs' : ∀ v ∈ rest, isSeparator v = false := fun v hv => hs v (List.mem_cons_of_mem _ hv)
    have hrest' : u.drop (i + 1) = rest := by
      rw [← List.tail_drop, hrest, List.tail_cons]
    by_cases ht : isPipe t = true
    · have hne : t.type ≠ opWord := by
        intro hw
        simp [word_not_pipe hw] at ht
      have hlt : i + 1 < u.length := by
        by_contra hge
        rw [List.drop_eq_nil_of_le (by omega)] at hrest'
        subst hrest'
        exact absurd (hf.1 hne) (by simp)
      simpa [stageLoop,hsep,ht] using ih (i + 1) (i + 1) _ hrest' hlt hf.2 hs'
    · simpa [stageLoop,hsep,ht] using ih (i + 1) startIdx stages hrest' hi hf.2 hs'

theorem Command.stagesOf_tokens {u : TokenList} (h : Command u) :
    (stagesOf u).map (Stage.tokens u) = (segments u).take arraySize := by
  obtain ⟨hseg,hlen⟩ := stageLoop_segments u u 0 0 [] rfl (Nat.le_refl _) h.noSeparator (Nat.zero_le _)
  have hopen := stageLoop_open u u 0 0 [] rfl (List.length_pos_of_ne_nil h.ne_nil) h.followed
    h.noSeparator
  simp only [Nat.sub_self, List.take_zero, List.map_nil, modifyHead_nil_append] at hseg
  rw [List.nil_append] at hseg
  have hget := List.getElem?_eq_getElem hopen
  have hsep := h.noSeparator _ (List.getElem_mem hopen)
  rw [stagesOf]
  simp only [hget, hsep, Bool.false_eq_true, ↓reduceIte]
  rw [(pushStage_map (Stage.tokens u) _ _ hlen).1, ← hseg]
  congr 3
  rw [Stage.tokens, List.take_of_length_le (by simp)]

end CShellXv6.Executor
