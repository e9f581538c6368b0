import CShellXv6.Shell.Units
import Mathlib.Algebra.Order.Group.Nat

/-! # The fixed arrays of the executor

The stage array and the argument vector are guarded by their sizes, the file
arrays are not. So a line keeps every index in bounds exactly when no command
carries more redirections of one direction than the arrays hold, and the only
way to the message `invalid syntax` after a successful parse is a pipeline that
does not fit the stage array.
-/
namespace CShellXv6.Executor
open Lexer TokenCategory Recognizer

def isInput (t : Token) : Bool := t.type == opLt

def isOutput (t : Token) : Bool := t.type == opGt || t.type == opGtgt

/-- The built-in that a command names with its first word. -/
def commandBuiltin (s : TokenList) : Option Builtin := (s.head?.bind Token.text).bind builtinOf

/-! ## The splitting loop -/

/-- What the splitting loop maintains: guarded arguments, only words in the
arrays, and a trace that names exactly the filled cells. -/
structure Split.Valid (s : Split) : Prop where
  argvLength : s.argv.length < arraySize
  argvWords : ∀ t ∈ s.argv, t.IsWord
  inputWords : ∀ t ∈ s.inputFiles, t.IsWord
  outputWords : ∀ t ∈ s.outputFiles, t.1.IsWord
  trace : ∀ a, a ∈ s.trace ↔ (∃ i < s.argv.length, a = .store .argv i) ∨
    (∃ i < s.inputFiles.length, a = .store .inputFiles i) ∨
    ∃ i < s.outputFiles.length, a = .store .outputFiles i

theorem Split.start_valid : Split.start.Valid := by
  constructor <;> simp [Split.start,arraySize]

theorem exists_lt_succ {p : ℕ → Prop} {n : ℕ} : (∃ i < n + 1, p i) ↔ (∃ i < n, p i) ∨ p n := by
  constructor
  · rintro ⟨i,hi,hp⟩
    rcases Nat.lt_succ_iff_lt_or_eq.mp hi with hlt | rfl
    · exact Or.inl ⟨i,hlt,hp⟩
    · exact Or.inr hp
  · rintro (⟨i,hi,hp⟩ | hp)
    · exact ⟨i,by omega,hp⟩
    · exact ⟨n,by omega,hp⟩

theorem forall_mem_snoc {α : Type*} {p : α → Prop} {l : List α} {a : α} (hl : ∀ x ∈ l, p x)
    (ha : p a) : ∀ x ∈ l ++ [a], p x := by
  intro x hx
  rcases List.mem_append.mp hx with hx | hx
  · exact hl x hx
  · rwa [List.mem_singleton.mp hx]

theorem Split.Valid.pushArg {s : Split} (h : s.Valid) {t : Token} (ht : t.IsWord)
    (hroom : s.argv.length < 255) : (s.pushArg t).Valid where
  argvLength := by simp [Split.pushArg,arraySize]; omega
  argvWords := forall_mem_snoc h.argvWords ht
  inputWords := h.inputWords
  outputWords := h.outputWords
  trace a := by
    simp only [Split.pushArg, List.mem_append, List.mem_singleton, h.trace, List.length_append,
      List.length_singleton, exists_lt_succ]
    exact or_right_comm

theorem Split.Valid.pushInput {s : Split} (h : s.Valid) {t : Token} (ht : t.IsWord) :
    (s.pushInput t).Valid where
  argvLength := h.argvLength
  argvWords := h.argvWords
  inputWords := forall_mem_snoc h.inputWords ht
  outputWords := h.outputWords
  trace a := by
    simp only [Split.pushInput, List.mem_append, List.mem_singleton, h.trace, List.length_append,
      List.length_singleton, exists_lt_succ]
    rw [or_assoc, or_right_comm]

theorem Split.Valid.pushOutput {s : Split} (h : s.Valid) (isAppend : Bool) {t : Token}
    (ht : t.IsWord) : (s.pushOutput isAppend t).Valid where
  argvLength := h.argvLength
  argvWords := h.argvWords
  inputWords := h.inputWords
  outputWords := forall_mem_snoc h.outputWords ht
  trace a := by
    simp only [Split.pushOutput, List.mem_append, List.mem_singleton, h.trace, List.length_append,
      List.length_singleton, exists_lt_succ]
    simp only [or_assoc]

/-- The three redirections, each with the array it fills. -/
theorem redirection_cases {c : TokenCategory} {push : Split → Token → Split}
    (h : redirection c = some push) :
    (c = opLt ∧ push = Split.pushInput) ∨
      ∃ isAppend, (c = opGt ∨ c = opGtgt) ∧ push = Split.pushOutput isAppend := by
  cases c with
  | opLt => exact Or.inl ⟨rfl,(Option.some.inj h).symm⟩
  | opGt => exact Or.inr ⟨false,Or.inl rfl,(Option.some.inj h).symm⟩
  | opGtgt => exact Or.inr ⟨true,Or.inr rfl,(Option.some.inj h).symm⟩
  | opPipe => cases h
  | opAmp => cases h
  | opSemi => cases h
  | opWord => cases h

theorem redirection_not_word {t : Token} {push : Split → Token → Split}
    (h : redirection t.type = some push) : t.type ≠ opWord := by
  intro hw
  rw [hw] at h
  cases h

theorem redirection_none {t : Token} (h : redirection t.type = none) :
    isInput t = false ∧ isOutput t = false := by
  unfold isInput isOutput
  cases ht : t.type <;> simp_all [redirection]

/-- Where every operator is followed by a word, the loop ends normally and the
file arrays receive one entry for each redirection. -/
theorem splitLoop_spec {u : TokenList} {s : Split} (hf : Followed u) (htag : ∀ t ∈ u, t.Tagged)
    (hs : s.Valid) :
    (splitLoop u s).2 = true ∧ (splitLoop u s).1.Valid ∧
      (splitLoop u s).1.inputFiles.length = s.inputFiles.length + u.countP isInput ∧
      (splitLoop u s).1.outputFiles.length = s.outputFiles.length + u.countP isOutput := by
  fun_induction splitLoop u s with
  | case1 s => simp [hs]
  | case2 t s push hpush =>
    exact absurd (hf.1 (redirection_not_word hpush)) (by simp)
  | case3 t s push hpush w rest hw ih =>
    have hin : isInput w = false := by simp [isInput,hw]
    have hout : isOutput w = false := by simp [isOutput,hw]
    have hword : w.IsWord := (htag w (by simp)).isWord hw
    have htag' : ∀ v ∈ rest, v.Tagged := fun v hv => htag v (by simp [hv])
    rcases redirection_cases hpush with ⟨ht,rfl⟩ | ⟨isAppend,ht,rfl⟩
    · obtain ⟨hok,hv,hi,ho⟩ := ih hf.2.2 htag' (hs.pushInput hword)
      have htin : isInput t = true := by simp [isInput,ht]
      have htout : isOutput t = false := by simp [isOutput,ht]
      refine ⟨hok,hv,?_,by simpa [hout,htout] using ho⟩
      have hcount : (t :: w :: rest).countP isInput = rest.countP isInput + 1 := by simp [hin,htin]
      rw [hi, hcount, Split.pushInput_inputFiles, List.length_append, List.length_singleton]
      omega
    · obtain ⟨hok,hv,hi,ho⟩ := ih hf.2.2 htag' (hs.pushOutput isAppend hword)
      have htin : isInput t = false := by rcases ht with ht | ht <;> simp [isInput,ht]
      have htout : isOutput t = true := by rcases ht with ht | ht <;> simp [isOutput,ht]
      refine ⟨hok,hv,by simpa [hin,htin] using hi,?_⟩
      have hcount : (t :: w :: rest).countP isOutput = rest.countP isOutput + 1 := by
        simp [hout,htout]
      rw [ho, hcount, Split.pushOutput_outputFiles, List.length_append, List.length_singleton]
      omega
  | case4 t s push hpush w rest hw =>
    have := hf.1 (redirection_not_word hpush)
    simp [hw] at this
  | case5 t rest s hnone hroom ih =>
    obtain ⟨hin,hout⟩ := redirection_none hnone
    obtain ⟨hok,hv,hi,ho⟩ := ih hf.2 (fun v hv => htag v (by simp [hv]))
      (hs.pushArg ((htag t (by simp)).isWord hroom.1) hroom.2)
    exact ⟨hok,hv,by simpa [hin] using hi,by simpa [hout] using ho⟩
  | case6 t rest s hnone hroom ih =>
    obtain ⟨hin,hout⟩ := redirection_none hnone
    obtain ⟨hok,hv,hi,ho⟩ := ih hf.2 (fun v hv => htag v (by simp [hv])) hs
    exact ⟨hok,hv,by simpa [hin] using hi,by simpa [hout] using ho⟩

/-! ## The launch -/

theorem openInputs_words (o : Outcome) {list : TokenList} (hw : ∀ t ∈ list, t.IsWord)
    (i : ℕ) : ∀ a ∈ (openInputs o i list).1, Harmless a := by
  induction list generalizing i with
  | nil => simp [openInputs]
  | cons t rest ih =>
    intro a ha
    have ht : t.IsWord := hw t List.mem_cons_self
    rw [openInputs] at ha
    split at ha
    · rcases List.mem_cons.mp ha with rfl | ha
      · exact ht
      · exact ih (fun v hv => hw v (List.mem_cons_of_mem _ hv)) (i + 1) a ha
    · rw [List.mem_singleton.mp ha]
      exact ht

theorem openOutputs_stores (o : Outcome) {list : List (Token × Bool)}
    (hw : ∀ t ∈ list, t.1.IsWord) (i : ℕ) :
    ∀ a ∈ (openOutputs o i list).1, Harmless a ∨ ∃ j < i + list.length, a = .store .outFds j := by
  induction list generalizing i with
  | nil => simp [openOutputs]
  | cons t rest ih =>
    intro a ha
    have ht : t.1.IsWord := hw t List.mem_cons_self
    rw [openOutputs] at ha
    split at ha
    · rcases List.mem_cons.mp ha with rfl | ha
      · exact Or.inl ht
      rcases List.mem_cons.mp ha with rfl | ha
      · exact Or.inr ⟨i,by simp,rfl⟩
      rcases ih (fun v hv => hw v (List.mem_cons_of_mem _ hv)) (i + 1) a ha with hh | ⟨j,hj,rfl⟩
      · exact Or.inl hh
      · exact Or.inr ⟨j,by simp only [List.length_cons]; omega,rfl⟩
    · rcases List.mem_cons.mp ha with rfl | ha
      · exact Or.inl ht
      · exact Or.inr ⟨i,by simp,List.mem_singleton.mp ha⟩

theorem Split.Valid.launch {s : Split} (h : s.Valid) (o : Outcome) :
    ∀ a ∈ launch o s, Harmless a ∨ ∃ i < s.outputFiles.length, a = .store .outFds i := by
  intro a ha
  rcases List.mem_cons.mp ha with rfl | ha
  · exact Or.inl h.argvLength
  cases hargv : s.argv with
  | nil => simp [hargv] at ha
  | cons cmd args =>
    have hcmd : cmd.IsWord := h.argvWords cmd (by simp [hargv])
    have hwords : ∀ {l : TokenList}, (∀ t ∈ l, t.IsWord) → a ∈ l.map Action.deref →
        Harmless a := by
      intro l hl ha
      obtain ⟨t,ht,rfl⟩ := List.mem_map.mp ha
      exact hl t ht
    simp only [hargv, List.mem_append] at ha
    rcases ha with ha | ha
    · exact Or.inl (openInputs_words o h.inputWords 0 a ha)
    split at ha
    · rcases List.mem_append.mp ha with ha | ha
      · simpa using openOutputs_stores o h.outputWords 0 a ha
      split at ha
      · rcases List.mem_cons.mp ha with rfl | ha
        · exact Or.inl hcmd
        split at ha
        · rcases List.mem_append.mp ha with ha | ha
          · exact Or.inl (hwords h.inputWords ha)
          · exact Or.inl (hwords h.argvWords (by rwa [hargv]))
        · cases ha
      · cases ha
    · cases ha

/-- The launch path writes below the number of redirections of each direction
and is harmless otherwise. -/
theorem splitAndLaunch_cases {u : TokenList} (hf : Followed u) (htag : ∀ t ∈ u, t.Tagged)
    (o : Outcome) {a : Action} (ha : a ∈ splitAndLaunch o u) : Harmless a ∨
      (∃ i < u.countP isInput, a = .store .inputFiles i) ∨
      ∃ b, ∃ i < u.countP isOutput, a = .store b i := by
  obtain ⟨hok,hv,hi,ho⟩ := splitLoop_spec hf htag Split.start_valid
  simp only [Split.start, List.length_nil, Nat.zero_add] at hi ho
  rcases List.mem_append.mp ha with ha | ha
  · rcases (hv.trace a).mp ha with ⟨i,hlt,rfl⟩ | ⟨i,hlt,rfl⟩ | ⟨i,hlt,rfl⟩
    · exact Or.inl (hlt.trans hv.argvLength)
    · exact Or.inr (Or.inl ⟨i,by rwa [← hi],rfl⟩)
    · exact Or.inr (Or.inr ⟨_,i,by rwa [← ho],rfl⟩)
  · rw [hok, if_pos rfl] at ha
    rcases hv.launch o a ha with hh | ⟨i,hlt,rfl⟩
    · exact Or.inl hh
    · exact Or.inr (Or.inr ⟨_,i,by rwa [← ho],rfl⟩)

theorem splitAndLaunch_stores {u : TokenList} (hf : Followed u) (htag : ∀ t ∈ u, t.Tagged)
    (o : Outcome) :
    (∀ i < u.countP isInput, .store .inputFiles i ∈ splitAndLaunch o u) ∧
      ∀ i < u.countP isOutput, .store .outputFiles i ∈ splitAndLaunch o u := by
  obtain ⟨_,hv,hi,ho⟩ := splitLoop_spec hf htag Split.start_valid
  simp only [Split.start, List.length_nil, Nat.zero_add] at hi ho
  constructor
  · intro i hlt
    refine List.mem_append_left _ ((hv.trace _).mpr (Or.inr (Or.inl ⟨i,?_,rfl⟩)))
    rwa [Split.start, hi]
  · intro i hlt
    refine List.mem_append_left _ ((hv.trace _).mpr (Or.inr (Or.inr ⟨i,?_,rfl⟩)))
    rwa [Split.start, ho]

/-! ## Units -/

/-- The first word decides between a built-in and the launch path. -/
theorem Simple.executeStageChild_eq {s : TokenList} (h : Simple s) (htag : ∀ t ∈ s, t.Tagged)
    (o : Outcome) : ∃ t, t.IsWord ∧ executeStageChild o s = .deref t ::
      (match commandBuiltin s with
      | some b => runBuiltin o.found b s
      | none => splitAndLaunch o s) := by
  have hhead := h.head
  cases s with
  | nil => cases hhead
  | cons t rest =>
    have hw : t.type = opWord := by simpa using hhead
    obtain ⟨text,htext⟩ := Option.isSome_iff_exists.mp ((htag t List.mem_cons_self).mp hw)
    refine ⟨t,(htag t List.mem_cons_self).isWord hw,?_⟩
    cases hb : builtinOf text <;>
      simp only [executeStageChild, dispatch, hw, readText, htext, commandBuiltin, reduceCtorEq,
        ↓reduceIte, List.head?_cons, Option.bind_some, hb]

theorem Simple.in_bounds_iff {s : TokenList} (h : Simple s) (htag : ∀ t ∈ s, t.Tagged)
    (o : Outcome) : (∀ b i, .store b i ∈ executeStageChild o s → i < arraySize) ↔
      (commandBuiltin s = none → s.countP isInput ≤ arraySize ∧ s.countP isOutput ≤ arraySize) := by
  obtain ⟨t,_,heq⟩ := h.executeStageChild_eq htag o
  rw [heq]
  cases hb : commandBuiltin s with
  | some b =>
    simp only [List.mem_cons, reduceCtorEq, false_or, IsEmpty.forall_iff, iff_true]
    intro buffer i hstore
    obtain ⟨u,hu⟩ := runBuiltin_deref htag hstore
    cases hu
  | none =>
    simp only [List.mem_cons, reduceCtorEq, false_or, forall_const]
    obtain ⟨hin,hout⟩ := splitAndLaunch_stores h.followed htag o
    constructor
    · intro hall
      constructor
      · by_contra hlt
        exact absurd (hall _ _ (hin arraySize (by omega))) (lt_irrefl _)
      · by_contra hlt
        exact absurd (hall _ _ (hout arraySize (by omega))) (lt_irrefl _)
    · rintro ⟨hi,ho⟩ buffer i hstore
      rcases splitAndLaunch_cases h.followed htag o hstore with hh | ⟨j,hj,heq⟩ | ⟨b,j,hj,heq⟩
      · exact hh
      · cases heq
        omega
      · cases heq
        omega

theorem Simple.no_invalidSyntax {s : TokenList} (h : Simple s) (htag : ∀ t ∈ s, t.Tagged)
    (o : Outcome) : .invalidSyntax ∉ executeStageChild o s := by
  obtain ⟨t,_,heq⟩ := h.executeStageChild_eq htag o
  rw [heq]
  intro ha
  rcases List.mem_cons.mp ha with hd | ha
  · cases hd
  cases hb : commandBuiltin s with
  | some b =>
    rw [hb] at ha
    obtain ⟨u,hu⟩ := runBuiltin_deref htag ha
    cases hu
  | none =>
    rw [hb] at ha
    rcases splitAndLaunch_cases h.followed htag o ha with hh | ⟨j,_,heq⟩ | ⟨b,j,_,heq⟩
    · exact hh
    · cases heq
    · cases heq

/-! ## Lines that repeat one operator -/

/-- The line `a` followed by an operator and `a` again, `n` times over. -/
def chain (op : TokenCategory) (n : ℕ) : CString :=
  'a' :: (List.replicate n (symbol op ++ ['a'])).flatten

def chainTokens (op : TokenCategory) (n : ℕ) : TokenList :=
  Token.word ['a'] :: (List.replicate n [Token.operator op,Token.word ['a']]).flatten

theorem lexWord_chain {op : TokenCategory} (hop : op ≠ opWord) (n : ℕ) :
    lexWord (chain op n) = some (['a'],(List.replicate n (symbol op ++ ['a'])).flatten) := by
  rw [lexWord, chain, lexWordLoop_plain _ _ (by decide)]
  cases n with
  | zero => exact lexWordLoop_nil _
  | succ n =>
    cases op with
    | opWord => exact absurd rfl hop
    | _ => exact lexWordLoop_stop _ _ (by decide)

theorem lexLineLoop_chain {op : TokenCategory} (hop : op ≠ opWord) (n : ℕ) (vec : TokenList) :
    lexLineLoop (chain op n) vec = some (vec ++ chainTokens op n) := by
  have hword : lexLineLoop (chain op n) vec =
      lexLineLoop (List.replicate n (symbol op ++ ['a'])).flatten (vec ++ [Token.word ['a']]) :=
    lexLineLoop_word vec (by decide) (lexWord_chain hop n)
  induction n generalizing vec with
  | zero => rw [hword]; exact lexLineLoop_nil _
  | succ n ih =>
    have hop' : lexLineLoop (List.replicate (n + 1) (symbol op ++ ['a'])).flatten
        (vec ++ [Token.word ['a']]) =
        lexLineLoop (chain op n) (vec ++ [Token.word ['a']] ++ [Token.operator op]) := by
      have : lexLineLoop (symbol op ++ chain op n) (vec ++ [Token.word ['a']]) = _ :=
        lexLineLoop_operator _ hop (by simp [chain])
      simpa [List.replicate_succ,chain] using this
    rw [hword, hop', ih _ (lexLineLoop_word _ (by decide) (lexWord_chain hop n))]
    simp [chainTokens,List.replicate_succ]

theorem parseTokens_chain {op : TokenCategory} (hop : op ≠ opWord) (n : ℕ) :
    parseTokens (chainTokens op n) = true := by
  rw [parseTokens_eq_shape, chainTokens, List.map_cons, Token.word_type, shape_word]
  induction n with
  | zero => exact argShape_nil
  | succ n ih =>
    simp only [List.replicate_succ, List.flatten_cons, List.cons_append, List.nil_append,
      List.map_cons, Token.word_type, Token.operator_type, argShape_operator hop]
    simpa using ih

def chainLine (op : TokenCategory) (hop : op ≠ opWord) (n : ℕ) : AcceptedLine where
  line := chain op n
  tokens := chainTokens op n
  lexed := lexLineLoop_chain hop n []
  parsed := parseTokens_chain hop n

theorem chainTokens_countP (op : TokenCategory) (n : ℕ) (p : Token → Bool)
    (hword : p (Token.word ['a']) = false) (hoperator : p (Token.operator op) = true) :
    (chainTokens op n).countP p = n := by
  simp [chainTokens,List.countP_flatten,hword,hoperator]

theorem chainTokens_forall {op : TokenCategory} (n : ℕ) {p : Token → Prop}
    (hword : p (Token.word ['a'])) (hoperator : p (Token.operator op)) :
    ∀ t ∈ chainTokens op n, p t := by
  intro t ht
  simp only [chainTokens, List.mem_cons, List.mem_flatten, List.mem_replicate] at ht
  rcases ht with rfl | ⟨l,⟨_,rfl⟩,ht⟩
  · exact hword
  · simp only [List.mem_cons, List.not_mem_nil, or_false] at ht
    rcases ht with rfl | rfl
    · exact hoperator
    · exact hword

theorem chain_length {op : TokenCategory} {c : Char} (h : symbol op = [c]) (n : ℕ) :
    (chain op n).length = 2 * n + 1 := by
  simp [chain,h,Nat.mul_comm]

theorem groups_chain (op : TokenCategory) (hop : isSeparator (Token.operator op) = false) (n : ℕ) :
    groups (chainTokens op n) = [(chainTokens op n,false)] :=
  groupLoop_single _ [] (chainTokens_forall n (by decide) hop) (by simp [chainTokens])

/-! ## Accepted lines -/

/-- Every array index used for any group and stage of an accepted line is in
bounds exactly when each command that is launched has at most 256 redirections
of either direction. -/
theorem AcceptedLine.stores_in_bounds_iff (l : AcceptedLine) :
    (∀ g ∈ groups l.tokens, ∀ o b i, .store b i ∈ executeGroup o g → i < arraySize) ↔
      ∀ g ∈ groups l.tokens, ∀ s ∈ units g.1, commandBuiltin s = none →
        s.countP isInput ≤ arraySize ∧ s.countP isOutput ≤ arraySize := by
  constructor
  · intro hall g hg s hs
    obtain ⟨hsimple,htag⟩ := l.unit hg hs
    rw [← hsimple.in_bounds_iff htag default]
    exact fun b i ha => hall g hg _ b i ((l.command hg).executeGroup_unit (l.tagged hg) hs ha)
  · intro hfit g hg o b i ha
    rcases (l.command hg).executeGroup_cases (l.tagged hg) ha with hh | ⟨heq,_⟩ | ⟨s,hs,ha⟩
    · exact hh
    · cases heq
    · obtain ⟨hsimple,htag⟩ := l.unit hg hs
      exact (hsimple.in_bounds_iff htag o).mpr (hfit g hg s hs) b i ha

/-- The line `a<a<a...` with 257 input redirections writes past the array. -/
theorem manyInputs_out_of_bounds :
    (chainLine opLt (by decide) 257).line.length ≤ 1023 ∧
      ∃ g ∈ groups (chainLine opLt (by decide) 257).tokens, ∀ o,
        .store .inputFiles arraySize ∈ executeGroup o g := by
  have hmem : (chainTokens opLt 257,false) ∈ groups (chainLine opLt (by decide) 257).tokens := by
    simp [chainLine,groups_chain opLt (by decide)]
  refine ⟨?_,_,hmem,fun o => ?_⟩
  · rw [chainLine, chain_length rfl]
    decide
  have hpipes : (chainTokens opLt 257).countP isPipe = 0 :=
    List.countP_eq_zero.mpr (chainTokens_forall 257 (by decide) (by decide))
  have hsegments : (segments (chainTokens opLt 257)).length = 1 := by rw [segments_length, hpipes]
  have hunit : chainTokens opLt 257 ∈ units (chainTokens opLt 257) := by
    rw [units, if_pos (by rw [hsegments]; decide), segments_eq_self hsegments]
    exact List.mem_singleton_self _
  obtain ⟨hsimple,htag⟩ := AcceptedLine.unit _ hmem hunit
  obtain ⟨t,_,heq⟩ := hsimple.executeStageChild_eq htag o
  have hexternal : commandBuiltin (chainTokens opLt 257) = none := by
    show builtinOf ['a'] = none
    decide
  apply (AcceptedLine.command _ hmem).executeGroup_unit (AcceptedLine.tagged _ hmem) hunit
  rw [heq, hexternal]
  apply List.mem_cons_of_mem
  apply (splitAndLaunch_stores hsimple.followed htag o).1
  rw [chainTokens_countP _ _ _ (by decide) (by decide)]
  decide

/-- After a successful parse the executor refuses a line as invalid exactly when
one of its groups has more stages than the stage array. -/
theorem AcceptedLine.no_invalidSyntax_iff (l : AcceptedLine) :
    (∀ g ∈ groups l.tokens, ∀ o, .invalidSyntax ∉ executeGroup o g) ↔
      ∀ g ∈ groups l.tokens, numStages g.1 ≤ arraySize := by
  constructor
  · intro hall g hg
    rw [numStages_eq (l.command hg).noSeparator]
    by_contra hlong
    exact hall g hg default ((l.command hg).executeGroup_long _ (by omega))
  · intro hfit g hg o ha
    rcases (l.command hg).executeGroup_cases (l.tagged hg) ha with hh | ⟨_,hlong⟩ | ⟨s,hs,ha⟩
    · exact hh
    · have := hfit g hg
      rw [numStages_eq (l.command hg).noSeparator] at this
      omega
    · obtain ⟨hsimple,htag⟩ := l.unit hg hs
      exact hsimple.no_invalidSyntax htag o ha

/-- The line `a|a|a...` with 257 stages parses and is then refused as invalid. -/
theorem longPipeline_invalidSyntax :
    (chainLine opPipe (by decide) 256).line.length ≤ 1023 ∧
      ∃ g ∈ groups (chainLine opPipe (by decide) 256).tokens, ∀ o,
        .invalidSyntax ∈ executeGroup o g := by
  have hmem : (chainTokens opPipe 256,false) ∈ groups (chainLine opPipe (by decide) 256).tokens := by
    simp [chainLine,groups_chain opPipe (by decide)]
  refine ⟨?_,_,hmem,fun o => ?_⟩
  · rw [chainLine, chain_length rfl]
    decide
  · apply (AcceptedLine.command _ hmem).executeGroup_long
    rw [segments_length, chainTokens_countP _ _ _ (by decide) (by decide)]
    decide

end CShellXv6.Executor
