import CShellXv6.Shell.Limits
import CShellXv6.Shell.Quoting

/-! # Where the words of a command go

Every word of a command has one role, given by the token directly before it: an
input file after `<`, an output file after `>` or `>>`, an argument anywhere
else. The splitting loop sends words where their roles say as far as its arrays
reach. The built-ins are given the tokens before any splitting and look at them
in their own ways.
-/
namespace CShellXv6.Executor
open Lexer TokenCategory

/-! ## Roles -/

inductive Role
  | argument
  | input
  | output (isAppend : Bool)
  deriving DecidableEq, Repr

def roleAfter : TokenCategory → Role
  | opLt => .input
  | opGt => .output false
  | opGtgt => .output true
  | _ => .argument

/-- The words of a list with their roles; the first token has the role `r`. -/
def roles : Role → TokenList → List (Role × Token)
  | _, [] => []
  | r, t :: rest =>
    if t.type = opWord then (r,t) :: roles (roleAfter t.type) rest
    else roles (roleAfter t.type) rest

def asArgument : Role × Token → Option Token
  | (.argument,t) => some t
  | _ => none

def asInput : Role × Token → Option Token
  | (.input,t) => some t
  | _ => none

def asOutput : Role × Token → Option (Token × Bool)
  | (.output isAppend,t) => some (t,isAppend)
  | _ => none

/-- The words that follow no redirection. -/
def remaining (u : TokenList) : TokenList := (roles .argument u).filterMap asArgument

/-- The words directly after `<`. -/
def inputTargets (u : TokenList) : TokenList := (roles .argument u).filterMap asInput

/-- The words directly after `>` and `>>`, the latter to be appended to. -/
def outputTargets (u : TokenList) : List (Token × Bool) := (roles .argument u).filterMap asOutput

theorem roles_word {t : Token} (ht : t.type = opWord) (r : Role) (rest : TokenList) :
    roles r (t :: rest) = (r,t) :: roles .argument rest := by
  rw [roles, if_pos ht, ht]
  rfl

theorem roles_operator {t : Token} (ht : t.type ≠ opWord) (r : Role) (rest : TokenList) :
    roles r (t :: rest) = roles (roleAfter t.type) rest := by
  rw [roles, if_neg ht]

theorem wordsOf_idem (list : TokenList) : wordsOf (wordsOf list) = wordsOf list := by
  simp [wordsOf]

theorem wordsOf_word {t : Token} (ht : t.type = opWord) (rest : TokenList) :
    wordsOf (t :: rest) = t :: wordsOf rest := by
  simp [wordsOf,ht]

theorem wordsOf_operator {t : Token} (ht : t.type ≠ opWord) (rest : TokenList) :
    wordsOf (t :: rest) = wordsOf rest := by
  simp [wordsOf,ht]

theorem wordsOf_of_words {u : TokenList} (hu : ∀ t ∈ u, t.type = opWord) : wordsOf u = u := by
  apply List.filter_eq_self.mpr
  simpa using hu

theorem roles_words (r : Role) (u : TokenList) : (roles r u).map Prod.snd = wordsOf u := by
  induction u generalizing r with
  | nil => rfl
  | cons t rest ih =>
    by_cases ht : t.type = opWord
    · rw [roles_word ht, List.map_cons, ih, wordsOf_word ht]
    · rw [roles_operator ht, ih, wordsOf_operator ht]

/-- Every word is found under one role. -/
theorem roles_perm (l : List (Role × Token)) :
    (l.filterMap asArgument ++ l.filterMap asInput ++ (l.filterMap asOutput).map Prod.fst).Perm
      (l.map Prod.snd) := by
  induction l with
  | nil => exact List.Perm.refl []
  | cons x l ih =>
    obtain ⟨r,t⟩ := x
    cases r with
    | argument => exact ih.cons t
    | input => exact (List.perm_middle.append_right _).trans (ih.cons t)
    | output isAppend => exact List.perm_middle.trans (ih.cons t)

theorem targets_perm (u : TokenList) :
    (remaining u ++ inputTargets u ++ (outputTargets u).map Prod.fst).Perm (wordsOf u) := by
  rw [← roles_words .argument u]
  exact roles_perm _

theorem remaining_word {t : Token} (ht : t.type = opWord) (rest : TokenList) :
    remaining (t :: rest) = t :: remaining rest := by
  rw [remaining, roles_word ht]
  rfl

/-- Without operators every word is an argument. -/
theorem roles_of_words {u : TokenList} (hu : ∀ t ∈ u, t.type = opWord) :
    roles .argument u = u.map (Prod.mk .argument) := by
  induction u with
  | nil => rfl
  | cons t rest ih =>
    rw [roles_word (hu t List.mem_cons_self), ih (fun v hv => hu v (List.mem_cons_of_mem _ hv)),
      List.map_cons]

theorem targets_of_words {u : TokenList} (hu : ∀ t ∈ u, t.type = opWord) :
    remaining u = u ∧ inputTargets u = [] ∧ outputTargets u = [] := by
  rw [remaining, inputTargets, outputTargets, roles_of_words hu, List.filterMap_map,
    List.filterMap_map, List.filterMap_map]
  exact ⟨List.filterMap_some,List.filterMap_eq_nil_iff.mpr (fun _ _ => rfl),
    List.filterMap_eq_nil_iff.mpr (fun _ _ => rfl)⟩

/-! ## The splitting loop -/

theorem redirection_role {c : TokenCategory} {push : Split → Token → Split}
    (h : redirection c = some push) :
    (roleAfter c = .input ∧ push = Split.pushInput) ∨
      ∃ isAppend, roleAfter c = .output isAppend ∧ push = Split.pushOutput isAppend := by
  cases c with
  | opLt => exact Or.inl ⟨rfl,(Option.some.inj h).symm⟩
  | opGt => exact Or.inr ⟨false,rfl,(Option.some.inj h).symm⟩
  | opGtgt => exact Or.inr ⟨true,rfl,(Option.some.inj h).symm⟩
  | opPipe => cases h
  | opAmp => cases h
  | opSemi => cases h
  | opWord => cases h

theorem roleAfter_plain {c : TokenCategory} (h : redirection c = none) :
    roleAfter c = .argument := by
  cases c with
  | opLt => cases h
  | opGt => cases h
  | opGtgt => cases h
  | opPipe => rfl
  | opAmp => rfl
  | opSemi => rfl
  | opWord => rfl

/-- The loop follows the roles, and keeps 255 arguments. -/
theorem splitLoop_roles {u : TokenList} {s : Split} (hf : Followed u) (hs : s.argv.length ≤ 255) :
    (splitLoop u s).1.argv = (s.argv ++ remaining u).take 255 ∧
      (splitLoop u s).1.inputFiles = s.inputFiles ++ inputTargets u ∧
      (splitLoop u s).1.outputFiles = s.outputFiles ++ outputTargets u := by
  fun_induction splitLoop u s with
  | case1 s =>
    rw [remaining, inputTargets, outputTargets, roles, List.filterMap_nil, List.filterMap_nil,
      List.filterMap_nil, List.append_nil, List.append_nil, List.append_nil,
      List.take_of_length_le hs]
    exact ⟨rfl,rfl,rfl⟩
  | case2 t s push hpush =>
    exact absurd (hf.1 (redirection_not_word hpush)) (by simp)
  | case3 t s push hpush w rest hw ih =>
    have hroles : roles .argument (t :: w :: rest) =
        (roleAfter t.type,w) :: roles .argument rest := by
      rw [roles_operator (redirection_not_word hpush), roles_word hw]
    rcases redirection_role hpush with ⟨hrole,rfl⟩ | ⟨isAppend,hrole,rfl⟩
    · obtain ⟨hargv,hin,hout⟩ := ih hf.2.2 hs
      rw [hrole] at hroles
      simp only [remaining, inputTargets, outputTargets, hroles] at hargv hin hout ⊢
      refine ⟨hargv,?_,hout⟩
      rw [hin, Split.pushInput_inputFiles, List.append_assoc]
      rfl
    · obtain ⟨hargv,hin,hout⟩ := ih hf.2.2 hs
      rw [hrole] at hroles
      simp only [remaining, inputTargets, outputTargets, hroles] at hargv hin hout ⊢
      refine ⟨hargv,hin,?_⟩
      rw [hout, Split.pushOutput_outputFiles, List.append_assoc]
      rfl
  | case4 t s push hpush w rest hw =>
    have hnext := hf.1 (redirection_not_word hpush)
    simp [hw] at hnext
  | case5 t rest s hnone hroom ih =>
    have hlen : (s.pushArg t).argv.length ≤ 255 := by
      simp only [Split.pushArg, List.length_append, List.length_singleton]
      omega
    obtain ⟨hargv,hin,hout⟩ := ih hf.2 hlen
    simp only [remaining, inputTargets, outputTargets, roles_word hroom.1] at hargv hin hout ⊢
    refine ⟨?_,hin,hout⟩
    rw [hargv, Split.pushArg, List.append_assoc]
    rfl
  | case6 t rest s hnone hroom ih =>
    obtain ⟨hargv,hin,hout⟩ := ih hf.2 hs
    by_cases hw : t.type = opWord
    · have hfull : s.argv.length = 255 :=
        Nat.le_antisymm hs (Nat.le_of_not_lt (fun hlt => hroom ⟨hw,hlt⟩))
      simp only [remaining, inputTargets, outputTargets, roles_word hw] at hargv hin hout ⊢
      refine ⟨?_,hin,hout⟩
      rw [hargv, List.take_append_of_le_length (by omega), List.take_append_of_le_length (by omega)]
    · simp only [remaining, inputTargets, outputTargets, roles_operator hw,
        roleAfter_plain hnone] at hargv hin hout ⊢
      exact ⟨hargv,hin,hout⟩

theorem Followed.split {u : TokenList} (hf : Followed u) :
    (splitLoop u Split.start).1.argv = (remaining u).take 255 ∧
      (splitLoop u Split.start).1.inputFiles = inputTargets u ∧
      (splitLoop u Split.start).1.outputFiles = outputTargets u := by
  have hroles := splitLoop_roles (s := Split.start) hf (Nat.zero_le 255)
  simpa only [Split.start, List.nil_append] using hroles

/-- A split that puts every word where its role says, within the arrays. -/
structure Routes (u : TokenList) (r : Split × Bool) : Prop where
  finished : r.2 = true
  arguments : r.1.argv = remaining u
  inputs : r.1.inputFiles = inputTargets u
  outputs : r.1.outputFiles = outputTargets u
  complete : (r.1.argv ++ r.1.inputFiles ++ r.1.outputFiles.map Prod.fst).Perm (wordsOf u)
  inBounds : ∀ b i, .store b i ∈ r.1.trace → i < arraySize

theorem targets_length {u : TokenList} (hf : Followed u) (htag : ∀ t ∈ u, t.Tagged) :
    (inputTargets u).length = u.countP isInput ∧ (outputTargets u).length = u.countP isOutput := by
  obtain ⟨_,hin,hout⟩ := hf.split
  obtain ⟨_,_,hi,ho⟩ := splitLoop_spec hf htag Split.start_valid
  rw [hin] at hi
  rw [hout] at ho
  simpa [Split.start] using And.intro hi ho

theorem Command.routes_iff {u : TokenList} (h : Command u) (htag : ∀ t ∈ u, t.Tagged) :
    Routes u (splitLoop u Split.start) ↔ (remaining u).length < arraySize ∧
      u.countP isInput ≤ arraySize ∧ u.countP isOutput ≤ arraySize := by
  obtain ⟨hargv,hin,hout⟩ := h.followed.split
  obtain ⟨hok,hv,hi,ho⟩ := splitLoop_spec h.followed htag Split.start_valid
  simp only [Split.start, List.length_nil, Nat.zero_add] at hi ho
  constructor
  · intro hr
    have hbound := hr.inBounds
    refine ⟨?_,?_,?_⟩
    · have hlen := congrArg List.length hr.arguments
      have hlt := hv.argvLength
      rw [← hlen]
      exact hlt
    · by_contra hlt
      have hstore := (hv.trace (.store .inputFiles arraySize)).mpr
        (Or.inr (Or.inl ⟨arraySize,by rw [Split.start, hi]; omega,rfl⟩))
      exact absurd (hbound _ _ hstore) (lt_irrefl _)
    · by_contra hlt
      have hstore := (hv.trace (.store .outputFiles arraySize)).mpr
        (Or.inr (Or.inr ⟨arraySize,by rw [Split.start, ho]; omega,rfl⟩))
      exact absurd (hbound _ _ hstore) (lt_irrefl _)
  · rintro ⟨hrem,hinput,houtput⟩
    have harguments : (splitLoop u Split.start).1.argv = remaining u := by
      rw [hargv, List.take_of_length_le]
      unfold arraySize at hrem
      omega
    refine ⟨hok,harguments,hin,hout,?_,fun b i hstore => ?_⟩
    · rw [harguments, hin, hout]
      exact targets_perm u
    · rcases (hv.trace _).mp hstore with ⟨j,hj,heq⟩ | ⟨j,hj,heq⟩ | ⟨j,hj,heq⟩
      · cases heq
        exact hj.trans hv.argvLength
      · cases heq
        rw [Split.start, hi] at hj
        omega
      · cases heq
        rw [Split.start, ho] at hj
        omega

/-! ## Lines of words -/

theorem parseTokens_words {ts : TokenList} (h : ∀ t ∈ ts, t.type = opWord) :
    Recognizer.parseTokens ts = true := by
  rw [Recognizer.parseTokens_eq_shape]
  cases ts with
  | nil => rfl
  | cons t ts =>
    rw [List.map_cons, h t List.mem_cons_self, Recognizer.shape_word]
    have hrest : ∀ u ∈ ts, u.type = opWord := fun u hu => h u (List.mem_cons_of_mem _ hu)
    clear h
    induction ts with
    | nil => exact Recognizer.argShape_nil
    | cons u ts ih =>
      rw [List.map_cons, hrest u List.mem_cons_self, Recognizer.argShape_word]
      exact ih (fun v hv => hrest v (List.mem_cons_of_mem _ hv))

/-- The word `a`, `n + 1` times over with blanks between. -/
def spaced (n : ℕ) : CString := 'a' :: (List.replicate n [' ','a']).flatten

theorem spaced_length (n : ℕ) : (spaced n).length = 2 * n + 1 := by
  simp [spaced,Nat.mul_comm]

theorem spaced_renders (n : ℕ) :
    Renders (List.replicate (n + 1) (Token.word ['a'])) (spaced n) := by
  have hword : RendersToken (Token.word ['a']) ['a'] :=
    .word [.plain 'a' (by decide)] (by decide)
  induction n with
  | zero => exact .last hword
  | succ n ih =>
    rw [List.replicate_succ] at ih ⊢
    show Renders _ (['a'] ++ ([' '] ++ spaced n))
    exact .cons hword (by decide) (by simp [isSpaceChar]) ih

def spacedLine (n : ℕ) : AcceptedLine where
  line := spaced n
  tokens := List.replicate (n + 1) (Token.word ['a'])
  lexed := lexLineLoop_renders (spaced_renders n) []
  parsed := parseTokens_words (fun _ ht => congrArg Token.type (List.eq_of_mem_replicate ht))

theorem groups_words {ts : TokenList} (hne : ts ≠ []) (h : ∀ t ∈ ts, t.type = opWord) :
    groups ts = [(ts,false)] := by
  apply groupLoop_single ts [] (fun t ht => ?_) hne
  simp [isSeparator,h t ht]

theorem groups_spaced (n : ℕ) :
    groups (spacedLine n).tokens = [(List.replicate (n + 1) (Token.word ['a']),false)] :=
  groups_words (List.cons_ne_nil _ _)
    (fun _ ht => congrArg Token.type (List.eq_of_mem_replicate ht))

/-- Both copies of the splitting loop put every word of a group where it belongs exactly
when its words fit the three arrays. -/
theorem AcceptedLine.words_routed_iff (l : AcceptedLine) {g : TokenList × Bool}
    (hg : g ∈ groups l.tokens) :
    (Routes g.1 (splitLoop (beforeSeparator g.1) Split.start) ∧
        Routes g.1 (splitLoop g.1 Split.start)) ↔
      (remaining g.1).length < arraySize ∧ g.1.countP isInput ≤ arraySize ∧
        g.1.countP isOutput ≤ arraySize := by
  rw [beforeSeparator_eq (l.command hg).noSeparator, and_self]
  exact (l.command hg).routes_iff (l.tagged hg)

/-- The two words of `a a` are the arguments. -/
theorem words_routed_two :
    Routes (List.replicate 2 (Token.word ['a']))
      (splitLoop (List.replicate 2 (Token.word ['a'])) Split.start) := by
  have hg : (List.replicate 2 (Token.word ['a']),false) ∈ groups (spacedLine 1).tokens := by
    rw [groups_spaced]
    exact List.mem_singleton_self _
  exact ((AcceptedLine.words_routed_iff (spacedLine 1) hg).mpr (by decide)).2

/-- Of 256 words on a line of 511 characters the last one is in none of the arrays. -/
theorem manyWords_lose_one :
    (spacedLine 255).line.length ≤ 1023 ∧ ∃ g ∈ groups (spacedLine 255).tokens,
      (∀ t ∈ g.1, isPipe t = false) ∧ (wordsOf g.1).length = 256 ∧
        (splitLoop (beforeSeparator g.1) Split.start).1.argv.length = 255 ∧
        (splitLoop (beforeSeparator g.1) Split.start).1.inputFiles = [] ∧
        (splitLoop (beforeSeparator g.1) Split.start).1.outputFiles = [] := by
  have hwords : ∀ t ∈ List.replicate 256 (Token.word ['a']), t.type = opWord :=
    fun _ ht => congrArg Token.type (List.eq_of_mem_replicate ht)
  have hg : (List.replicate 256 (Token.word ['a']),false) ∈ groups (spacedLine 255).tokens := by
    rw [groups_spaced]
    exact List.mem_singleton_self _
  have hcommand := (spacedLine 255).command hg
  obtain ⟨hargv,hin,hout⟩ := hcommand.followed.split
  obtain ⟨hrem,hinputs,houtputs⟩ := targets_of_words hwords
  rw [hrem] at hargv
  rw [hinputs] at hin
  rw [houtputs] at hout
  refine ⟨by rw [spacedLine, spaced_length]; decide,_,hg,
    fun t ht => word_not_pipe (hwords t ht),?_,?_,?_,?_⟩
  · rw [wordsOf_of_words hwords, List.length_replicate]
  all_goals rw [beforeSeparator_eq hcommand.noSeparator]
  · rw [hargv, List.length_take, List.length_replicate]
    rfl
  · exact hin
  · exact hout

/-! ## What the built-ins are given -/

/-- The dispatchers that may call a built-in. -/
inductive Dispatcher
  | foreground
  | background
  | stage
  deriving DecidableEq, Repr

def Dispatcher.run : Dispatcher → Outcome → TokenList → Trace
  | .foreground => executePipelineFg
  | .background => executePipelineBg
  | .stage => executeStageChild

/-- The tokens of its list that a built-in takes for its arguments: four skip the
operators, four go by position, one takes none. -/
def Builtin.arguments : Builtin → TokenList → TokenList
  | .hop, list => wordsOf list.tail
  | .reveal, list => wordsOf list.tail
  | .peek, list => wordsOf list.tail
  | .locate, list => wordsOf list.tail
  | .activities, _ => []
  | .resume, list => list.tail
  | .ping, list => list.tail
  | .spy, list => list.tail
  | .snoop, list => list.tail

theorem revealLoop_wordsOf (list : TokenList) (target : Bool) :
    revealLoop (wordsOf list) target = revealLoop list target := by
  induction list generalizing target with
  | nil => rfl
  | cons t rest ih =>
    by_cases ht : t.type = opWord
    · simp only [wordsOf_word ht, revealLoop, ih]
    · simp only [wordsOf_operator ht, revealLoop, ih, ht, ne_eq, not_false_eq_true, ↓reduceIte]

theorem peekLoop_wordsOf (list : TokenList) : peekLoop (wordsOf list) = peekLoop list := by
  induction list with
  | nil => rfl
  | cons t rest ih =>
    by_cases ht : t.type = opWord
    · simp only [wordsOf_word ht, peekLoop, ih]
    · simp only [wordsOf_operator ht, peekLoop, ih, ht, ne_eq, not_false_eq_true, ↓reduceIte]

theorem hop_eq (list : TokenList) : hop list = (wordsOf list.tail).map .deref := by
  rw [hop]
  split
  · next hshort =>
    have hnil : list.tail = [] := List.eq_nil_of_length_eq_zero (by rw [List.length_tail]; omega)
    rw [hnil]
    rfl
  · rfl

/-- Besides its name a built-in depends on its arguments only. -/
theorem runBuiltin_arguments (found : Bool) (b : Builtin) (t : Token) (rest : TokenList) :
    runBuiltin found b (t :: b.arguments (t :: rest)) = runBuiltin found b (t :: rest) := by
  cases b with
  | hop => simp only [runBuiltin, hop_eq, Builtin.arguments, List.tail_cons, wordsOf_idem]
  | reveal => exact revealLoop_wordsOf rest false
  | peek => exact peekLoop_wordsOf rest
  | locate => simp only [runBuiltin, locate, Builtin.arguments, List.tail_cons, wordsOf_idem]
  | activities => rfl
  | resume => rfl
  | ping => rfl
  | spy => rfl
  | snoop => rfl

/-- All three dispatchers call the built-in that heads a command, on all its tokens. -/
theorem Simple.run_builtin {u : TokenList} (h : Simple u) (htag : ∀ t ∈ u, t.Tagged) {b : Builtin}
    (hb : commandBuiltin u = some b) (d : Dispatcher) (o : Outcome) :
    ∃ before, d.run o u = before ++ runBuiltin o.found b u := by
  have hstages : (segments u).length = 1 := by
    rw [segments_length, List.countP_eq_zero.mpr (by simpa using h.noPipe)]
  obtain ⟨t,_,hstage⟩ := h.executeStageChild_eq htag o
  rw [hb] at hstage
  cases d with
  | foreground =>
    refine ⟨[.deref t],?_⟩
    rw [Dispatcher.run, h.executePipelineFg_eq, if_pos hstages, hstage]
    rfl
  | background =>
    refine ⟨((wordsOf u).take 1).map .deref ++ [.deref t],?_⟩
    rw [Dispatcher.run, h.executePipelineBg_eq, if_pos hstages, hstage, List.append_assoc]
    rfl
  | stage =>
    refine ⟨[.deref t],?_⟩
    rw [Dispatcher.run, hstage]
    rfl

theorem Simple.words_of_no_redirection {u : TokenList} (h : Simple u)
    (hin : u.countP isInput = 0) (hout : u.countP isOutput = 0) : ∀ t ∈ u, t.type = opWord := by
  intro t ht
  have hi := List.countP_eq_zero.mp hin t ht
  have ho := List.countP_eq_zero.mp hout t ht
  have hpipe := h.noPipe t ht
  have hsep := h.noSeparator t ht
  unfold isInput at hi
  unfold isOutput at ho
  unfold isPipe at hpipe
  unfold isSeparator at hsep
  cases htype : t.type <;> simp_all

theorem Builtin.arguments_length {b : Builtin} (hb : b ≠ .activities) (t : Token)
    (rest : TokenList) : (wordsOf rest).length ≤ (b.arguments (t :: rest)).length := by
  have hle : (wordsOf rest).length ≤ rest.length := List.length_filter_le _ _
  cases b with
  | activities => exact absurd rfl hb
  | hop | reveal | peek | locate => exact Nat.le_refl _
  | resume | ping | spy | snoop => exact hle

theorem Builtin.arguments_of_words {b : Builtin} (hb : b ≠ .activities) {t : Token}
    {rest : TokenList} (hwords : ∀ v ∈ rest, v.type = opWord) : b.arguments (t :: rest) = rest := by
  cases b with
  | activities => exact absurd rfl hb
  | hop | reveal | peek | locate => exact wordsOf_of_words hwords
  | resume | ping | spy | snoop => rfl

/-- A built-in that takes arguments finds those of `argv` exactly when the command has
no redirection and fits the array. -/
theorem Simple.arguments_eq_iff {u : TokenList} (h : Simple u) (htag : ∀ t ∈ u, t.Tagged)
    {b : Builtin} (hb : b ≠ .activities) :
    b.arguments u = (splitLoop u Split.start).1.argv.tail ↔
      (∀ t ∈ u, t.type = opWord) ∧ u.length < arraySize := by
  obtain ⟨hargv,_,_⟩ := h.followed.split
  have hhead := h.head
  cases u with
  | nil => cases hhead
  | cons t rest =>
    have ht : t.type = opWord := by simpa using hhead
    rw [hargv]
    constructor
    · intro heq
      have hlen := congrArg List.length heq
      have hperm := (targets_perm (t :: rest)).length_eq
      obtain ⟨hi,ho⟩ := targets_length h.followed htag
      have harguments := Builtin.arguments_length hb t rest
      rw [List.length_append, List.length_append, List.length_map, hi, ho, wordsOf_word ht,
        List.length_cons] at hperm
      rw [List.length_tail, List.length_take] at hlen
      rw [remaining_word ht, List.length_cons] at hperm hlen
      have hwords := h.words_of_no_redirection (by omega) (by omega)
      refine ⟨hwords,?_⟩
      rw [← (targets_of_words hwords).1, remaining_word ht, List.length_cons]
      unfold arraySize
      omega
    · rintro ⟨hwords,hlen⟩
      unfold arraySize at hlen
      rw [(targets_of_words hwords).1, List.take_of_length_le (by omega), List.tail_cons]
      exact Builtin.arguments_of_words hb (fun v hv => hwords v (List.mem_cons_of_mem _ hv))

theorem Simple.no_arguments_iff {u : TokenList} (h : Simple u) :
    (splitLoop u Split.start).1.argv.tail = [] ↔ (remaining u).length = 1 := by
  obtain ⟨hargv,_,_⟩ := h.followed.split
  have hhead := h.head
  cases u with
  | nil => cases hhead
  | cons t rest =>
    rw [hargv, remaining_word (by simpa using hhead), List.take_succ_cons, List.tail_cons,
      List.length_cons]
    simp

/-- The line `reveal a`. -/
def revealLine : AcceptedLine where
  line := ['r','e','v','e','a','l'] ++ ([' '] ++ ['a'])
  tokens := [Token.word ['r','e','v','e','a','l'],Token.word ['a']]
  lexed := lexLineLoop_renders (.cons (rendersToken_plain (by decide) (by decide)) (by decide)
    (by simp [isSpaceChar]) (.last (rendersToken_plain (by decide) (by decide)))) []
  parsed := parseTokens_words (by decide)

/-- The line `reveal > out`. -/
def revealOutLine : AcceptedLine where
  line := ['r','e','v','e','a','l'] ++ ([' '] ++ (['>'] ++ ([' '] ++ ['o','u','t'])))
  tokens := [Token.word ['r','e','v','e','a','l'],Token.operator opGt,Token.word ['o','u','t']]
  lexed := lexLineLoop_renders (.cons (rendersToken_plain (by decide) (by decide)) (by decide)
    (by simp [isSpaceChar]) (.cons (.operator opGt (by decide)) (by decide)
      (by simp [isSpaceChar]) (.last (rendersToken_plain (by decide) (by decide))))) []
  parsed := by
    rw [Recognizer.parseTokens_eq_shape]
    decide

end CShellXv6.Executor
