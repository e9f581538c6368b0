import CShellXv6.Shell.Launch
import CShellXv6.Shell.Units

/-! # Who holds which end of a pipeline's pipes

The stages of a pipeline inherit every pipe that the shell has created before
the forks. Each keeps the read end of the pipe before it as standard input and
the write end of the pipe after it as standard output, and nothing else.
-/
namespace CShellXv6.Launch
open Lexer Descriptors
open Executor (Command numStages stagesOf segments arraySize numStages_eq)

/-! ## The pipes before the forks -/

theorem ends_append (pipes pipes' : List (ℕ × ℕ)) :
    ends (pipes ++ pipes') = ends pipes ++ ends pipes' :=
  List.flatMap_append

theorem of_mem_ends {pipes : List (ℕ × ℕ)} {fd : ℕ} (h : fd ∈ ends pipes) :
    ∃ (j : ℕ) (p : ℕ × ℕ), pipes[j]? = some p ∧ (fd = p.1 ∨ fd = p.2) := by
  obtain ⟨p,hp,hfd⟩ := List.mem_flatMap.mp h
  obtain ⟨j,hj⟩ := List.mem_iff_getElem?.mp hp
  exact ⟨j,p,hj,by simpa using hfd⟩

theorem mem_ends {pipes : List (ℕ × ℕ)} {j : ℕ} {p : ℕ × ℕ} (hp : pipes[j]? = some p) :
    p.1 ∈ ends pipes ∧ p.2 ∈ ends pipes := by
  have hmem := List.mem_of_getElem? hp
  exact ⟨List.mem_flatMap.mpr ⟨p,hmem,by simp⟩,List.mem_flatMap.mpr ⟨p,hmem,by simp⟩⟩

theorem Over.pipe {base : Table Handle} {ds : List ℕ} {s : State} (h : base.Over ds s.fds) :
    base.Over (ds ++ [s.pipe.1.1,s.pipe.1.2]) s.pipe.2.fds := by
  have hboth := (h.add (.readEnd s.pipeCount)).add (.writeEnd s.pipeCount)
  rwa [List.append_assoc] at hboth

/-- The two ends of a new pipe are new descriptors. -/
theorem State.pipe_fresh (s : State) : s.pipe.1.1 ∉ s.fds.fds ∧ s.pipe.1.2 ∉ s.fds.fds := by
  refine ⟨s.fds.lowest_not_mem,fun hmem => ?_⟩
  apply (s.fds.add (.readEnd s.pipeCount)).lowest_not_mem
  exact List.mem_cons_of_mem _ hmem

/-- The pipes numbered from `c` on are open on top of `base`. -/
structure Piped (base : Table Handle) (c : ℕ) (pipes : List (ℕ × ℕ)) (s : State) : Prop where
  above : base.Over (ends pipes) s.fds
  count : s.pipeCount = c + pipes.length
  readEnd : ∀ j p, pipes[j]? = some p → (p.1,.readEnd (c + j)) ∈ s.fds.entries
  writeEnd : ∀ j p, pipes[j]? = some p → (p.2,.writeEnd (c + j)) ∈ s.fds.entries

theorem Piped.nil (s : State) : Piped s.fds s.pipeCount [] s :=
  ⟨Table.Over.refl s.fds,rfl,by simp,by simp⟩

theorem getElem?_snoc {α : Type*} {l : List α} {a b : α} {j : ℕ} (h : (l ++ [a])[j]? = some b) :
    l[j]? = some b ∨ (j = l.length ∧ b = a) := by
  rw [List.getElem?_append] at h
  split at h
  · exact Or.inl h
  · next hj =>
    cases hk : j - l.length with
    | zero =>
      rw [hk] at h
      cases h
      exact Or.inr ⟨by omega,rfl⟩
    | succ k =>
      rw [hk] at h
      cases h

theorem Piped.pipe {base : Table Handle} {c : ℕ} {pipes : List (ℕ × ℕ)} {s : State}
    (h : Piped base c pipes s) : Piped base c (pipes ++ [s.pipe.1]) s.pipe.2 := by
  have hkeep : ∀ e ∈ s.fds.entries, e ∈ s.pipe.2.fds.entries := fun e he =>
    List.mem_cons_of_mem _ (List.mem_cons_of_mem _ he)
  constructor
  · rw [ends_append]
    exact Over.pipe h.above
  · change s.pipeCount + 1 = _
    rw [h.count, List.length_append, List.length_singleton, Nat.add_assoc]
  · intro j p hp
    rcases getElem?_snoc hp with hp | ⟨rfl,rfl⟩
    · exact hkeep _ (h.readEnd j p hp)
    · rw [← h.count]
      exact List.mem_cons_of_mem _ List.mem_cons_self
  · intro j p hp
    rcases getElem?_snoc hp with hp | ⟨rfl,rfl⟩
    · exact hkeep _ (h.writeEnd j p hp)
    · rw [← h.count]
      exact List.mem_cons_self

/-- The loop opens all the pipes, or stops at the first failure with the earlier
ones open. -/
theorem openPipes_spec {a : Answers} {base : Table Handle} {c i n : ℕ} {pipes : List (ℕ × ℕ)}
    {s : State} (h : Piped base c pipes s) :
    (∃ pipes' t, openPipes a i n pipes s = .ok (pipes',t) ∧ Piped base c pipes' t ∧
      pipes'.length = pipes.length + n ∧ ∀ j < n, a.pipe (i + j) = true) ∨
    (∃ k pipes' t, openPipes a i n pipes s = .error (t.print .pipeFailed) ∧
      Piped base c pipes' t ∧ pipes'.length = pipes.length + k ∧ k < n ∧
      a.pipe (i + k) = false ∧ ∀ j < k, a.pipe (i + j) = true) := by
  induction n generalizing i pipes s with
  | zero => exact Or.inl ⟨pipes,s,rfl,h,rfl,by simp⟩
  | succ n ih =>
    rw [openPipes]
    cases hi : a.pipe i with
    | false => exact Or.inr ⟨0,pipes,s,rfl,h,rfl,by omega,hi,by simp⟩
    | true =>
      have hsucc : ∀ k, (∀ j < k, a.pipe (i + 1 + j) = true) →
          ∀ j < k + 1, a.pipe (i + j) = true := by
        intro k hall j hj
        cases j with
        | zero => exact hi
        | succ j =>
          rw [Nat.add_comm j, ← Nat.add_assoc]
          exact hall j (by omega)
      have hlength : (pipes ++ [s.pipe.1]).length = pipes.length + 1 := List.length_append
      simp only [↓reduceIte]
      rcases ih (i := i + 1) h.pipe with
        ⟨pipes',t,heq,hp,hlen,hall⟩ | ⟨k,pipes',t,heq,hp,hlen,hk,hbad,hall⟩
      · exact Or.inl ⟨pipes',t,heq,hp,by omega,hsucc n hall⟩
      · refine Or.inr ⟨k + 1,pipes',t,heq,hp,by omega,by omega,?_,hsucc k hall⟩
        rw [Nat.add_comm k, ← Nat.add_assoc]
        exact hbad

/-! ## The table of a stage -/

def syncEnds : Option (ℕ × ℕ) → List ℕ
  | none => []
  | some e => [e.1,e.2]

/-- A redirection onto `new` that is made only under a condition. -/
theorem mem_dup2_if {t : Table Handle} {b : Bool} {old new : ℕ} {x : Handle} {e : ℕ × Handle}
    (h : b = true → (old,x) ∈ t.entries ∧ old ≠ new) :
    e ∈ (if b then t.dup2 old new else t).entries ↔
      (b = true ∧ e = (new,x)) ∨ (e ∈ t.entries ∧ (b = true → e.1 ≠ new)) := by
  cases b with
  | false => simp
  | true =>
    obtain ⟨hx,hne⟩ := h rfl
    simp [Table.mem_dup2 hx hne]

/-- What a stage inherits: the descriptors of the shell before the launch, the
pipes of the pipeline and the synchronization pipe. -/
structure Inherits (base : Table Handle) (c : ℕ) (pipes : List (ℕ × ℕ)) (sync : Option (ℕ × ℕ))
    (fds : Table Handle) : Prop where
  above : base.Over (ends pipes ++ syncEnds sync) fds
  readEnd : ∀ j p, pipes[j]? = some p → (p.1,.readEnd (c + j)) ∈ fds.entries
  writeEnd : ∀ j p, pipes[j]? = some p → (p.2,.writeEnd (c + j)) ∈ fds.entries
  apart : ∀ fd ∈ syncEnds sync, fd ∉ ends pipes

theorem Piped.inherits {base : Table Handle} {c : ℕ} {pipes : List (ℕ × ℕ)} {s : State}
    (h : Piped base c pipes s) : Inherits base c pipes none s.fds := by
  refine ⟨?_,h.readEnd,h.writeEnd,by simp [syncEnds]⟩
  rw [syncEnds, List.append_nil]
  exact h.above

theorem Piped.inherits_sync {base : Table Handle} {c : ℕ} {pipes : List (ℕ × ℕ)} {s : State}
    (h : Piped base c pipes s) : Inherits base c pipes (some s.pipe.1) s.pipe.2.fds := by
  have hkeep : ∀ e ∈ s.fds.entries, e ∈ s.pipe.2.fds.entries := fun e he =>
    List.mem_cons_of_mem _ (List.mem_cons_of_mem _ he)
  refine ⟨Over.pipe h.above,fun j p hp => hkeep _ (h.readEnd j p hp),
    fun j p hp => hkeep _ (h.writeEnd j p hp),fun fd hfd hends => ?_⟩
  have hopen := h.above.mem_fds hends
  obtain ⟨hread,hwrite⟩ := s.pipe_fresh
  simp only [syncEnds, List.mem_cons, List.not_mem_nil, or_false] at hfd
  rcases hfd with rfl | rfl
  · exact hread hopen
  · exact hwrite hopen

theorem mem_closeSync {sync : Option (ℕ × ℕ)} {fds : Table Handle} {e : ℕ × Handle} :
    e ∈ (closeSync fds sync).entries ↔ e ∈ fds.entries ∧ e.1 ∉ syncEnds sync := by
  cases sync with
  | none => simp [closeSync,syncEnds]
  | some p => simp [closeSync,syncEnds,and_assoc,and_comm]

theorem Inherits.not_ends {base fds : Table Handle} {c : ℕ} {pipes : List (ℕ × ℕ)}
    {sync : Option (ℕ × ℕ)} (h : Inherits base c pipes sync fds) {fd : ℕ} (hfd : fd ∈ base.fds) :
    fd ∉ ends pipes := fun hends => h.above.not_mem (List.mem_append_left _ hends) hfd

/-- The end that a stage redirects is still open after the synchronization pipe
has been closed, and it is not a standard descriptor. -/
theorem Inherits.source {base fds : Table Handle} {c : ℕ} {pipes : List (ℕ × ℕ)}
    {sync : Option (ℕ × ℕ)} (h : Inherits base c pipes sync fds) {fd std : ℕ} {x : Handle}
    (hx : (fd,x) ∈ fds.entries) (hends : fd ∈ ends pipes) (hstd : std ∈ base.fds) :
    ((fd,x) ∈ fds.entries ∧ fd ∉ syncEnds sync) ∧ fd ≠ std := by
  refine ⟨⟨hx,fun hsync => h.apart fd hsync hends⟩,?_⟩
  rintro rfl
  exact h.not_ends hstd hends

theorem getD_of_lt (pipes : List (ℕ × ℕ)) {j : ℕ} (hj : j < pipes.length) :
    pipes[j]? = some (pipes.getD j (0,0)) := by
  rw [List.getD_eq_getElem?_getD, List.getElem?_eq_getElem hj]
  rfl

/-- A stage has its ends of the pipes under 0 and 1, and otherwise what the
shell had open before, unless it has replaced it. -/
theorem mem_stageTable {base fds : Table Handle} {c n i : ℕ} {pipes : List (ℕ × ℕ)}
    {sync : Option (ℕ × ℕ)} (h : Inherits base c pipes sync fds) (hlen : n = pipes.length + 1)
    (hi : i < n) (h0 : 0 ∈ base.fds) (h1 : 1 ∈ base.fds) (stage : TokenList) {e : ℕ × Handle} :
    e ∈ (stageTable sync pipes n i stage fds).entries ↔
      (e = (0,.readEnd (c + (i - 1))) ∧ 0 < i ∧ hasInputRedir stage = false) ∨
      (e = (1,.writeEnd (c + i)) ∧ i + 1 < n ∧ hasOutputRedir stage = false) ∨
      (e ∈ base.entries ∧ (e.1 = 0 → ¬(0 < i ∧ hasInputRedir stage = false)) ∧
        (e.1 = 1 → ¬(i + 1 < n ∧ hasOutputRedir stage = false))) := by
  have hin : (!hasInputRedir stage && decide (0 < i)) = true ↔
      0 < i ∧ hasInputRedir stage = false := by
    simp [and_comm]
  have hout : (!hasOutputRedir stage && decide (i < n - 1)) = true ↔
      i + 1 < n ∧ hasOutputRedir stage = false := by
    simp only [Bool.and_eq_true, Bool.not_eq_true', decide_eq_true_eq]
    constructor
    · exact fun hb => ⟨by omega,hb.1⟩
    · exact fun hb => ⟨hb.2,by omega⟩
  have hread : (!hasInputRedir stage && decide (0 < i)) = true →
      ((pipes.getD (i - 1) (0,0)).1,Handle.readEnd (c + (i - 1))) ∈ (closeSync fds sync).entries ∧
        (pipes.getD (i - 1) (0,0)).1 ≠ 0 := by
    intro hb
    have hget := getD_of_lt pipes (j := i - 1) (by have := (hin.mp hb).1; omega)
    rw [mem_closeSync]
    exact h.source (h.readEnd _ _ hget) (mem_ends hget).1 h0
  unfold stageTable
  dsimp only
  rw [Table.mem_closeAll, mem_dup2_if (x := .writeEnd (c + i)), mem_dup2_if hread, mem_closeSync,
    hin, hout]
  · have hbase := h.above.mem_entries (e := e)
    rw [List.mem_append, not_or] at hbase
    rw [hbase]
    constructor
    · rintro ⟨⟨hb,he⟩ | ⟨⟨hb,he⟩ | ⟨⟨hmem,hsync⟩,hn0⟩,hn1⟩,hends⟩
      · exact Or.inr (Or.inl ⟨he,hb⟩)
      · exact Or.inl ⟨he,hb⟩
      · exact Or.inr (Or.inr ⟨⟨hmem,hends,hsync⟩,fun hz hb => hn0 hb hz,fun ho hb => hn1 hb ho⟩)
    · rintro (⟨rfl,hb⟩ | ⟨rfl,hb⟩ | ⟨⟨hmem,hends,hsync⟩,hn0,hn1⟩)
      · exact ⟨Or.inr ⟨Or.inl ⟨hb,rfl⟩,fun _ => by simp⟩,h.not_ends h0⟩
      · exact ⟨Or.inl ⟨hb,rfl⟩,h.not_ends h1⟩
      · exact ⟨Or.inr ⟨Or.inr ⟨⟨hmem,hsync⟩,fun hb hz => hn0 hz hb⟩,fun hb ho => hn1 ho hb⟩,hends⟩
  · intro hb
    have hget := getD_of_lt pipes (j := i) (by have := (hout.mp hb).1; omega)
    obtain ⟨hmem,hne⟩ := h.source (h.writeEnd _ _ hget) (mem_ends hget).2 h1
    obtain ⟨-,hne0⟩ := h.source (h.writeEnd _ _ hget) (mem_ends hget).2 h0
    refine ⟨?_,hne⟩
    rw [mem_dup2_if hread, mem_closeSync]
    exact Or.inr ⟨hmem,fun _ => hne0⟩

/-! ## The forks -/

theorem pgidOf_range (f : ℕ → Option Pid) (i : ℕ) :
    pgidOf ((List.range (i + 1)).map f) = pidOf (f 0) := by
  simp [pgidOf,List.range_succ_eq_map]

/-- The call that the shell makes for stage `j`. -/
def joinGroup (a : Answers) (j : ℕ) : Call := .setpgid (pidOf (a.fork j)) (pidOf (a.fork 0))

/-- In the shell the fork loop only makes the calls for the process group. -/
theorem forkLoop_spec (a : Answers) (sync : Option (ℕ × ℕ)) (pipes : List (ℕ × ℕ)) (n i : ℕ)
    (stages : List TokenList) {p : Started} (hp : p.forks = (List.range i).map a.fork) :
    forkLoop a sync pipes n i stages p =
      { state := { p.state with
          calls := p.state.calls ++ (List.range' i stages.length).map (joinGroup a) }
        forks := (List.range (i + stages.length)).map a.fork
        children := p.children ++ stages.mapIdx (fun j stage =>
          (a.fork (i + j)).map fun _ => stageTable sync pipes n (i + j) stage p.state.fds) } := by
  induction stages generalizing i p with
  | nil =>
    rw [forkLoop]
    simp [← hp]
  | cons stage rest ih =>
    have hforks : p.forks ++ [a.fork i] = (List.range (i + 1)).map a.fork := by
      rw [hp, List.range_succ, List.map_append]
      rfl
    rw [forkLoop]
    dsimp only
    rw [ih (i + 1) hforks]
    simp only [hforks, pgidOf_range, State.call, List.length_cons, List.range'_succ, List.map_cons,
      List.append_assoc, List.cons_append, List.nil_append, List.mapIdx_cons, Nat.add_zero,
      Nat.add_assoc, Nat.add_comm 1]
    rfl

theorem forkStages_eq (a : Answers) (sync : Option (ℕ × ℕ)) (pipes : List (ℕ × ℕ))
    (stages : List TokenList) (s : State) :
    forkStages a sync pipes stages s =
      { state := { s with
          calls := s.calls ++ (List.range stages.length).map (joinGroup a)
          fds := s.fds.closeAll (ends pipes) }
        forks := (List.range stages.length).map a.fork
        children := stages.mapIdx (fun i stage =>
          (a.fork i).map fun _ => stageTable sync pipes stages.length i stage s.fds) } := by
  rw [forkStages, forkLoop_spec a sync pipes _ 0 stages rfl]
  simp only [Nat.zero_add, List.nil_append, List.range_eq_range']
  rfl

/-! ## Every stage of every pipeline -/

/-- A shell between two launches: its standard input and output are open, and
pipes are numbered upwards. -/
structure State.Standard (s : State) : Prop where
  stdin : 0 ∈ s.fds.fds
  stdout : 1 ∈ s.fds.fds
  readEnd : ∀ fd k, (fd,.readEnd k) ∈ s.fds.entries → k < s.pipeCount
  writeEnd : ∀ fd k, (fd,.writeEnd k) ∈ s.fds.entries → k < s.pipeCount

/-- Pipes that were left open are numbered like all the others. -/
theorem State.Standard.piped {s t : State} (hs : s.Standard) {pipes : List (ℕ × ℕ)}
    (h : Piped s.fds s.pipeCount pipes t) : t.Standard := by
  have hopen : ∀ fd ∈ s.fds.fds, fd ∈ t.fds.fds := by
    intro fd hfd
    obtain ⟨e,he,rfl⟩ := List.mem_map.mp hfd
    exact Table.mem_fds (h.above.mem_entries.mp he).1
  -- An entry for one of the new descriptors is the end that was opened there.
  have hnew : ∀ e ∈ t.fds.entries, e ∈ s.fds.entries ∨
      ∃ j < pipes.length, e.2 = .readEnd (s.pipeCount + j) ∨ e.2 = .writeEnd (s.pipeCount + j) := by
    intro e he
    by_cases hends : e.1 ∈ ends pipes
    · obtain ⟨j,p,hp,hfd⟩ := of_mem_ends hends
      refine Or.inr ⟨j,(List.getElem?_eq_some_iff.mp hp).1,?_⟩
      rcases hfd with hfd | hfd
      · exact Or.inl (congrArg Prod.snd (Table.eq_of_mem he (h.readEnd j p hp) hfd))
      · exact Or.inr (congrArg Prod.snd (Table.eq_of_mem he (h.writeEnd j p hp) hfd))
    · exact Or.inl (h.above.mem_entries.mpr ⟨he,hends⟩)
  have hcount := h.count
  refine ⟨hopen 0 hs.stdin,hopen 1 hs.stdout,fun fd k he => ?_,fun fd k he => ?_⟩
  · rcases hnew _ he with he | ⟨j,hj,heq | heq⟩
    · have := hs.readEnd fd k he
      omega
    · cases heq
      omega
    · cases heq
  · rcases hnew _ he with he | ⟨j,hj,heq | heq⟩
    · have := hs.writeEnd fd k he
      omega
    · cases heq
    · cases heq
      omega

/-- Of the pipes numbered from `c` on, stage `i` of `n` has the read end of the
one before it as standard input and the write end of the one after it as
standard output, each unless it is redirected, and no other end. -/
structure Plumbed (c n i : ℕ) (stage : TokenList) (t : Table Handle) : Prop where
  readEnd : ∀ fd k, c ≤ k → ((fd,.readEnd k) ∈ t.entries ↔
    fd = 0 ∧ 0 < i ∧ k = c + (i - 1) ∧ hasInputRedir stage = false)
  writeEnd : ∀ fd k, c ≤ k → ((fd,.writeEnd k) ∈ t.entries ↔
    fd = 1 ∧ i + 1 < n ∧ k = c + i ∧ hasOutputRedir stage = false)

theorem State.Standard.plumbed {s : State} (hs : s.Standard) {fds : Table Handle} {n i : ℕ}
    {pipes : List (ℕ × ℕ)} {sync : Option (ℕ × ℕ)} (h : Inherits s.fds s.pipeCount pipes sync fds)
    (hlen : n = pipes.length + 1) (hi : i < n) (stage : TokenList) :
    Plumbed s.pipeCount n i stage (stageTable sync pipes n i stage fds) := by
  constructor
  · intro fd k hk
    rw [mem_stageTable h hlen hi hs.stdin hs.stdout]
    constructor
    · rintro (⟨he,hb⟩ | ⟨he,_⟩ | ⟨he,_⟩)
      · cases he
        exact ⟨rfl,hb.1,rfl,hb.2⟩
      · cases he
      · exact absurd (hs.readEnd fd k he) (by omega)
    · rintro ⟨rfl,hi,rfl,hb⟩
      exact Or.inl ⟨rfl,hi,hb⟩
  · intro fd k hk
    rw [mem_stageTable h hlen hi hs.stdin hs.stdout]
    constructor
    · rintro (⟨he,_⟩ | ⟨he,hb⟩ | ⟨he,_⟩)
      · cases he
      · cases he
        exact ⟨rfl,hb.1,rfl,hb.2⟩
      · exact absurd (hs.writeEnd fd k he) (by omega)
    · rintro ⟨rfl,hi,rfl,hb⟩
      exact Or.inr (Or.inl ⟨rfl,hi,hb⟩)

/-- The stages that were forked for a pipeline, and that no stage but the
neighbours of a pipe has an end of it. -/
structure Wired (s : State) (list : TokenList) (p : Started) : Prop where
  total : p.children.length = numStages list
  stage : ∀ i stage, (segments list)[i]? = some stage → ∃ t, p.children[i]? = some (some t) ∧
    Plumbed s.pipeCount (numStages list) i stage t
  writer : ∀ i (t : Table Handle) fd j, p.children[i]? = some (some t) →
    (fd,.writeEnd (s.pipeCount + j)) ∈ t.entries → i = j
  reader : ∀ i (t : Table Handle) fd j, p.children[i]? = some (some t) →
    (fd,.readEnd (s.pipeCount + j)) ∈ t.entries → i = j + 1

theorem stageTokens_eq {list : TokenList} (h : Command list) (hn : numStages list ≤ arraySize) :
    stageTokens list = segments list ∧ (segments list).length = numStages list := by
  rw [numStages_eq h.noSeparator] at hn ⊢
  rw [stageTokens, h.stagesOf_tokens, List.take_of_length_le hn]
  exact ⟨rfl,rfl⟩

/-- A pipeline of the documented length passes the checks on its stages. -/
theorem preparePipeline_eq {list : TokenList} (h : Command list) (hn : numStages list ≤ arraySize)
    (a : Answers) (s : State) :
    preparePipeline a list s = openPipes a 0 (numStages list - 1) [] s := by
  obtain ⟨htokens,hlen⟩ := stageTokens_eq h hn
  have hcount : (stagesOf list).any (fun p => p.count == 0) = false := by
    rw [List.any_eq_false]
    intro p hp
    simpa using h.stage_count hp
  rw [preparePipeline, htokens, hlen, hcount]
  simp

theorem wired {list : TokenList} (h : Command list) (hn : numStages list ≤ arraySize) {a : Answers}
    (hfork : ∀ i, (a.fork i).isSome) {s t : State} (hs : s.Standard) {pipes : List (ℕ × ℕ)}
    {sync : Option (ℕ × ℕ)} (hin : Inherits s.fds s.pipeCount pipes sync t.fds)
    (hlen : numStages list = pipes.length + 1) :
    Wired s list (forkStages a sync pipes (stageTokens list) t) := by
  obtain ⟨htokens,htotal⟩ := stageTokens_eq h hn
  rw [forkStages_eq, htokens, htotal]
  have hchild : ∀ i stage, (segments list)[i]? = some stage →
      ((segments list).mapIdx fun i stage => (a.fork i).map fun _ =>
        stageTable sync pipes (numStages list) i stage t.fds)[i]? =
          some (some (stageTable sync pipes (numStages list) i stage t.fds)) ∧
      Plumbed s.pipeCount (numStages list) i stage
        (stageTable sync pipes (numStages list) i stage t.fds) := by
    intro i stage hstage
    obtain ⟨pid,hpid⟩ := Option.isSome_iff_exists.mp (hfork i)
    have hi : i < numStages list := htotal ▸ (List.getElem?_eq_some_iff.mp hstage).1
    exact ⟨by simp [hstage,hpid],hs.plumbed hin hlen hi stage⟩
  have hplumbed : ∀ i u, ((segments list).mapIdx fun i stage => (a.fork i).map fun _ =>
      stageTable sync pipes (numStages list) i stage t.fds)[i]? = some (some u) →
        ∃ stage, Plumbed s.pipeCount (numStages list) i stage u := by
    intro i u hu
    rw [List.getElem?_mapIdx] at hu
    obtain ⟨stage,hstage,_⟩ := Option.map_eq_some_iff.mp hu
    obtain ⟨hget,hp⟩ := hchild i stage hstage
    rw [List.getElem?_mapIdx, hu] at hget
    cases hget
    exact ⟨stage,hp⟩
  refine ⟨by simp [htotal],fun i stage hstage => ⟨_,hchild i stage hstage⟩,?_,?_⟩
  · intro i u fd j hu he
    obtain ⟨stage,hp⟩ := hplumbed i u hu
    obtain ⟨_,_,hk,_⟩ := (hp.writeEnd fd _ (Nat.le_add_right _ _)).mp he
    omega
  · intro i u fd j hu he
    obtain ⟨stage,hp⟩ := hplumbed i u hu
    obtain ⟨_,hi,hk,_⟩ := (hp.readEnd fd _ (Nat.le_add_right _ _)).mp he
    omega

/-- Without failures the loop opens every pipe. -/
theorem openPipes_all {a : Answers} (hpipe : ∀ i, a.pipe i = true) (n : ℕ) (s : State) :
    ∃ pipes t, openPipes a 0 n [] s = .ok (pipes,t) ∧ Piped s.fds s.pipeCount pipes t ∧
      pipes.length = n := by
  rcases openPipes_spec (a := a) (i := 0) (n := n) (Piped.nil s) with
    ⟨pipes,t,heq,hp,hlen,_⟩ | ⟨k,_,_,_,_,_,_,hbad,_⟩
  · exact ⟨pipes,t,heq,hp,by simpa using hlen⟩
  · exact absurd ((hpipe (0 + k)).symm.trans hbad) (by decide)

/-- After the closing loop of a background launch the shell holds the ends of
the synchronization pipe on top of what it had before. -/
theorem Piped.closing_sync {base : Table Handle} {c : ℕ} {pipes : List (ℕ × ℕ)} {s : State}
    (h : Piped base c pipes s) :
    (s.pipe.2.fds.closeAll (ends pipes)).closeAll [s.pipe.1.1,s.pipe.1.2] = base ∧
      ∀ e, e ∈ (s.pipe.2.fds.closeAll (ends pipes)).entries ↔ e ∈ base.entries ∨
        e = (s.pipe.1.1,.readEnd (c + pipes.length)) ∨
        e = (s.pipe.1.2,.writeEnd (c + pipes.length)) := by
  have hin := h.inherits_sync
  refine ⟨by rw [← Table.closeAll_append]; exact hin.above.closeAll,fun e => ?_⟩
  have hnew : ∀ e : ℕ × Handle, e ∈ s.pipe.2.fds.entries ↔
      e = (s.pipe.1.2,.writeEnd (c + pipes.length)) ∨
      e = (s.pipe.1.1,.readEnd (c + pipes.length)) ∨ e ∈ s.fds.entries := by
    intro e
    rw [← h.count]
    exact Table.mem_add.trans (or_congr_right Table.mem_add)
  have hapart := hin.apart
  simp only [syncEnds, List.mem_cons, List.not_mem_nil, or_false, forall_eq_or_imp,
    forall_eq] at hapart
  rw [Table.mem_closeAll, hnew, h.above.mem_entries]
  constructor
  · rintro ⟨rfl | rfl | he,hends⟩
    · exact Or.inr (Or.inr rfl)
    · exact Or.inr (Or.inl rfl)
    · exact Or.inl ⟨he,hends⟩
  · rintro (⟨he,hends⟩ | rfl | rfl)
    · exact ⟨Or.inr (Or.inr he),hends⟩
    · exact ⟨Or.inr (Or.inl rfl),hapart.1⟩
    · exact ⟨Or.inl rfl,hapart.2⟩

/-- A pipeline of 2 to 256 stages whose pipe and fork calls succeed, started by
a shell that has its standard input and output. When the closing loop is over a
shell in the foreground has the descriptors that it had before; in the background
it has besides them the two ends of the synchronization pipe, and closing these
is all that is left to do. -/
theorem pipeline_plumbing {a : Answers} {list : TokenList} {s : State} (hs : s.Standard)
    (hlist : Command list) (htwo : 2 ≤ numStages list) (hn : numStages list ≤ arraySize)
    (hpipe : ∀ i, a.pipe i = true) (hsync : a.syncPipe = true) (hfork : ∀ i, (a.fork i).isSome) :
    (∃ p, startFg a list s = .ok p ∧ Wired s list p ∧ p.state.fds = s.fds) ∧
    ∃ sync p, startBg a list s = .ok (sync,p) ∧ Wired s list p ∧
      (∀ e, e ∈ p.state.fds.entries ↔ e ∈ s.fds.entries ∨
        e = (sync.1,.readEnd (s.pipeCount + (numStages list - 1))) ∨
        e = (sync.2,.writeEnd (s.pipeCount + (numStages list - 1)))) ∧
      p.state.fds.closeAll [sync.1,sync.2] = s.fds := by
  obtain ⟨pipes,t,hopen,hp,hlen⟩ := openPipes_all hpipe (numStages list - 1) s
  have hprepare : preparePipeline a list s = .ok (pipes,t) := by
    rw [preparePipeline_eq hlist hn, hopen]
  have hcount : numStages list = pipes.length + 1 := by omega
  constructor
  · refine ⟨forkStages a none pipes (stageTokens list) t,by rw [startFg, hprepare]; rfl,
      wired hlist hn hfork hs hp.inherits hcount,?_⟩
    rw [forkStages_eq]
    exact hp.above.closeAll
  · obtain ⟨hrestored,hmem⟩ := hp.closing_sync
    refine ⟨t.pipe.1,forkStages a (some t.pipe.1) pipes (stageTokens list) t.pipe.2,?_,
      wired hlist hn hfork hs hp.inherits_sync hcount,?_,?_⟩
    · rw [startBg, hprepare]
      simp only [Except.bind, openSync, hsync, ↓reduceIte]
      rfl
    · rw [forkStages_eq, ← hlen]
      exact hmem
    · rw [forkStages_eq]
      exact hrestored

/-- The shell as `main` starts it, with three descriptors from its parent. -/
def start : State where
  fds := ⟨[(0,.inherited 0),(1,.inherited 1),(2,.inherited 2)],by decide⟩
  pipeCount := 0
  table := List.replicate Jobs.maxBgJobs Jobs.emptyJob
  nextJobId := 1
  calls := []
  out := []
  forked _ := []

/-- Every call succeeds and no process stops. -/
def smooth : Answers where
  openInput _ := true
  openOutput _ := true
  visits := []
  found := true
  pipe _ := true
  syncPipe := true
  fork i := some ⟨100 + i % 1000,by omega,by omega⟩
  sigpipe := false
  isatty := true
  getpgrp := ⟨99,by decide⟩
  stopped _ := false

theorem start_standard : start.Standard := by
  constructor
  · decide
  · decide
  · intro fd k h
    simp [start] at h
  · intro fd k h
    simp [start] at h

/-- The pipeline `a | b`. -/
def onePipe : TokenList := [Token.word ['a'],Token.operator .opPipe,Token.word ['b']]

theorem onePipe_command : Command onePipe := by
  refine ⟨rfl,?_,by decide⟩
  simp [onePipe,Executor.Followed]

theorem pipeline_plumbing_onePipe :
    (∃ p, startFg smooth onePipe start = .ok p ∧ Wired start onePipe p ∧
      p.state.fds = start.fds) ∧
    ∃ sync p, startBg smooth onePipe start = .ok (sync,p) ∧ Wired start onePipe p ∧
      (∀ e, e ∈ p.state.fds.entries ↔ e ∈ start.fds.entries ∨
        e = (sync.1,.readEnd (start.pipeCount + (numStages onePipe - 1))) ∨
        e = (sync.2,.writeEnd (start.pipeCount + (numStages onePipe - 1)))) ∧
      p.state.fds.closeAll [sync.1,sync.2] = start.fds :=
  pipeline_plumbing start_standard onePipe_command (by decide) (by decide) (fun _ => rfl) rfl
    (fun _ => rfl)

/-- A background launch of `a | b`: after the closing loop the shell still has
both ends of the synchronization pipe. -/
theorem closing_loop_keeps_sync :
    ∃ p, startBg smooth onePipe start = .ok ((5,6),p) ∧
      (5,.readEnd 1) ∈ p.state.fds.entries ∧ (6,.writeEnd 1) ∈ p.state.fds.entries :=
  ⟨_,rfl,by decide,by decide⟩

end CShellXv6.Launch
