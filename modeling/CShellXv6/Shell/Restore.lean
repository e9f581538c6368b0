import CShellXv6.Shell.Plumbing

/-! # The descriptors of the shell after a launch

Every function that opens descriptors in the shell has to close them again on
each of its paths. The paths of a single command do, and so do those of a
pipeline except one: when a pipe cannot be created, the pipes before it stay
open.
-/
namespace CShellXv6.Launch
open Lexer Descriptors
open Executor (Split splitLoop beforeSeparator numStages stagesOf arraySize)

/-- The function is defined, and when it returns the table is `base`. -/
def Result.Keeps (base : Table Handle) (r : Result) : Prop :=
  r.exit ≠ .undefined ∧ ∀ ok, r.exit = .returned ok → r.state.fds = base

theorem Result.Keeps.returned {base : Table Handle} {ok : Bool} {s : State} (h : s.fds = base) :
    Result.Keeps base ⟨.returned ok,s⟩ := ⟨by simp,fun _ _ => h⟩

theorem Result.Keeps.ofExcept {β : Type*} {base : Table Handle} {r : Except State β}
    {k : β → Result}
    (herror : ∀ t, r = .error t → t.fds = base) (hok : ∀ b, r = .ok b → (k b).Keeps base) :
    (Result.ofExcept r k).Keeps base := by
  cases r with
  | error t => exact .returned (herror t rfl)
  | ok b => exact hok b rfl

/-! ## Files -/

theorem State.openFile_over {base : Table Handle} {ds : List ℕ} {s : State}
    (h : base.Over ds s.fds) (path : CString) :
    base.Over (ds ++ [(s.openFile path).1]) (s.openFile path).2.fds := h.add _

/-- Opening a file and closing it again changes nothing. -/
theorem State.openFile_close (s : State) (path : CString) :
    ((s.openFile path).2.closeAll [(s.openFile path).1]).fds = s.fds :=
  (State.openFile_over (Table.Over.refl s.fds) path).closeAll

theorem checkInputs_fds {a : Answers} {i : ℕ} {list : TokenList} {s t : State}
    (h : checkInputs a i list s = .ok t ∨ checkInputs a i list s = .error t) : t.fds = s.fds := by
  induction list generalizing i s with
  | nil =>
    rcases h with h | h
    · cases h
      rfl
    · cases h
  | cons u rest ih =>
    rw [checkInputs] at h
    split at h
    · rw [ih h, State.openFile_close]
    · rcases h with h | h
      · cases h
      · cases h
        rfl

theorem openOutputs_ok {a : Answers} {base : Table Handle} {i : ℕ} {list : List (Token × Bool)}
    {outFds ds : List ℕ} {s t : State} (hs : base.Over outFds s.fds)
    (h : openOutputs a i list outFds s = .ok (ds,t)) : base.Over ds t.fds := by
  induction list generalizing i outFds s with
  | nil =>
    cases h
    exact hs
  | cons u rest ih =>
    rw [openOutputs] at h
    split at h
    · exact ih (State.openFile_over hs _) h
    · cases h

theorem openOutputs_error {a : Answers} {base : Table Handle} {i : ℕ} {list : List (Token × Bool)}
    {outFds : List ℕ} {s t : State} (hs : base.Over outFds s.fds)
    (h : openOutputs a i list outFds s = .error t) : t.fds = base := by
  induction list generalizing i outFds s with
  | nil => cases h
  | cons u rest ih =>
    rw [openOutputs] at h
    split at h
    · exact ih (State.openFile_over hs _) h
    · cases h
      exact hs.closeAll

theorem visitFiles_fds (visits : List Bool) (s : State) : (visitFiles visits s).fds = s.fds := by
  induction visits generalizing s with
  | nil => rfl
  | cons ok rest ih =>
    rw [visitFiles, List.foldl_cons, ← visitFiles, ih]
    cases ok with
    | false => rfl
    | true => exact s.openFile_close []

/-! ## Single commands -/

theorem openSync_ok {a : Answers} {base : Table Handle} {held : List ℕ} {s : State}
    {r : (ℕ × ℕ) × State} (hs : base.Over held s.fds) (h : openSync a held s = .ok r) :
    base.Over (held ++ [r.1.1,r.1.2]) r.2.fds := by
  rw [openSync] at h
  split at h
  · cases h
    exact Over.pipe hs
  · cases h

theorem openSync_error {a : Answers} {base : Table Handle} {held : List ℕ} {s t : State}
    (hs : base.Over held s.fds) (h : openSync a held s = .error t) : t.fds = base := by
  rw [openSync] at h
  split at h
  · cases h
  · cases h
    exact hs.closeAll

theorem announce_keeps {a : Answers} {base : Table Handle} {jobId : ℕ}
    {forks : List (Option Pid)} {names : List CString} {fullCmd : CString} {sync : ℕ × ℕ}
    {s : State}
    (h : s.fds.closeAll [sync.1,sync.2] = base) :
    (announce a jobId forks names fullCmd sync s).Keeps base := by
  unfold announce
  cases a.sigpipe with
  | true => exact ⟨by simp,by simp⟩
  | false => exact .returned h

theorem launchForeground_keeps {a : Answers} {base : Table Handle} {cmdName fullCmd : CString}
    {outFds : List ℕ} {s : State} (hs : base.Over outFds s.fds) :
    (launchForeground a cmdName fullCmd outFds s).Keeps base := by
  unfold launchForeground
  cases a.fork 0 with
  | none => exact .returned hs.closeAll
  | some pid =>
    dsimp only
    split
    · exact .returned hs.closeAll
    · exact .returned hs.closeAll

theorem launchBackground_keeps {a : Answers} {base : Table Handle} {jobId : ℕ}
    {cmdName fullCmd : CString} {outFds : List ℕ} {s : State} (hs : base.Over outFds s.fds) :
    (launchBackground a jobId cmdName fullCmd outFds s).Keeps base := by
  refine Result.Keeps.ofExcept (fun t ht => openSync_error hs ht) (fun r hr => ?_)
  have hclosed : (r.2.fds.closeAll outFds).closeAll [r.1.1,r.1.2] = base := by
    rw [← Table.closeAll_append]
    exact (openSync_ok hs hr).closeAll
  cases a.fork 0 with
  | none => exact .returned hclosed
  | some pid => exact announce_keeps hclosed

theorem checkInputs_over {a : Answers} {list : TokenList} {s t : State}
    (h : checkInputs a 0 list s = .ok t) : s.fds.Over [] t.fds := by
  rw [checkInputs_fds (Or.inl h)]
  exact Table.Over.refl s.fds

theorem openFiles_ok {a : Answers} {split : Split} {s : State} {r : List ℕ × State}
    (h : (checkInputs a 0 split.inputFiles s).bind (openOutputs a 0 split.outputFiles []) = .ok r) :
    s.fds.Over r.1 r.2.fds := by
  cases hinputs : checkInputs a 0 split.inputFiles s with
  | error t =>
    rw [hinputs] at h
    cases h
  | ok t =>
    rw [hinputs] at h
    exact openOutputs_ok (checkInputs_over hinputs) h

theorem openFiles_error {a : Answers} {split : Split} {s u : State}
    (h : (checkInputs a 0 split.inputFiles s).bind (openOutputs a 0 split.outputFiles []) =
      .error u) : u.fds = s.fds := by
  cases hinputs : checkInputs a 0 split.inputFiles s with
  | error t =>
    rw [hinputs] at h
    cases h
    exact checkInputs_fds (Or.inr hinputs)
  | ok t =>
    rw [hinputs] at h
    exact openOutputs_error (s := t) (checkInputs_over hinputs) h

theorem launchSplit_keeps (a : Answers) (split : Split) (cmdName : CString)
    (job : Option (ℕ × CString)) (fullCmd : CString) (s : State) :
    (launchSplit a split cmdName job fullCmd s).Keeps s.fds := by
  refine Result.Keeps.ofExcept (fun t ht => openFiles_error ht) (fun r hr => ?_)
  have hover := openFiles_ok hr
  split
  · cases job with
    | none => exact launchForeground_keeps hover
    | some j => exact launchBackground_keeps hover
  · exact .returned hover.closeAll

/-- The redirections of a single command fit into their arrays. -/
def Fits (list : TokenList) : Prop :=
  (splitLoop (beforeSeparator list) Split.start).1.inputFiles.length ≤ arraySize ∧
    (splitLoop (beforeSeparator list) Split.start).1.outputFiles.length ≤ arraySize

theorem executeCmdInternal_keeps (a : Answers) {list : TokenList} (hfits : Fits list)
    (job : Option (ℕ × CString)) (fullCmd : CString) (s : State) :
    (executeCmdInternal a list job fullCmd s).Keeps s.fds := by
  unfold executeCmdInternal
  split
  · exact .returned rfl
  · dsimp only
    have hin : ¬(arraySize < (splitLoop (beforeSeparator list) Split.start).1.inputFiles.length ∨
        arraySize < (splitLoop (beforeSeparator list) Split.start).1.outputFiles.length) := by
      obtain ⟨hi,ho⟩ := hfits
      omega
    rw [if_neg hin]
    split
    · split
      · exact .returned rfl
      · exact launchSplit_keeps ..
    · exact .returned rfl

theorem executeCmdInternal_undefined (a : Answers) {list : TokenList} (hfits : ¬Fits list)
    (job : Option (ℕ × CString)) (fullCmd : CString) (s : State) :
    (executeCmdInternal a list job fullCmd s).exit = .undefined := by
  unfold executeCmdInternal
  split
  · next hnil =>
    exact absurd (by subst hnil; exact ⟨Nat.zero_le _,Nat.zero_le _⟩) hfits
  · dsimp only
    rw [if_pos]
    by_contra hin
    exact hfits ⟨by omega,by omega⟩

/-! ## Pipelines -/

/-- Both pipeline functions get past the checks on the stages. -/
def StagesOk (list : TokenList) : Prop :=
  numStages list ≤ (stageTokens list).length ∧ ∀ p ∈ stagesOf list, p.count ≠ 0

/-- Of the `pipe` calls of a pipeline only the first fails, or none. -/
def PipesOk (a : Answers) (list : TokenList) : Prop :=
  a.pipe 0 = false ∨ ∀ i < (stageTokens list).length - 1, a.pipe i = true

theorem preparePipeline_cases (a : Answers) (list : TokenList) (s : State) :
    (¬StagesOk list ∧ preparePipeline a list s = .error (s.print .invalidSyntax)) ∨
    (StagesOk list ∧ preparePipeline a list s =
      openPipes a 0 ((stageTokens list).length - 1) [] s) := by
  rw [preparePipeline]
  split
  · next hbad =>
    refine Or.inl ⟨fun hok => ?_,rfl⟩
    rcases hbad with hbad | hbad
    · exact absurd hok.1 (by omega)
    · obtain ⟨p,hp,hcount⟩ := List.any_eq_true.mp hbad
      exact hok.2 p hp (by simpa using hcount)
  · next hgood =>
    rw [not_or] at hgood
    refine Or.inr ⟨⟨by omega,fun p hp hcount => hgood.2 ?_⟩,rfl⟩
    exact List.any_eq_true.mpr ⟨p,hp,by simpa using hcount⟩

/-- The forks are reached exactly when the stages are in order and every pipe
opens. -/
theorem preparePipeline_ok_iff (a : Answers) (list : TokenList) (s : State) :
    (∃ r, preparePipeline a list s = .ok r) ↔
      StagesOk list ∧ ∀ i < (stageTokens list).length - 1, a.pipe i = true := by
  rcases preparePipeline_cases a list s with ⟨hbad,heq⟩ | ⟨hok,heq⟩
  · rw [heq]
    exact iff_of_false (by simp) (fun h => hbad h.1)
  · rw [heq]
    rcases openPipes_spec (a := a) (i := 0) (n := (stageTokens list).length - 1) (Piped.nil s) with
      ⟨pipes,t,hopen,_,_,hall⟩ | ⟨k,pipes,t,hopen,_,_,hk,hfail,_⟩
    · exact iff_of_true ⟨_,hopen⟩ ⟨hok,fun i hi => by simpa using hall i hi⟩
    · rw [hopen]
      refine iff_of_false (by simp) (fun h => ?_)
      exact absurd ((h.2 k hk).symm.trans (by simpa using hfail)) (by decide)

theorem preparePipeline_ok {a : Answers} {list : TokenList} {s : State} {r : List (ℕ × ℕ) × State}
    (h : preparePipeline a list s = .ok r) : Piped s.fds s.pipeCount r.1 r.2 := by
  rcases preparePipeline_cases a list s with ⟨_,heq⟩ | ⟨_,heq⟩
  · rw [heq] at h
    cases h
  · rw [heq] at h
    rcases openPipes_spec (Piped.nil s) with ⟨pipes,t,hopen,hp,_⟩ | ⟨k,pipes,t,hopen,_⟩
    · rw [hopen] at h
      cases h
      exact hp
    · rw [hopen] at h
      cases h

/-- An early return of the checks and the pipe loop leaves open exactly the pipes
before the one that failed. -/
theorem preparePipeline_error {a : Answers} {list : TokenList} {s t : State}
    (h : preparePipeline a list s = .error t) :
    ∃ pipes u line, Piped s.fds s.pipeCount pipes u ∧ t = u.print line ∧
      (pipes = [] ↔ (StagesOk list → PipesOk a list)) := by
  rcases preparePipeline_cases a list s with ⟨hbad,heq⟩ | ⟨hok,heq⟩
  · rw [heq] at h
    cases h
    exact ⟨[],s,_,Piped.nil s,rfl,by simp [hbad]⟩
  · rw [heq] at h
    rcases openPipes_spec (Piped.nil s) with
      ⟨pipes,u,hopen,_⟩ | ⟨k,pipes,u,hopen,hp,hlen,hk,hfail,hearlier⟩
    · rw [hopen] at h
      cases h
    · rw [hopen] at h
      cases h
      refine ⟨pipes,u,_,hp,rfl,fun hnil _ => ?_,fun hpipes => ?_⟩
      · have hzero : k = 0 := by
          rw [hnil] at hlen
          simpa using hlen.symm
        rw [hzero] at hfail
        exact Or.inl hfail
      · rcases hpipes hok with hfirst | hall
        · have hzero : k = 0 := by
            by_contra hne
            have htrue := hearlier 0 (by omega)
            rw [hfirst] at htrue
            cases htrue
          rw [hzero] at hlen
          exact List.length_eq_zero_iff.mp hlen
        · exact absurd ((hall k hk).symm.trans (by simpa using hfail)) (by decide)

/-- In the foreground the forks follow as soon as the pipes are open. -/
theorem startFg_cases (a : Answers) (list : TokenList) (s : State) :
    (∃ t, preparePipeline a list s = .error t ∧ startFg a list s = .error t) ∨
    ∃ pipes t, preparePipeline a list s = .ok (pipes,t) ∧
      startFg a list s = .ok (forkStages a none pipes (stageTokens list) t) := by
  rw [startFg]
  cases preparePipeline a list s with
  | error t => exact Or.inl ⟨t,rfl,rfl⟩
  | ok r => exact Or.inr ⟨r.1,r.2,rfl,rfl⟩

/-- In the background the synchronization pipe comes in between. -/
theorem startBg_cases (a : Answers) (list : TokenList) (s : State) :
    (∃ t, preparePipeline a list s = .error t ∧ startBg a list s = .error t) ∨
    ∃ pipes t, preparePipeline a list s = .ok (pipes,t) ∧
      ((a.syncPipe = false ∧
        startBg a list s = .error ((t.print .pipeFailed).closeAll (ends pipes))) ∨
      (a.syncPipe = true ∧ startBg a list s =
        .ok (t.pipe.1,forkStages a (some t.pipe.1) pipes (stageTokens list) t.pipe.2))) := by
  rw [startBg]
  cases preparePipeline a list s with
  | error t => exact Or.inl ⟨t,rfl,rfl⟩
  | ok r =>
    refine Or.inr ⟨r.1,r.2,rfl,?_⟩
    simp only [Except.bind, openSync]
    cases a.syncPipe with
    | false => exact Or.inl ⟨rfl,rfl⟩
    | true => exact Or.inr ⟨rfl,rfl⟩

/-- Restoring the table of a pipeline that has failed to start comes down to the
pipes that were left open. -/
theorem leak_iff {base : Table Handle} {pipes : List (ℕ × ℕ)} {t : Table Handle}
    (h : base.Over (ends pipes) t) : (∀ fd, fd ∈ t.fds ↔ fd ∈ base.fds) ↔ pipes = [] := by
  constructor
  · intro hsame
    cases pipes with
    | nil => rfl
    | cons p rest =>
      have hmem : p.1 ∈ ends (p :: rest) := (mem_ends (j := 0) rfl).1
      exact absurd ((hsame p.1).mp (h.mem_fds hmem)) (h.not_mem hmem)
  · rintro rfl fd
    have heq : t = base := h.closeAll
    rw [heq]

/-! ## Every launch -/

/-- The call is defined, and when it returns the same descriptors are open as
before. -/
def Restores (s : State) (r : Result) : Prop :=
  r.exit ≠ .undefined ∧ ∀ ok, r.exit = .returned ok → ∀ fd, fd ∈ r.state.fds.fds ↔ fd ∈ s.fds.fds

theorem Result.Keeps.restores {s : State} {r : Result} (h : r.Keeps s.fds) : Restores s r :=
  ⟨h.1,fun ok hok fd => by rw [h.2 ok hok]⟩

theorem restores_error_iff {s t : State} {pipes : List (ℕ × ℕ)} {line : Line}
    (h : s.fds.Over (ends pipes) t.fds) :
    Restores s ⟨.returned false,t.print line⟩ ↔ pipes = [] := by
  rw [← leak_iff h]
  exact ⟨fun hr => hr.2 false rfl,fun hsame => ⟨by simp,fun _ _ => hsame⟩⟩

/-- What a launch of the group needs so that nothing is left open. -/
def Clean (a : Answers) (list : TokenList) : Prop :=
  if numStages list = 1 then (builtinAt list).isSome ∨ Fits list
  else StagesOk list → PipesOk a list

theorem executeCmdInternal_restores_iff (a : Answers) (list : TokenList)
    (job : Option (ℕ × CString)) (fullCmd : CString) (s : State) :
    Restores s (executeCmdInternal a list job fullCmd s) ↔ Fits list := by
  constructor
  · intro hr
    by_contra hfits
    exact hr.1 (executeCmdInternal_undefined a hfits job fullCmd s)
  · exact fun hfits => (executeCmdInternal_keeps a hfits job fullCmd s).restores

theorem clean_nil (a : Answers) : Clean a [] := Or.inr ⟨Nat.zero_le _,Nat.zero_le _⟩

/-- A launch gives everything back, overruns an array, or returns from the checks
and the pipe loop. -/
def Ends (a : Answers) (list : TokenList) (s : State) (r : Result) : Prop :=
  (Clean a list ∧ r.Keeps s.fds) ∨ (¬Clean a list ∧ r.exit = .undefined) ∨
    (numStages list ≠ 1 ∧ ∃ t, preparePipeline a list s = .error t ∧ r = ⟨.returned false,t⟩)

theorem Ends.restores_iff {a : Answers} {list : TokenList} {s : State} {r : Result}
    (h : Ends a list s r) : Restores s r ↔ Clean a list := by
  rcases h with ⟨hclean,hkeeps⟩ | ⟨hclean,hundef⟩ | ⟨hmany,t,hprepare,rfl⟩
  · exact iff_of_true hkeeps.restores hclean
  · exact iff_of_false (fun hr => hr.1 hundef) hclean
  · obtain ⟨pipes,u,line,hp,rfl,hempty⟩ := preparePipeline_error hprepare
    rw [Clean, if_neg hmany]
    exact (restores_error_iff hp.above).trans hempty

theorem executeCmdInternal_ends (a : Answers) {list : TokenList} (hone : numStages list = 1)
    (hbuiltin : builtinAt list = none) (job : Option (ℕ × CString)) (fullCmd : CString)
    (s : State) :
    Ends a list s (executeCmdInternal a list job fullCmd s) := by
  have hclean : Clean a list ↔ Fits list := by simp [Clean,hone,hbuiltin]
  by_cases hfits : Fits list
  · exact Or.inl ⟨hclean.mpr hfits,executeCmdInternal_keeps a hfits job fullCmd s⟩
  · exact Or.inr (Or.inl ⟨fun hc => hfits (hclean.mp hc),
      executeCmdInternal_undefined a hfits job fullCmd s⟩)

theorem clean_builtin (a : Answers) {list : TokenList} (hone : numStages list = 1)
    {b : Executor.Builtin} (hbuiltin : builtinAt list = some b) : Clean a list := by
  simp [Clean,hone,hbuiltin]

theorem clean_prepared {a : Answers} {list : TokenList} (hmany : numStages list ≠ 1) {s : State}
    {r : List (ℕ × ℕ) × State} (h : preparePipeline a list s = .ok r) : Clean a list := by
  rw [Clean, if_neg hmany]
  exact fun _ => Or.inr ((preparePipeline_ok_iff a list s).mp ⟨r,h⟩).2

theorem executePipelineFg_ends (a : Answers) (list : TokenList) (fullCmd : CString) (s : State) :
    Ends a list s (executePipelineFg a list fullCmd s) := by
  unfold executePipelineFg
  split
  · next hnil =>
    subst hnil
    exact Or.inl ⟨clean_nil a,.returned rfl⟩
  · split
    · next hone =>
      cases hbuiltin : builtinAt list with
      | some b =>
        exact Or.inl ⟨clean_builtin a hone hbuiltin,.returned (visitFiles_fds a.visits s)⟩
      | none => exact executeCmdInternal_ends a hone hbuiltin none fullCmd s
    · next hmany =>
      rcases startFg_cases a list s with ⟨t,hprepare,hstart⟩ | ⟨pipes,t,hprepare,hstart⟩
      · rw [hstart]
        exact Or.inr (Or.inr ⟨hmany,t,hprepare,rfl⟩)
      · rw [hstart]
        refine Or.inl ⟨clean_prepared hmany hprepare,?_⟩
        have hfds : (forkStages a none pipes (stageTokens list) t).state.fds = s.fds := by
          rw [forkStages_eq]
          exact (preparePipeline_ok hprepare).above.closeAll
        simp only [Result.ofExcept]
        split
        · exact .returned hfds
        · exact .returned hfds

theorem executePipelineBg_ends (a : Answers) (list : TokenList) (jobId : ℕ) (fullCmd : CString)
    (s : State) : Ends a list s (executePipelineBg a list jobId fullCmd s) := by
  unfold executePipelineBg
  split
  · next hnil =>
    subst hnil
    exact Or.inl ⟨clean_nil a,.returned rfl⟩
  · split
    · next hone =>
      cases hbuiltin : builtinAt list with
      | some b =>
        exact Or.inl ⟨clean_builtin a hone hbuiltin,launchBackground_keeps (Table.Over.refl s.fds)⟩
      | none => exact executeCmdInternal_ends a hone hbuiltin _ fullCmd s
    · next hmany =>
      rcases startBg_cases a list s with
        ⟨t,hprepare,hstart⟩ | ⟨pipes,t,hprepare,⟨_,hstart⟩ | ⟨_,hstart⟩⟩
      · rw [hstart]
        exact Or.inr (Or.inr ⟨hmany,t,hprepare,rfl⟩)
      · rw [hstart]
        exact Or.inl ⟨clean_prepared hmany hprepare,
          .returned (preparePipeline_ok hprepare).above.closeAll⟩
      · rw [hstart]
        refine Or.inl ⟨clean_prepared hmany hprepare,announce_keeps ?_⟩
        rw [forkStages_eq]
        exact (preparePipeline_ok hprepare).closing_sync.1

/-- Each of the three functions gives the shell its descriptors back, whatever
the calls in it answer, exactly when the redirections of a single command fit
into their arrays and no `pipe` call of a pipeline fails after the first. -/
theorem descriptors_restored_iff (a : Answers) (list : TokenList) (fullCmd : CString) (s : State) :
    (∀ job, Restores s (executeCmdInternal a list job fullCmd s) ↔ Fits list) ∧
    (Restores s (executePipelineFg a list fullCmd s) ↔ Clean a list) ∧
    ∀ jobId, Restores s (executePipelineBg a list jobId fullCmd s) ↔ Clean a list :=
  ⟨fun job => executeCmdInternal_restores_iff a list job fullCmd s,
    (executePipelineFg_ends a list fullCmd s).restores_iff,
    fun jobId => (executePipelineBg_ends a list jobId fullCmd s).restores_iff⟩

/-- The pipeline `a | b | c`. -/
def twoPipes : TokenList :=
  [Token.word ['a'],Token.operator .opPipe,Token.word ['b'],Token.operator .opPipe,Token.word ['c']]

/-- The second pipe of `a | b | c` cannot be created: the call returns 0 with the
first pipe open. -/
theorem failed_pipe_leaks :
    (executePipelineFg { smooth with pipe := fun i => i == 0 } twoPipes [] start).exit =
      .returned false ∧
    (executePipelineFg { smooth with pipe := fun i => i == 0 } twoPipes [] start).state.fds.fds =
      [4,3,0,1,2] := ⟨rfl,rfl⟩

end CShellXv6.Launch
