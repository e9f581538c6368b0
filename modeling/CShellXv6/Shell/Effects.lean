import CShellXv6.Shell.Restore

/-! # What a launch does to processes and to the job table

A launch forks some processes, puts each of them into the group of the first,
perhaps waits for them, and records at most one job with exactly these
processes. A single command gives up when its fork fails; a pipeline goes on.
-/
namespace CShellXv6.Launch
open Lexer Descriptors
open Executor (Split numStages)
open Jobs (jobsAddPipeline jobsAddStopped)

/-- The number of the job that a line announces as started or stopped. -/
def Line.announced : Line → Option ℕ
  | .started jobId _ => some jobId
  | .stopped jobId _ => some jobId
  | .job (.stopped jobId _) => some jobId
  | _ => none

/-! ## Steps that leave the table alone -/

/-- The calls `cs` are made and no job is announced or recorded. -/
structure Quiet (s : State) (cs : List Call) (t : State) : Prop where
  table : t.table = s.table
  nextJobId : t.nextJobId = s.nextJobId
  forked : t.forked = s.forked
  calls : t.calls = s.calls ++ cs
  pipeCount : s.pipeCount ≤ t.pipeCount
  out : ∀ line ∈ t.out, line ∈ s.out ∨ line.announced = none

namespace Quiet
variable {s t : State} {cs : List Call}

theorem refl (s : State) : Quiet s [] s :=
  ⟨rfl,rfl,rfl,(List.append_nil _).symm,le_rfl,fun _ => Or.inl⟩

theorem print (h : Quiet s cs t) {line : Line} (hline : line.announced = none) :
    Quiet s cs (t.print line) := by
  refine ⟨h.table,h.nextJobId,h.forked,h.calls,h.pipeCount,fun l hl => ?_⟩
  rcases List.mem_append.mp hl with hl | hl
  · exact h.out l hl
  · rw [List.mem_singleton.mp hl]
    exact Or.inr hline

theorem closeAll (h : Quiet s cs t) (ds : List ℕ) : Quiet s cs (t.closeAll ds) :=
  ⟨h.table,h.nextJobId,h.forked,h.calls,h.pipeCount,h.out⟩

theorem openFile (h : Quiet s cs t) (path : CString) : Quiet s cs (t.openFile path).2 :=
  ⟨h.table,h.nextJobId,h.forked,h.calls,h.pipeCount,h.out⟩

theorem pipe (h : Quiet s cs t) : Quiet s cs t.pipe.2 :=
  ⟨h.table,h.nextJobId,h.forked,h.calls,h.pipeCount.trans (Nat.le_succ _),h.out⟩

theorem call (h : Quiet s cs t) (c : Call) : Quiet s (cs ++ [c]) (t.call c) := by
  refine ⟨h.table,h.nextJobId,h.forked,?_,h.pipeCount,h.out⟩
  rw [State.call, h.calls, List.append_assoc]

end Quiet

/-- The state in which a phase of a launch leaves the shell. -/
def endState {β : Type*} (f : β → State) : Except State β → State
  | .error t => t
  | .ok b => f b

section Phases
variable {a : Answers} {s t : State}

theorem checkInputs_quiet (h : Quiet s [] t) (i : ℕ) (list : TokenList) :
    Quiet s [] (endState id (checkInputs a i list t)) := by
  induction list generalizing i t with
  | nil => exact h
  | cons u rest ih =>
    rw [checkInputs]
    split
    · exact ih ((h.openFile _).closeAll _) (i + 1)
    · exact h.print rfl

theorem openOutputs_quiet (h : Quiet s [] t) (i : ℕ) (list : List (Token × Bool)) (ds : List ℕ) :
    Quiet s [] (endState Prod.snd (openOutputs a i list ds t)) := by
  induction list generalizing i ds t with
  | nil => exact h
  | cons u rest ih =>
    rw [openOutputs]
    split
    · exact ih (h.openFile _) (i + 1) _
    · exact (h.print rfl).closeAll ds

theorem openFiles_quiet (h : Quiet s [] t) (split : Split) :
    Quiet s [] (endState Prod.snd
      ((checkInputs a 0 split.inputFiles t).bind (openOutputs a 0 split.outputFiles []))) := by
  have hinputs := checkInputs_quiet (a := a) h 0 split.inputFiles
  cases hc : checkInputs a 0 split.inputFiles t with
  | error u =>
    rw [hc] at hinputs
    exact hinputs
  | ok u =>
    rw [hc] at hinputs
    exact openOutputs_quiet hinputs 0 split.outputFiles []

theorem openSync_quiet (h : Quiet s [] t) (held : List ℕ) :
    Quiet s [] (endState Prod.snd (openSync a held t)) := by
  rw [openSync]
  split
  · exact h.pipe
  · exact (h.print rfl).closeAll held

theorem openPipes_quiet (h : Quiet s [] t) (i n : ℕ) (pipes : List (ℕ × ℕ)) :
    Quiet s [] (endState Prod.snd (openPipes a i n pipes t)) := by
  induction n generalizing i pipes t with
  | zero => exact h
  | succ n ih =>
    rw [openPipes]
    split
    · exact ih h.pipe (i + 1) _
    · exact h.print rfl

theorem preparePipeline_quiet (h : Quiet s [] t) (list : TokenList) :
    Quiet s [] (endState Prod.snd (preparePipeline a list t)) := by
  rw [preparePipeline]
  split
  · exact h.print rfl
  · exact openPipes_quiet h 0 _ []

theorem visitFiles_quiet (h : Quiet s [] t) (visits : List Bool) :
    Quiet s [] (visitFiles visits t) := by
  induction visits generalizing t with
  | nil => exact h
  | cons ok rest ih =>
    rw [visitFiles, List.foldl_cons, ← visitFiles]
    cases ok with
    | false => exact ih h
    | true => exact ih ((h.openFile []).closeAll _)

end Phases

/-! ## The effect of a launch -/

/-- Each forked process is put into the group of the first. -/
def groupCalls (forks : List (Option Pid)) : List Call :=
  forks.map (fun f => .setpgid (pidOf f) (pgidOf forks))

/-- The calls of a shell that waits in the foreground. -/
inductive WaitCall (a : Answers) (forks : List (Option Pid)) : Call → Prop
  | give : forks ≠ [] → WaitCall a forks (.tcsetpgrp (pgidOf forks))
  | wait {f : Option Pid} : f ∈ forks → WaitCall a forks (.waitpid (pidOf f))
  | back : WaitCall a forks (.tcsetpgrp a.getpgrp)

/-- What is recorded for the forked processes: nothing, a background job under
the number that was given out for it, or a stopped job under a new number. -/
inductive Record (job : Option ℕ) (s : State) (forks : List (Option Pid)) (r : Result) : Prop
  | nothing : r.state.table = s.table → r.state.nextJobId = s.nextJobId →
      r.state.forked = s.forked →
      (∀ ok, r.exit = .returned ok → ∀ line ∈ r.state.out, line ∈ s.out ∨ line.announced = none) →
      Record job s forks r
  | started (jobId : ℕ) (names : List CString) (cmd : CString) : job = some jobId → forks ≠ [] →
      names.length = forks.length →
      r.state.table = jobsAddPipeline jobId (pgidOf forks) (procsOf forks names) cmd s.table →
      r.state.nextJobId = s.nextJobId → r.state.forked = Function.update s.forked jobId forks →
      (∀ line ∈ r.state.out, line ∈ s.out ∨ line.announced = none ∨ line.announced = some jobId) →
      Record job s forks r
  | stopped (names : List CString) (cmd : CString) : job = none → forks ≠ [] →
      names.length = forks.length →
      r.state.table = jobsAddStopped s.nextJobId (pgidOf forks) (procsOf forks names) cmd s.table →
      r.state.nextJobId = s.nextJobId + 1 →
      r.state.forked = Function.update s.forked s.nextJobId forks →
      (∀ line ∈ r.state.out,
        line ∈ s.out ∨ line.announced = none ∨ line.announced = some s.nextJobId) →
      Record job s forks r

structure Effect (a : Answers) (job : Option ℕ) (s : State) (forks : List (Option Pid))
    (r : Result) : Prop where
  calls : ∃ cs, r.state.calls = s.calls ++ groupCalls forks ++ cs ∧ ∀ c ∈ cs, WaitCall a forks c
  pipeCount : s.pipeCount ≤ r.state.pipeCount
  record : Record job s forks r

section Effect
variable {a : Answers} {job : Option ℕ} {s t : State} {forks : List (Option Pid)}

theorem Quiet.effect (h : Quiet s (groupCalls forks) t) (ok : Bool) :
    Effect a job s forks ⟨.returned ok,t⟩ where
  calls := ⟨[],by rw [h.calls, List.append_nil],by simp⟩
  pipeCount := h.pipeCount
  record := .nothing h.table h.nextJobId h.forked (fun _ _ => h.out)

theorem Quiet.effect_nil (h : Quiet s [] t) (ok : Bool) : Effect a job s [] ⟨.returned ok,t⟩ :=
  Quiet.effect h ok

theorem await_calls (h : Quiet s (groupCalls forks) t) (hne : forks ≠ []) :
    ∃ cs, (await a forks t).calls = s.calls ++ groupCalls forks ++ cs ∧
      ∀ c ∈ cs, WaitCall a forks c := by
  refine ⟨(if a.isatty then [.tcsetpgrp (pgidOf forks)] else []) ++
    (forks.map (fun f => .waitpid (pidOf f)) ++ (if a.isatty then [.tcsetpgrp a.getpgrp] else [])),
    ?_,fun c hc => ?_⟩
  · rw [await, h.calls]
    simp only [List.append_assoc]
  · rcases List.mem_append.mp hc with hc | hc
    · split at hc
      · rw [List.mem_singleton.mp hc]
        exact .give hne
      · cases hc
    · rcases List.mem_append.mp hc with hc | hc
      · obtain ⟨f,hf,rfl⟩ := List.mem_map.mp hc
        exact .wait hf
      · split at hc
        · rw [List.mem_singleton.mp hc]
          exact .back
        · cases hc

theorem await_effect (h : Quiet s (groupCalls forks) t) (hne : forks ≠ []) (ok : Bool) :
    Effect a job s forks ⟨.returned ok,await a forks t⟩ where
  calls := await_calls h hne
  pipeCount := h.pipeCount
  record := .nothing h.table h.nextJobId h.forked (fun _ _ => h.out)

theorem mem_snoc_announced {out out' : List Line} (last : Line) {line : Line} {jobId : ℕ}
    (h : ∀ line ∈ out, line ∈ out' ∨ line.announced = none) (hlast : last.announced = some jobId)
    (hline : line ∈ out ++ [last]) :
    line ∈ out' ∨ line.announced = none ∨ line.announced = some jobId := by
  rcases List.mem_append.mp hline with hline | hline
  · exact (h line hline).imp id Or.inl
  · rw [List.mem_singleton.mp hline]
    exact Or.inr (Or.inr hlast)

theorem suspend_effect (h : Quiet s (groupCalls forks) t) (hne : forks ≠ []) {names : List CString}
    (hlen : names.length = forks.length) (shown : CString) :
    Effect a none s forks (suspend forks names shown (await a forks t)) where
  calls := await_calls h hne
  pipeCount := h.pipeCount
  record := by
    refine .stopped names shown rfl hne hlen ?_ ?_ ?_ ?_
    · simp only [suspend, await, h.table, h.nextJobId]
    · simp only [suspend, await, h.nextJobId]
    · simp only [suspend, await, h.forked, h.nextJobId]
    · intro line hline
      exact mem_snoc_announced (.stopped t.nextJobId shown) h.out (congrArg some h.nextJobId) hline

theorem announce_effect (h : Quiet s (groupCalls forks) t) (hne : forks ≠ [])
    {names : List CString} (hlen : names.length = forks.length) (jobId : ℕ) (cmd : CString)
    (sync : ℕ × ℕ) :
    Effect a (some jobId) s forks (announce a jobId forks names cmd sync t) := by
  have hcalls : ∃ cs, t.calls = s.calls ++ groupCalls forks ++ cs ∧ ∀ c ∈ cs, WaitCall a forks c :=
    ⟨[],by rw [h.calls, List.append_nil],by simp⟩
  unfold announce
  cases a.sigpipe with
  | true =>
    refine ⟨hcalls,h.pipeCount,.nothing h.table h.nextJobId h.forked (fun ok hok => ?_)⟩
    cases hok
  | false =>
    refine ⟨hcalls,h.pipeCount,.started jobId names cmd rfl hne hlen ?_ h.nextJobId ?_ ?_⟩
    · exact congrArg (jobsAddPipeline jobId (pgidOf forks) (procsOf forks names) cmd) h.table
    · exact congrArg (fun f => Function.update f jobId forks) h.forked
    · intro line hline
      exact mem_snoc_announced (.started jobId (pgidOf forks)) h.out rfl hline

end Effect

/-! ## Single commands -/

section Command
variable {a : Answers} {s t : State}

theorem launchForeground_effect (h : Quiet s [] t) (cmdName fullCmd : CString) (outFds : List ℕ) :
    ∃ forks, none ∉ forks ∧
      Effect a none s forks (launchForeground a cmdName fullCmd outFds t) := by
  unfold launchForeground
  cases a.fork 0 with
  | none => exact ⟨[],by simp,((h.print rfl).closeAll outFds).effect_nil false⟩
  | some pid =>
    have hfork : Quiet s (groupCalls [some pid]) ((t.call (.setpgid pid pid)).closeAll outFds) :=
      (h.call (.setpgid pid pid)).closeAll outFds
    refine ⟨[some pid],by simp,?_⟩
    dsimp only
    split
    · exact suspend_effect hfork (by simp) rfl _
    · exact await_effect hfork (by simp) true

theorem launchBackground_effect (h : Quiet s [] t) (jobId : ℕ) (cmdName fullCmd : CString)
    (outFds : List ℕ) :
    ∃ forks, none ∉ forks ∧
      Effect a (some jobId) s forks (launchBackground a jobId cmdName fullCmd outFds t) := by
  have hsync := openSync_quiet (a := a) h outFds
  unfold launchBackground
  cases hopen : openSync a outFds t with
  | error u =>
    rw [hopen] at hsync
    exact ⟨[],by simp,Quiet.effect_nil hsync false⟩
  | ok r =>
    rw [hopen] at hsync
    simp only [endState] at hsync
    simp only [Result.ofExcept]
    cases a.fork 0 with
    | none =>
      exact ⟨[],by simp,(((hsync.print rfl).closeAll outFds).closeAll _).effect_nil false⟩
    | some pid =>
      refine ⟨[some pid],by simp,?_⟩
      exact announce_effect ((hsync.call (.setpgid pid pid)).closeAll outFds) (by simp) rfl _ _ _

theorem launchSplit_effect (h : Quiet s [] t) (split : Split) (cmdName : CString)
    (job : Option (ℕ × CString)) (fullCmd : CString) :
    ∃ forks, none ∉ forks ∧
      Effect a (job.map Prod.fst) s forks (launchSplit a split cmdName job fullCmd t) := by
  have hfiles := openFiles_quiet (a := a) h split
  unfold launchSplit
  cases hopen : (checkInputs a 0 split.inputFiles t).bind
      (openOutputs a 0 split.outputFiles []) with
  | error u =>
    rw [hopen] at hfiles
    exact ⟨[],by simp,Quiet.effect_nil hfiles false⟩
  | ok r =>
    rw [hopen] at hfiles
    simp only [endState] at hfiles
    simp only [Result.ofExcept]
    split
    · cases job with
      | none => exact launchForeground_effect hfiles cmdName fullCmd r.1
      | some j => exact launchBackground_effect hfiles j.1 j.2 fullCmd r.1
    · exact ⟨[],by simp,((hfiles.print rfl).closeAll r.1).effect_nil false⟩

theorem executeCmdInternal_effect (list : TokenList) (job : Option (ℕ × CString))
    (fullCmd : CString) :
    ∃ forks, none ∉ forks ∧
      Effect a (job.map Prod.fst) s forks (executeCmdInternal a list job fullCmd s) := by
  have hrefl := Quiet.refl s
  unfold executeCmdInternal
  split
  · exact ⟨[],by simp,hrefl.effect_nil true⟩
  · dsimp only
    split
    · refine ⟨[],by simp,⟨[],by simp [groupCalls],by simp⟩,le_rfl,?_⟩
      exact .nothing rfl rfl rfl (fun _ _ _ => Or.inl)
    · split
      · split
        · exact ⟨[],by simp,hrefl.effect_nil true⟩
        · exact launchSplit_effect hrefl _ _ _ _
      · exact ⟨[],by simp,(hrefl.print rfl).effect_nil false⟩

end Command

/-! ## Pipelines -/

/-- A fork fails for a stage of a pipeline of at least two stages. -/
def ForkFails (a : Answers) (background : Bool) (list : TokenList) : Prop :=
  numStages list ≠ 1 ∧ StagesOk list ∧ (∀ i < (stageTokens list).length - 1, a.pipe i = true) ∧
    (background = true → a.syncPipe = true) ∧ ∃ i < (stageTokens list).length, a.fork i = none

section Pipeline
variable {a : Answers} {s : State} {list : TokenList}

theorem stageTokens_pos (h : StagesOk list) : 0 < (stageTokens list).length := by
  have hn : 0 < numStages list := Nat.succ_pos _
  exact hn.trans_le h.1

theorem groupCalls_range {n : ℕ} (hn : 0 < n) :
    groupCalls ((List.range n).map a.fork) = (List.range n).map (joinGroup a) := by
  obtain ⟨m,rfl⟩ : ∃ m, n = m + 1 := ⟨n - 1,by omega⟩
  rw [groupCalls, pgidOf_range, List.map_map]
  rfl

theorem none_mem_range {n : ℕ} : none ∈ (List.range n).map a.fork ↔ ∃ i < n, a.fork i = none := by
  simp only [List.mem_map, List.mem_range]

theorem forkStages_quiet {t : State} (h : Quiet s [] t) (hok : StagesOk list)
    (sync : Option (ℕ × ℕ)) (pipes : List (ℕ × ℕ)) :
    Quiet s (groupCalls (forkStages a sync pipes (stageTokens list) t).forks)
      (forkStages a sync pipes (stageTokens list) t).state := by
  rw [forkStages_eq]
  dsimp only
  rw [groupCalls_range (stageTokens_pos hok)]
  have hcalls := h.calls
  rw [List.append_nil] at hcalls
  exact ⟨h.table,h.nextJobId,h.forked,congrArg (· ++ _) hcalls,h.pipeCount,h.out⟩

theorem forkStages_forks {t : State} (hok : StagesOk list) (sync : Option (ℕ × ℕ))
    (pipes : List (ℕ × ℕ)) :
    (forkStages a sync pipes (stageTokens list) t).forks ≠ [] ∧
      (stageCmds list).length = (forkStages a sync pipes (stageTokens list) t).forks.length ∧
      (none ∈ (forkStages a sync pipes (stageTokens list) t).forks ↔
        ∃ i < (stageTokens list).length, a.fork i = none) := by
  have hpos := stageTokens_pos hok
  rw [forkStages_eq]
  refine ⟨fun hnil => ?_,by simp [stageCmds],none_mem_range⟩
  have hlen := congrArg List.length hnil
  simp only [List.length_map, List.length_range, List.length_nil] at hlen
  omega

theorem not_forkFails_single (a : Answers) (background : Bool) (h : numStages list = 1) :
    ¬ForkFails a background list := fun hf => hf.1 h

/-- A launch that gives up before the forks. -/
theorem not_forkFails_error {background : Bool} {t : State}
    (h : preparePipeline a list s = .error t) : ¬ForkFails a background list := by
  intro hf
  obtain ⟨r,hr⟩ := (preparePipeline_ok_iff a list s).mpr ⟨hf.2.1,hf.2.2.1⟩
  rw [h] at hr
  cases hr

theorem forkFails_iff {background : Bool} {r : List (ℕ × ℕ) × State}
    (hmany : numStages list ≠ 1) (h : preparePipeline a list s = .ok r)
    (hsync : background = true → a.syncPipe = true) :
    ForkFails a background list ↔ ∃ i < (stageTokens list).length, a.fork i = none := by
  obtain ⟨hok,hpipes⟩ := (preparePipeline_ok_iff a list s).mp ⟨r,h⟩
  exact ⟨fun hf => hf.2.2.2.2,fun hf => ⟨hmany,hok,hpipes,hsync,hf⟩⟩

theorem preparePipeline_error_quiet {t : State} (h : preparePipeline a list s = .error t) :
    Quiet s [] t := by
  have hquiet := preparePipeline_quiet (a := a) (Quiet.refl s) list
  rw [h] at hquiet
  exact hquiet

theorem preparePipeline_ok_quiet {pipes : List (ℕ × ℕ)} {t : State}
    (h : preparePipeline a list s = .ok (pipes,t)) : Quiet s [] t := by
  have hquiet := preparePipeline_quiet (a := a) (Quiet.refl s) list
  rw [h] at hquiet
  exact hquiet

theorem executePipelineFg_effect (a : Answers) (list : TokenList) (fullCmd : CString) (s : State) :
    ∃ forks, Effect a none s forks (executePipelineFg a list fullCmd s) ∧
      (none ∈ forks ↔ ForkFails a false list) := by
  unfold executePipelineFg
  split
  · next hnil =>
    refine ⟨[],(Quiet.refl s).effect_nil true,iff_of_false (by simp) ?_⟩
    exact not_forkFails_single a _ (by rw [hnil]; rfl)
  · split
    · next hone =>
      have hfail := not_forkFails_single a false hone
      cases builtinAt list with
      | some b =>
        exact ⟨[],(visitFiles_quiet (Quiet.refl s) _).effect_nil true,iff_of_false (by simp) hfail⟩
      | none =>
        obtain ⟨forks,hnone,heffect⟩ := executeCmdInternal_effect (a := a) (s := s) list none
          fullCmd
        exact ⟨forks,heffect,iff_of_false hnone hfail⟩
    · next hmany =>
      rcases startFg_cases a list s with ⟨t,hprepare,hstart⟩ | ⟨pipes,t,hprepare,hstart⟩
      · rw [hstart]
        exact ⟨[],(preparePipeline_error_quiet hprepare).effect_nil false,
          iff_of_false (by simp) (not_forkFails_error hprepare)⟩
      · rw [hstart]
        have hok := ((preparePipeline_ok_iff a list s).mp ⟨_,hprepare⟩).1
        have hquiet := forkStages_quiet (preparePipeline_ok_quiet hprepare) hok none pipes (a := a)
        obtain ⟨hne,hnames,hnone⟩ := forkStages_forks (a := a) (t := t) hok none pipes
        refine ⟨_,?_,hnone.trans (forkFails_iff hmany hprepare (by simp)).symm⟩
        simp only [Result.ofExcept]
        split
        · exact suspend_effect hquiet hne hnames _
        · exact await_effect hquiet hne true

theorem executePipelineBg_effect (a : Answers) (list : TokenList) (jobId : ℕ) (fullCmd : CString)
    (s : State) :
    ∃ forks, Effect a (some jobId) s forks (executePipelineBg a list jobId fullCmd s) ∧
      (none ∈ forks ↔ ForkFails a true list) := by
  unfold executePipelineBg
  split
  · next hnil =>
    refine ⟨[],(Quiet.refl s).effect_nil true,iff_of_false (by simp) ?_⟩
    exact not_forkFails_single a _ (by rw [hnil]; rfl)
  · split
    · next hone =>
      have hfail := not_forkFails_single a true hone
      cases builtinAt list with
      | some b =>
        obtain ⟨forks,hnone,heffect⟩ := launchBackground_effect (a := a) (Quiet.refl s) jobId
          (bgCmdName list) fullCmd []
        exact ⟨forks,heffect,iff_of_false hnone hfail⟩
      | none =>
        obtain ⟨forks,hnone,heffect⟩ := executeCmdInternal_effect (a := a) (s := s) list
          (some (jobId,bgCmdName list)) fullCmd
        exact ⟨forks,heffect,iff_of_false hnone hfail⟩
    · next hmany =>
      rcases startBg_cases a list s with
        ⟨t,hprepare,hstart⟩ | ⟨pipes,t,hprepare,⟨hsync,hstart⟩ | ⟨hsync,hstart⟩⟩
      · rw [hstart]
        exact ⟨[],(preparePipeline_error_quiet hprepare).effect_nil false,
          iff_of_false (by simp) (not_forkFails_error hprepare)⟩
      · rw [hstart]
        have hquiet : Quiet s [] (t.print .pipeFailed) :=
          (preparePipeline_ok_quiet hprepare).print rfl
        refine ⟨[],(hquiet.closeAll (ends pipes)).effect_nil false,
          iff_of_false (by simp) (fun hf => ?_)⟩
        rw [hf.2.2.2.1 rfl] at hsync
        cases hsync
      · rw [hstart]
        have hok := ((preparePipeline_ok_iff a list s).mp ⟨_,hprepare⟩).1
        have hquiet := forkStages_quiet (preparePipeline_ok_quiet hprepare).pipe hok
          (some t.pipe.1) pipes (a := a)
        obtain ⟨hne,hnames,hnone⟩ := forkStages_forks (a := a) (t := t.pipe.2) hok
          (some t.pipe.1) pipes
        exact ⟨_,announce_effect hquiet hne hnames _ _ _,
          hnone.trans (forkFails_iff hmany hprepare (fun _ => hsync)).symm⟩

end Pipeline

end CShellXv6.Launch
