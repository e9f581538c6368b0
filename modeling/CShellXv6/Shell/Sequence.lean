import CShellXv6.Shell.Segments
import CShellXv6.Shell.Commands

/-! # The order of the groups of a line

`execute_command_line` goes over the token array with one index. Here that loop
is shown to hand over the runs of tokens between separators one after the other,
whatever the pipeline functions answer and however many job numbers they take
themselves. Job numbers are natural numbers: a counter that has run out of its
type is not modelled.
-/
namespace CShellXv6.Sequence
open Lexer TokenCategory Executor
open Commands (reconstructCmdStr)

/-! ## The loop -/

/-- The counter of job numbers, with the numbers given out so far. -/
structure Ids where
  nextJobId : ℕ
  issued : List ℕ
  fresh : ∀ id ∈ issued, id < nextJobId

def jobsAllocId (ids : Ids) : ℕ × Ids :=
  (ids.nextJobId,{
    nextJobId := ids.nextJobId + 1
    issued := ids.issued ++ [ids.nextJobId]
    fresh := by
      intro id hid
      rcases List.mem_append.mp hid with hid | hid
      · exact Nat.lt_succ_of_lt (ids.fresh id hid)
      · rw [List.mem_singleton.mp hid]
        exact Nat.lt_succ_self _ })

def allocMany : ℕ → Ids → Ids
  | 0, ids => ids
  | n + 1, ids => allocMany n (jobsAllocId ids).2

/-- What a call does: the surroundings it leaves, the job numbers it takes on the way
and the value it returns. -/
structure Reply (σ : Type*) where
  env : σ
  allocations : ℕ
  value : Bool

structure Callees (σ : Type*) where
  executePipelineFg : TokenList → CString → σ → Reply σ
  executePipelineBg : TokenList → ℕ → CString → σ → Reply σ
  jobsSetFgActive : Bool → σ → σ
  jobsCheckCompleted : σ → σ

/-- A group that was handed over: with a job number it went to the background. The
numbers given out before are kept. -/
structure Handed where
  tokens : TokenList
  jobId : Option ℕ
  before : List ℕ
  value : Bool

def Handed.key (h : Handed) : TokenList × Bool := (h.tokens,h.jobId.isSome)

structure Progress (σ : Type*) where
  env : σ
  ids : Ids
  log : List Handed

section
variable {σ : Type*} (c : Callees σ)

def Progress.background (tokens : TokenList) (s : Progress σ) : Progress σ :=
  let taken := jobsAllocId s.ids
  let r := c.executePipelineBg tokens taken.1 (reconstructCmdStr tokens) s.env
  { env := r.env
    ids := allocMany r.allocations taken.2
    log := s.log ++ [⟨tokens,some taken.1,s.ids.issued,r.value⟩] }

/-- The value is the one that the loop stops at when it is 0. -/
def Progress.foreground (tokens : TokenList) (s : Progress σ) : Progress σ × Bool :=
  let r := c.executePipelineFg tokens (reconstructCmdStr tokens) (c.jobsSetFgActive true s.env)
  ({ env := c.jobsCheckCompleted (c.jobsSetFgActive false r.env)
     ids := allocMany r.allocations s.ids
     log := s.log ++ [⟨tokens,none,s.ids.issued,r.value⟩] },r.value)

/-- The inner loop, from the start of a command to its end. -/
def scanCommand (list : TokenList) (i : ℕ) : ℕ :=
  if h : i < list.length then
    if isSeparator list[i] then i else scanCommand list (i + 1)
  else i
termination_by list.length - i

/-- The index after a command and the separator that ends it. -/
def afterCommand (list : TokenList) (i : ℕ) : ℕ :=
  if scanCommand list i < list.length then scanCommand list i + 1 else scanCommand list i

theorem le_scanCommand (list : TokenList) (i : ℕ) : i ≤ scanCommand list i := by
  fun_induction scanCommand list i with
  | case1 => exact Nat.le_refl _
  | case2 i h hsep ih => exact Nat.le_of_succ_le ih
  | case3 => exact Nat.le_refl _

theorem lt_afterCommand {list : TokenList} {i : ℕ} (h : i < list.length) :
    i < afterCommand list i := by
  have hle := le_scanCommand list i
  unfold afterCommand
  split
  · omega
  · omega

def commandLoop (list : TokenList) (i : ℕ) (s : Progress σ) : Progress σ :=
  if _h : i < list.length then
    let stop := scanCommand list i
    let count := stop - i
    let isBg := list[stop]?.any (fun t => t.type == opAmp)
    if count = 0 then commandLoop list (afterCommand list i) s
    else
      let cmdTokens := (list.drop i).take count
      if isBg then commandLoop list (afterCommand list i) (s.background c cmdTokens)
      else
        let r := s.foreground c cmdTokens
        if r.2 then commandLoop list (afterCommand list i) r.1 else r.1
  else s
termination_by list.length - i
decreasing_by
  all_goals
    have hlt := lt_afterCommand _h
    omega

def executeCommandLine (list : TokenList) (s : Progress σ) : Progress σ :=
  if list.length = 0 then s else commandLoop c list 0 s

/-! ## The groups -/

/-- The groups one after the other, until one fails in the foreground. -/
def handOver : List (TokenList × Bool) → Progress σ → Progress σ
  | [], s => s
  | (tokens,isBg) :: rest, s =>
    if isBg then handOver rest (s.background c tokens)
    else if (s.foreground c tokens).2 then handOver rest (s.foreground c tokens).1
    else (s.foreground c tokens).1

theorem groupLoop_separator {sep : Token} (hsep : isSeparator sep = true) (pre post cur : TokenList)
    (hs : ∀ t ∈ pre, isSeparator t = false) : groupLoop (pre ++ sep :: post) cur =
      if cur ++ pre = [] then groupLoop post []
      else (cur ++ pre,sep.type == opAmp) :: groupLoop post [] := by
  induction pre generalizing cur with
  | nil =>
    rw [List.nil_append, groupLoop, if_pos hsep, List.append_nil]
  | cons t pre ih =>
    have ht : isSeparator t = false := hs t List.mem_cons_self
    rw [List.cons_append, groupLoop, ht, if_neg Bool.false_ne_true,
      ih (cur ++ [t]) (fun v hv => hs v (List.mem_cons_of_mem _ hv)), List.append_assoc,
      List.singleton_append]

/-- The inner loop stops at the end of the list or at the first separator. -/
theorem scanCommand_cases (list : TokenList) {i : ℕ} (h : i ≤ list.length) :
    ((∀ t ∈ list.drop i, isSeparator t = false) ∧ scanCommand list i = list.length) ∨
      ∃ pre sep post, (∀ t ∈ pre, isSeparator t = false) ∧ isSeparator sep = true ∧
        list.drop i = pre ++ sep :: post ∧ scanCommand list i = i + pre.length := by
  fun_induction scanCommand list i with
  | case1 i hlt hsep =>
    exact Or.inr ⟨[],list[i],list.drop (i + 1),by simp,hsep,List.drop_eq_getElem_cons hlt,rfl⟩
  | case2 i hlt hsep ih =>
    have hnext : isSeparator list[i] = false := by simpa using hsep
    rw [List.drop_eq_getElem_cons hlt]
    rcases ih hlt with ⟨hall,hstop⟩ | ⟨pre,sep,post,hpre,hsep',hdrop,hstop⟩
    · exact Or.inl ⟨List.forall_mem_cons.mpr ⟨hnext,hall⟩,hstop⟩
    · refine Or.inr ⟨list[i] :: pre,sep,post,List.forall_mem_cons.mpr ⟨hnext,hpre⟩,hsep',?_,?_⟩
      · rw [hdrop, List.cons_append]
      · rw [hstop, List.length_cons]
        omega
  | case3 i hlt =>
    have hend : i = list.length := by omega
    subst hend
    exact Or.inl ⟨by simp,rfl⟩

/-- One round of the outer loop takes the first group off. -/
theorem groupLoop_round {list : TokenList} {i : ℕ} (h : i < list.length) :
    groupLoop (list.drop i) [] =
      if scanCommand list i - i = 0 then groupLoop (list.drop (afterCommand list i)) []
      else ((list.drop i).take (scanCommand list i - i),
          list[scanCommand list i]?.any (fun t => t.type == opAmp)) ::
        groupLoop (list.drop (afterCommand list i)) [] := by
  unfold afterCommand
  rcases scanCommand_cases list (Nat.le_of_lt h) with ⟨hall,hstop⟩ |
    ⟨pre,sep,post,hpre,hsep,hdrop,hstop⟩
  · -- the last group ends with the list
    rw [hstop, if_neg (by omega), if_neg (Nat.lt_irrefl _), List.getElem?_eq_none (Nat.le_refl _),
      List.drop_length, groupLoop_single _ [] hall (by simpa using h),
      List.take_of_length_le (by rw [List.length_drop])]
    rfl
  · have hget : list[i + pre.length]? = some sep := by
      rw [← List.getElem?_drop, hdrop, List.getElem?_append_right (Nat.le_refl _), Nat.sub_self]
      rfl
    have hpost : list.drop (i + pre.length + 1) = post := by
      rw [Nat.add_assoc, ← List.drop_drop, hdrop, ← List.drop_drop, List.drop_left]
      rfl
    rw [hstop, if_pos (List.getElem?_eq_some_iff.mp hget).1, hpost, hget, hdrop,
      groupLoop_separator hsep _ _ _ hpre, List.nil_append, Nat.add_sub_cancel_left,
      List.take_left]
    simp only [List.length_eq_zero_iff, Option.any_some]

theorem commandLoop_eq (list : TokenList) (i : ℕ) (s : Progress σ) :
    commandLoop c list i s = handOver c (groupLoop (list.drop i) []) s := by
  fun_induction commandLoop c list i s with
  | case1 i s h stop count hcount ih => rw [groupLoop_round h, if_pos hcount, ih]
  | case2 i s h stop count isBg hcount cmdTokens hbg ih =>
    rw [groupLoop_round h, if_neg hcount, handOver, if_pos hbg, ih]
  | case3 i s h stop count isBg hcount cmdTokens hbg r hok ih =>
    rw [groupLoop_round h, if_neg hcount, handOver, if_neg hbg, if_pos hok, ih]
  | case4 i s h stop count isBg hcount cmdTokens hbg r hok =>
    rw [groupLoop_round h, if_neg hcount, handOver, if_neg hbg, if_neg hok]
  | case5 i s h =>
    rw [List.drop_eq_nil_of_le (Nat.le_of_not_lt h)]
    rfl

/-- The index loop hands over the groups of the line. -/
theorem executeCommandLine_eq (list : TokenList) (s : Progress σ) :
    executeCommandLine c list s = handOver c (groups list) s := by
  unfold executeCommandLine
  split
  · next hempty =>
    rw [List.length_eq_zero_iff.mp hempty]
    rfl
  · rw [commandLoop_eq, List.drop_zero, groups]

/-! ## What is handed over -/

/-- The groups handed over and what they returned: all of them, or those up to the first
failure in the foreground. -/
inductive Sequenced : List (TokenList × Bool) → List Handed → Prop
  | nil : Sequenced [] []
  | background {h : Handed} {id : ℕ} {rest : List (TokenList × Bool)} {log : List Handed} :
      h.jobId = some id → (∀ b ∈ h.before, b < id) → Sequenced rest log →
      Sequenced ((h.tokens,true) :: rest) (h :: log)
  | foreground {h : Handed} {rest : List (TokenList × Bool)} {log : List Handed} :
      h.jobId = none → h.value = true → Sequenced rest log →
      Sequenced ((h.tokens,false) :: rest) (h :: log)
  | failed {h : Handed} {rest : List (TokenList × Bool)} :
      h.jobId = none → h.value = false → Sequenced ((h.tokens,false) :: rest) [h]

theorem handOver_sequenced (gs : List (TokenList × Bool)) (s : Progress σ) :
    ∃ log, (handOver c gs s).log = s.log ++ log ∧ Sequenced gs log := by
  induction gs generalizing s with
  | nil => exact ⟨[],(List.append_nil _).symm,.nil⟩
  | cons g gs ih =>
    obtain ⟨tokens,isBg⟩ := g
    cases isBg with
    | true =>
      obtain ⟨log,hlog,hseq⟩ := ih (s.background c tokens)
      let h : Handed := ⟨tokens,some s.ids.nextJobId,s.ids.issued,
        (c.executePipelineBg tokens s.ids.nextJobId (reconstructCmdStr tokens) s.env).value⟩
      refine ⟨h :: log,?_,.background (h := h) rfl s.ids.fresh hseq⟩
      rw [handOver, if_pos rfl, hlog]
      exact List.append_assoc s.log [h] log
    | false =>
      let h : Handed := ⟨tokens,none,s.ids.issued,(s.foreground c tokens).2⟩
      rw [handOver, if_neg Bool.false_ne_true]
      split
      · next hok =>
        obtain ⟨log,hlog,hseq⟩ := ih (s.foreground c tokens).1
        refine ⟨h :: log,?_,.foreground (h := h) rfl hok hseq⟩
        rw [hlog]
        exact List.append_assoc s.log [h] log
      · next hfail => exact ⟨[h],rfl,.failed (h := h) rfl (Bool.eq_false_iff.mpr hfail)⟩

end

section
variable {gs : List (TokenList × Bool)} {log : List Handed} (h : Sequenced gs log)
include h

theorem Sequenced.keys : log.map Handed.key <+: gs := by
  induction h with
  | nil => exact List.prefix_rfl
  | background hid _ _ ih =>
    rw [List.map_cons, Handed.key, hid]
    exact List.cons_prefix_cons.mpr ⟨rfl,ih⟩
  | foreground hid _ _ ih =>
    rw [List.map_cons, Handed.key, hid]
    exact List.cons_prefix_cons.mpr ⟨rfl,ih⟩
  | failed hid _ =>
    rw [List.map_cons, Handed.key, hid]
    exact List.cons_prefix_cons.mpr ⟨rfl, List.nil_prefix⟩

theorem Sequenced.ids {x : Handed} (hx : x ∈ log) (hbg : x.key.2 = true) :
    ∃ id, x.jobId = some id ∧ ∀ b ∈ x.before, b < id := by
  induction h with
  | nil => cases hx
  | background hid hfresh _ ih =>
    rcases List.mem_cons.mp hx with rfl | hx
    · exact ⟨_,hid,hfresh⟩
    · exact ih hx
  | foreground hid _ _ ih =>
    rcases List.mem_cons.mp hx with rfl | hx
    · rw [Handed.key, hid] at hbg
      cases hbg
    · exact ih hx
  | failed hid _ =>
    rw [List.mem_singleton.mp hx, Handed.key, hid] at hbg
    cases hbg

/-- The loop goes on after every group but a failed one in the foreground. -/
theorem Sequenced.goes_on : ∀ x ∈ log.dropLast, x.key.2 = true ∨ x.value = true := by
  have hcons : ∀ {y : Handed} {log : List Handed}, (y.key.2 = true ∨ y.value = true) →
      (∀ x ∈ log.dropLast, x.key.2 = true ∨ x.value = true) →
      ∀ x ∈ (y :: log).dropLast, x.key.2 = true ∨ x.value = true := by
    intro y log hy hlog x hx
    cases log with
    | nil => cases hx
    | cons z log =>
      rcases List.mem_cons.mp hx with rfl | hx
      · exact hy
      · exact hlog x hx
  induction h with
  | nil => simp
  | background hid _ _ ih => exact hcons (Or.inl (by rw [Handed.key, hid]; rfl)) ih
  | foreground _ hok _ ih => exact hcons (Or.inr hok) ih
  | failed => simp

theorem Sequenced.ends : log.map Handed.key = gs ∨
    ∃ x, log.getLast? = some x ∧ x.key.2 = false ∧ x.value = false := by
  have hcons : ∀ {y : Handed} {g : TokenList × Bool} {gs : List (TokenList × Bool)}
      {log : List Handed}, y.key = g →
      (log.map Handed.key = gs ∨ ∃ x, log.getLast? = some x ∧ x.key.2 = false ∧ x.value = false) →
      (y :: log).map Handed.key = g :: gs ∨
        ∃ x, (y :: log).getLast? = some x ∧ x.key.2 = false ∧ x.value = false := by
    rintro y g gs log rfl (heq | ⟨x,hlast,hx⟩)
    · exact Or.inl (by rw [List.map_cons, heq])
    · refine Or.inr ⟨x,?_,hx⟩
      rw [List.getLast?_cons, hlast]
      rfl
  induction h with
  | nil => exact Or.inl rfl
  | background hid _ _ ih => exact hcons (by rw [Handed.key, hid]; rfl) ih
  | foreground hid _ _ ih => exact hcons (by rw [Handed.key, hid]; rfl) ih
  | @failed x rest hid hfail => exact Or.inr ⟨x,rfl,by rw [Handed.key, hid]; rfl,hfail⟩

end

/-! ## Runs between separators -/

/-- The maximal runs of tokens without separators, each with whether `&` ends it; the
empty ones are left out. -/
def runs (list : TokenList) : List (TokenList × Bool) :=
  ((list.splitOnP isSeparator).zip
    ((list.filter isSeparator).map (fun t => t.type == opAmp) ++ [false])).filter
      (fun run => run.1 ≠ [])

theorem groupLoop_eq (rest cur : TokenList) : groupLoop rest cur =
    (((rest.splitOnP isSeparator).modifyHead (cur ++ ·)).zip
      ((rest.filter isSeparator).map (fun t => t.type == opAmp) ++ [false])).filter
        (fun run => run.1 ≠ []) := by
  induction rest generalizing cur with
  | nil =>
    rw [groupLoop]
    by_cases hcur : cur = []
    · simp [hcur]
    · simp [hcur]
  | cons t rest ih =>
    rw [groupLoop, List.splitOnP_cons_eq_if_modifyHead]
    by_cases ht : isSeparator t = true
    · rw [if_pos ht, if_pos ht, List.filter_cons_of_pos ht, List.modifyHead_cons, List.append_nil,
        List.map_cons, List.cons_append, List.zip_cons_cons, ih, modifyHead_nil_append]
      by_cases hcur : cur = []
      · rw [if_pos hcur, List.filter_cons_of_neg (by simp [hcur])]
      · rw [if_neg hcur, List.filter_cons_of_pos (by simp [hcur])]
    · rw [if_neg ht, if_neg ht, List.filter_cons_of_neg ht, ih, List.modifyHead_modifyHead]
      congr 3
      funext run
      simp

theorem groups_eq_runs (list : TokenList) : groups list = runs list := by
  rw [groups, groupLoop_eq, modifyHead_nil_append, runs]

end CShellXv6.Sequence
