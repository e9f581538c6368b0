import CShellXv6.Library.Transition
import Mathlib.Algebra.GroupWithZero.Nat
import Mathlib.Data.List.Nodup
import Mathlib.Data.List.Infix

/-! # The start of a background job

The processes of a background job wait on a pipe until the shell has announced
it. The shell writes one byte for all of them, so that at most one finds it and
the others are released by end-of-file, once nobody holds a write end any more.
-/
namespace CShellXv6.Handshake
open Transition

inductive ParentOp
  | fork
  | setpgid
  | closeOthers
  | closeRead
  | print
  | flush
  | write
  | closeWrite
  | register
  deriving DecidableEq, Repr

inductive ChildOp
  | setpgid
  | closeWrite
  | read
  | closeRead
  deriving DecidableEq, Repr

/-- The three places that start a background job: a pipeline and a built-in in
`execute_pipeline_bg`, and a command in `execute_cmd_internal`. -/
inductive Launch
  | pipeline
  | builtin
  | command
  deriving DecidableEq, Repr

def Launch.childCode : Launch → List ChildOp
  | .pipeline => [.setpgid,.closeWrite,.read,.closeRead]
  | .builtin => [.closeWrite,.setpgid,.read,.closeRead]
  | .command => [.setpgid,.closeWrite,.read,.closeRead]

/-- What the shell does after the forks. -/
def Launch.announce : Launch → List ParentOp
  | .pipeline => [.closeOthers,.closeRead,.print,.flush,.write,.closeWrite,.register]
  | .builtin => [.closeRead,.print,.flush,.write,.closeWrite,.register]
  | .command => [.closeOthers,.closeRead,.print,.flush,.write,.closeWrite,.register]

def Launch.parentCode (v : Launch) (n : ℕ) : List ParentOp :=
  (List.replicate n [.fork,.setpgid]).flatten ++ v.announce

/-- A process with the rest of its code and the ends of the pipe that it holds. -/
structure Child where
  code : List ChildOp
  readEnd : Bool
  writeEnd : Bool
  deriving DecidableEq, Repr

structure State where
  code : List ParentOp
  readEnd : Bool
  writeEnd : Bool
  printed : Bool
  flushed : Bool
  /-- The shell has been killed by a write that nobody can read. -/
  killed : Bool
  children : List Child
  bytes : ℕ
  deriving DecidableEq, Repr

def State.hasReader (s : State) : Bool := s.readEnd || s.children.any (·.readEnd)

def State.hasWriter (s : State) : Bool := s.writeEnd || s.children.any (·.writeEnd)

inductive Event
  | parent
  | child (i : ℕ)
  deriving DecidableEq, Repr

def parentStep (v : Launch) (s : State) : Option State :=
  match s.code with
  | [] => none
  | op :: rest =>
    let s := { s with code := rest }
    some (match op with
      | .fork => { s with children := s.children ++ [⟨v.childCode,s.readEnd,s.writeEnd⟩] }
      | .closeRead => { s with readEnd := false }
      | .print => { s with printed := true }
      | .flush => { s with flushed := s.printed }
      | .write =>
        if s.hasReader then { s with bytes := s.bytes + 1 }
        else { s with code := [], readEnd := false, writeEnd := false, killed := true }
      | .closeWrite => { s with writeEnd := false }
      | .setpgid => s
      | .closeOthers => s
      | .register => s)

/-- The next step of a child; `read` blocks as long as there is no byte and
somebody may still write one. -/
def childStep (s : State) (i : ℕ) : Option State :=
  match s.children[i]? with
  | none => none
  | some c =>
    match c.code with
    | [] => none
    | .setpgid :: rest => some { s with children := s.children.set i { c with code := rest } }
    | .closeWrite :: rest =>
      some { s with children := s.children.set i { c with code := rest, writeEnd := false } }
    | .read :: rest =>
      if 0 < s.bytes then
        some { s with
          bytes := s.bytes - 1, children := s.children.set i { c with code := rest } }
      else if s.hasWriter then none
      else some { s with children := s.children.set i { c with code := rest } }
    | .closeRead :: rest =>
      some { s with children := s.children.set i { c with code := rest, readEnd := false } }

def step (v : Launch) (s : State) : Event → Option State
  | .parent => parentStep v s
  | .child i => childStep s i

def initial (v : Launch) (n : ℕ) : State := ⟨v.parentCode n,true,true,false,false,false,[],0⟩

/-! ## The rest of the code -/

/-- The shell still forks, or is within the announcement. -/
def ParentCode (v : Launch) (l : List ParentOp) : Prop :=
  (∃ forks, (∀ op ∈ forks, op = .fork ∨ op = .setpgid) ∧ l = forks ++ v.announce) ∨
    l <:+ v.announce

theorem parentCode_start (v : Launch) (n : ℕ) : ParentCode v (v.parentCode n) := by
  refine Or.inl ⟨_,fun op hop => ?_,rfl⟩
  obtain ⟨l,hl,hop⟩ := List.mem_flatten.mp hop
  rw [(List.mem_replicate.mp hl).2] at hop
  simpa using hop

theorem ParentCode.tail {v : Launch} {op : ParentOp} {rest : List ParentOp}
    (h : ParentCode v (op :: rest)) : ParentCode v rest := by
  rcases h with ⟨forks,hforks,heq⟩ | hsuffix
  · cases forks with
    | nil => exact Or.inr ⟨[op],heq⟩
    | cons a forks =>
      obtain ⟨_,hrest⟩ := List.cons_eq_cons.mp heq
      exact Or.inl ⟨forks,fun x hx => hforks x (List.mem_cons_of_mem a hx),hrest⟩
  · exact Or.inr ((List.suffix_cons op rest).trans hsuffix)

theorem announce_nodup (v : Launch) : v.announce.Nodup := by cases v <;> decide

/-- Only the forks are repeated. -/
theorem ParentCode.not_mem {v : Launch} {op : ParentOp} {rest : List ParentOp}
    (h : ParentCode v (op :: rest)) (hfork : op ≠ .fork) (hsetpgid : op ≠ .setpgid) :
    op ∉ rest := by
  have hnodup : ∀ l, l <:+ v.announce → l.Nodup := fun l hl => (announce_nodup v).sublist hl.sublist
  rcases h with ⟨forks,hforks,heq⟩ | hsuffix
  · cases forks with
    | nil => exact (List.nodup_cons.mp (hnodup _ ⟨[],heq⟩)).1
    | cons a forks =>
      obtain ⟨rfl,_⟩ := List.cons_eq_cons.mp heq
      exact absurd (hforks op List.mem_cons_self) (by simp [hfork,hsetpgid])
  · exact (List.nodup_cons.mp (hnodup _ hsuffix)).1

/-- The announcement comes after the forks. -/
theorem ParentCode.forked {v : Launch} {op : ParentOp} {rest : List ParentOp}
    (h : ParentCode v (op :: rest)) (hfork : op ≠ .fork) (hsetpgid : op ≠ .setpgid) :
    .fork ∉ op :: rest := by
  have hannounce : .fork ∉ v.announce := by cases v <;> decide
  rcases h with ⟨forks,hforks,heq⟩ | hsuffix
  · cases forks with
    | nil =>
      rw [heq]
      exact hannounce
    | cons a forks =>
      obtain ⟨rfl,_⟩ := List.cons_eq_cons.mp heq
      exact absurd (hforks op List.mem_cons_self) (by simp [hfork,hsetpgid])
  · exact fun hin => hannounce (hsuffix.subset hin)

/-- Whatever is left of the code, its steps are in their order. -/
theorem ParentCode.ordered {v : Launch} {l : List ParentOp} (h : ParentCode v l) :
    (.closeWrite ∉ l → .write ∉ l) ∧ (.write ∉ l → .flush ∉ l) ∧ (.flush ∉ l → .print ∉ l) ∧
      (.fork ∈ l → .closeRead ∈ l ∧ .closeWrite ∈ l) := by
  have hall : ∀ l ∈ v.announce.tails, (.closeWrite ∉ l → .write ∉ l) ∧ (.write ∉ l → .flush ∉ l) ∧
      (.flush ∉ l → .print ∉ l) ∧ (.fork ∈ l → .closeRead ∈ l ∧ .closeWrite ∈ l) := by
    cases v <;> decide
  rcases h with ⟨forks,_,rfl⟩ | hsuffix
  · cases v <;> simp [Launch.announce]
  · exact hall l ((List.mem_tails l _).mpr hsuffix)

theorem childCode_mem (v : Launch) (op : ChildOp) : op ∈ v.childCode := by
  cases v <;> cases op <;> decide

theorem childCode_ordered (v : Launch) : ∀ l ∈ v.childCode.tails, l.Nodup ∧
    (.read ∈ l → .closeRead ∈ l) ∧ (.closeWrite ∈ l → l.head? ≠ some .read) := by
  cases v <;> decide

/-! ## The invariant -/

/-- A child holds the ends that it has yet to close, and passes its `read` only
after the shell's `write`. -/
structure Child.Ok (v : Launch) (ahead : List ParentOp) (c : Child) : Prop where
  code : c.code <:+ v.childCode
  readEnd : c.readEnd = true ↔ .closeRead ∈ c.code
  writeEnd : c.writeEnd = true ↔ .closeWrite ∈ c.code
  passed : .read ∉ c.code → .write ∉ ahead

structure Invariant (v : Launch) (n : ℕ) (s : State) : Prop where
  code : ParentCode v s.code
  count : s.code.count .fork + s.children.length = n
  readEnd : s.readEnd = true ↔ .closeRead ∈ s.code
  writeEnd : s.writeEnd = true ↔ .closeWrite ∈ s.code
  printed : .print ∉ s.code → s.printed = true
  flushed : .flush ∉ s.code → s.flushed = true
  killed : s.killed = false
  bytes : 0 < s.bytes → .write ∉ s.code
  children : ∀ c ∈ s.children, c.Ok v s.code

theorem initial_invariant (v : Launch) (n : ℕ) : Invariant v n (initial v n) := by
  have hall : ∀ op ∈ v.announce, op ∈ v.parentCode n := fun op hop => List.mem_append_right _ hop
  refine ⟨parentCode_start v n,?_,?_,?_,?_,?_,rfl,?_,?_⟩
  · have hforks : ∀ k, ((List.replicate k [ParentOp.fork,.setpgid]).flatten).count .fork = k := by
      intro k
      induction k with
      | zero => rfl
      | succ k ih => simp [List.replicate_succ,ih]
    have hannounce : v.announce.count .fork = 0 := by cases v <;> decide
    simp [initial,Launch.parentCode,hforks,hannounce]
  · exact iff_of_true rfl (hall _ (by cases v <;> decide))
  · exact iff_of_true rfl (hall _ (by cases v <;> decide))
  · exact fun h => absurd (hall _ (by cases v <;> decide)) h
  · exact fun h => absurd (hall _ (by cases v <;> decide)) h
  · exact fun h => absurd h (Nat.lt_irrefl 0)
  · exact fun c hc => absurd hc List.not_mem_nil

theorem Child.Ok.mono {v : Launch} {ahead ahead' : List ParentOp} {c : Child} (h : c.Ok v ahead)
    (hahead : .write ∉ ahead → .write ∉ ahead') : c.Ok v ahead' :=
  ⟨h.code,h.readEnd,h.writeEnd,fun hread => hahead (h.passed hread)⟩

/-- A child that waits can be written to. -/
theorem Invariant.hasReader {v : Launch} {n : ℕ} {s : State} (hs : Invariant v n s) (hn : 1 ≤ n)
    (hforked : .fork ∉ s.code) (hwrite : .write ∈ s.code) : s.hasReader = true := by
  have hlength : s.children.length = n := by
    have hcount := hs.count
    rw [List.count_eq_zero.mpr hforked] at hcount
    omega
  obtain ⟨c,hc⟩ := List.exists_mem_of_length_pos (l := s.children) (by omega)
  have hok := hs.children c hc
  have hread : .read ∈ c.code := by
    by_contra hnot
    exact hok.passed hnot hwrite
  have hordered := childCode_ordered v c.code ((List.mem_tails _ _).mpr hok.code)
  have hend := hok.readEnd.mpr (hordered.2.1 hread)
  simp only [State.hasReader, Bool.or_eq_true, List.any_eq_true]
  exact Or.inr ⟨c,hc,hend⟩

/-- A step of the shell, by what it changes. -/
theorem Invariant.next {v : Launch} {n : ℕ} {s t : State} (hs : Invariant v n s) {op : ParentOp}
    {rest : List ParentOp} (hcode : s.code = op :: rest) (ht : t.code = rest)
    (hlength : t.children.length = s.children.length + if op = .fork then 1 else 0)
    (hreadEnd : t.readEnd = (s.readEnd && decide (op ≠ .closeRead)))
    (hwriteEnd : t.writeEnd = (s.writeEnd && decide (op ≠ .closeWrite)))
    (hprinted : t.printed = (s.printed || decide (op = .print)))
    (hflushed : t.flushed = if op = .flush then s.printed else s.flushed)
    (hkilled : t.killed = false) (hbytes : t.bytes = s.bytes + if op = .write then 1 else 0)
    (hchildren : ∀ c ∈ t.children, c.Ok v rest) : Invariant v n t := by
  have hparent : ParentCode v (op :: rest) := hcode ▸ hs.code
  have hordered := hparent.tail.ordered
  have hmem : ∀ x, x ≠ op → (x ∈ s.code ↔ x ∈ rest) := by
    intro x hx
    rw [hcode, List.mem_cons]
    exact or_iff_right hx
  refine ⟨?_,?_,?_,?_,?_,?_,hkilled,?_,?_⟩
  all_goals rw [ht]
  · exact hparent.tail
  · have hcount := hs.count
    rw [hcode, List.count_cons] at hcount
    rw [hlength]
    simp only [beq_iff_eq] at hcount
    omega
  · by_cases hop : op = .closeRead
    · subst hop
      exact iff_of_false (by simp [hreadEnd]) (hparent.not_mem (by simp) (by simp))
    · rw [hreadEnd, ← hmem _ (Ne.symm hop)]
      simpa [hop] using hs.readEnd
  · by_cases hop : op = .closeWrite
    · subst hop
      exact iff_of_false (by simp [hwriteEnd]) (hparent.not_mem (by simp) (by simp))
    · rw [hwriteEnd, ← hmem _ (Ne.symm hop)]
      simpa [hop] using hs.writeEnd
  · intro hnot
    by_cases hop : op = .print
    · simp [hprinted,hop]
    · have hold := hs.printed fun hin => hnot ((hmem _ (Ne.symm hop)).mp hin)
      simp [hprinted,hold]
  · intro hnot
    rw [hflushed]
    split
    · next hop =>
      subst hop
      exact hs.printed fun hin => hordered.2.2.1 hnot ((hmem _ (by simp)).mp hin)
    · next hop => exact hs.flushed fun hin => hnot ((hmem _ (Ne.symm hop)).mp hin)
  · intro hpos
    by_cases hop : op = .write
    · subst hop
      exact hparent.not_mem (by simp) (by simp)
    · rw [hbytes, if_neg hop] at hpos
      exact fun hin => hs.bytes hpos ((hmem _ (Ne.symm hop)).mpr hin)
  · exact hchildren

theorem Invariant.parentStep {v : Launch} {n : ℕ} {s t : State} (hs : Invariant v n s) (hn : 1 ≤ n)
    (h : parentStep v s = some t) : Invariant v n t := by
  cases hcode : s.code with
  | nil => simp [Handshake.parentStep,hcode] at h
  | cons op rest =>
    have hparent : ParentCode v (op :: rest) := hcode ▸ hs.code
    have hkept : ∀ c ∈ s.children, c.Ok v rest := by
      intro c hc
      refine (hs.children c hc).mono fun hnot hin => hnot ?_
      rw [hcode]
      exact List.mem_cons_of_mem op hin
    simp only [Handshake.parentStep, hcode, Option.some.injEq] at h
    cases op with
    | fork =>
      cases h
      refine hs.next hcode rfl (by simp) (by simp) (by simp) (by simp) (by simp) hs.killed (by simp)
        fun c hc => ?_
      rcases List.mem_append.mp hc with hc | hc
      · exact hkept c hc
      · rw [List.mem_singleton.mp hc]
        -- the shell has not closed its ends yet, so the child gets both
        have hends := hparent.ordered.2.2.2 List.mem_cons_self
        refine ⟨List.suffix_rfl,?_,?_,fun hnot => absurd (childCode_mem v .read) hnot⟩
        · exact iff_of_true (hs.readEnd.mpr (hcode ▸ hends.1)) (childCode_mem v .closeRead)
        · exact iff_of_true (hs.writeEnd.mpr (hcode ▸ hends.2)) (childCode_mem v .closeWrite)
    | write =>
      have hreader := hs.hasReader hn (hcode ▸ hparent.forked (by simp) (by simp)) (by simp [hcode])
      have hsame : { s with code := rest }.hasReader = true := hreader
      rw [if_pos hsame] at h
      cases h
      exact hs.next hcode rfl rfl (by simp) (by simp) (by simp) (by simp) hs.killed rfl hkept
    | _ =>
      cases h
      exact hs.next hcode rfl rfl (by simp) (by simp) (by simp) (by simp) hs.killed rfl hkept

/-- A step of a child, by what it changes. -/
theorem Invariant.child {v : Launch} {n : ℕ} {s : State} (hs : Invariant v n s) {i : ℕ} {c : Child}
    {op : ChildOp} {rest : List ChildOp} (hc : s.children[i]? = some c)
    (hcode : c.code = op :: rest)
    {bytes : ℕ} (hbytes : bytes ≤ s.bytes) {c' : Child} (hc' : c'.code = rest)
    (hreadEnd : c'.readEnd = (c.readEnd && decide (op ≠ .closeRead)))
    (hwriteEnd : c'.writeEnd = (c.writeEnd && decide (op ≠ .closeWrite)))
    (hread : op = .read → .write ∉ s.code) :
    Invariant v n { s with bytes, children := s.children.set i c' } := by
  have hok := hs.children c (List.mem_of_getElem? hc)
  have hsuffix : op :: rest <:+ v.childCode := hcode ▸ hok.code
  have hnodup := (childCode_ordered v _ ((List.mem_tails _ _).mpr hsuffix)).1
  have hfresh := (List.nodup_cons.mp hnodup).1
  have hmem : ∀ x, x ≠ op → (x ∈ c.code ↔ x ∈ rest) := by
    intro x hx
    rw [hcode, List.mem_cons]
    exact or_iff_right hx
  refine ⟨hs.code,by simpa using hs.count,hs.readEnd,hs.writeEnd,hs.printed,hs.flushed,hs.killed,
    fun hpos => hs.bytes (by dsimp only at hpos; omega),fun x hx => ?_⟩
  rcases List.mem_or_eq_of_mem_set hx with hx | rfl
  · exact hs.children x hx
  · refine ⟨hc' ▸ (List.suffix_cons op rest).trans hsuffix,?_,?_,?_⟩
    all_goals rw [hc']
    · by_cases hop : op = .closeRead
      · subst hop
        exact iff_of_false (by simp [hreadEnd]) hfresh
      · rw [hreadEnd, ← hmem _ (Ne.symm hop)]
        simpa [hop] using hok.readEnd
    · by_cases hop : op = .closeWrite
      · subst hop
        exact iff_of_false (by simp [hwriteEnd]) hfresh
      · rw [hwriteEnd, ← hmem _ (Ne.symm hop)]
        simpa [hop] using hok.writeEnd
    · intro hnot
      by_cases hop : op = .read
      · exact hread hop
      · exact hok.passed fun hin => hnot ((hmem _ (Ne.symm hop)).mp hin)

theorem Invariant.childStep {v : Launch} {n : ℕ} {s t : State} (hs : Invariant v n s) {i : ℕ}
    (h : childStep s i = some t) : Invariant v n t := by
  cases hc : s.children[i]? with
  | none => simp [Handshake.childStep,hc] at h
  | some c =>
    cases hcode : c.code with
    | nil => simp [Handshake.childStep,hc,hcode] at h
    | cons op rest =>
      simp only [Handshake.childStep, hc, hcode] at h
      cases op with
      | setpgid =>
        cases h
        exact hs.child hc hcode (Nat.le_refl _) rfl (by simp) (by simp) (by simp)
      | closeWrite =>
        cases h
        exact hs.child hc hcode (Nat.le_refl _) rfl (by simp) (by simp) (by simp)
      | closeRead =>
        cases h
        exact hs.child hc hcode (Nat.le_refl _) rfl (by simp) (by simp) (by simp)
      | read =>
        simp only at h
        split at h
        · next hpos =>
          cases h
          exact hs.child hc hcode (Nat.sub_le _ _) rfl (by simp) (by simp) fun _ => hs.bytes hpos
        split at h
        · cases h
        · next hwriter =>
          cases h
          -- end-of-file: the shell has closed its write end, after its write
          have hclosed : .closeWrite ∉ s.code := by
            intro hin
            simp [State.hasWriter,hs.writeEnd.mpr hin] at hwriter
          exact hs.child hc hcode (Nat.le_refl _) rfl (by simp) (by simp)
            fun _ => hs.code.ordered.1 hclosed

theorem Invariant.step {v : Launch} {n : ℕ} {s t : State} {e : Event} (hs : Invariant v n s)
    (hn : 1 ≤ n) (h : step v s e = some t) : Invariant v n t := by
  cases e with
  | parent => exact hs.parentStep hn h
  | child i => exact hs.childStep h

theorem reachable_invariant {v : Launch} {n : ℕ} (hn : 1 ≤ n) {s : State}
    (hs : Reachable (step v) (initial v n) s) : Invariant v n s :=
  hs.invariant (initial_invariant v n) fun _ _ _ h _ hstep => h.step hn hstep

/-! ## Progress -/

/-- The job is announced and all its processes are past the handshake. -/
structure State.Finished (n : ℕ) (s : State) : Prop where
  code : s.code = []
  killed : s.killed = false
  flushed : s.flushed = true
  length : s.children.length = n
  children : ∀ c ∈ s.children, c.code = []

/-- Only a `read` can block. -/
theorem childStep_isSome {s : State} {i : ℕ} {c : Child} (hc : s.children[i]? = some c)
    (hcode : c.code ≠ []) (hread : c.code.head? = some .read → 0 < s.bytes ∨ s.hasWriter = false) :
    ∃ t, childStep s i = some t := by
  cases hop : c.code with
  | nil => exact absurd hop hcode
  | cons op rest =>
    simp only [childStep, hc, hop]
    cases op with
    | setpgid => exact ⟨_,rfl⟩
    | closeWrite => exact ⟨_,rfl⟩
    | closeRead => exact ⟨_,rfl⟩
    | read =>
      rcases hread (by rw [hop]; rfl) with hpos | hclosed
      · exact ⟨_,if_pos hpos⟩
      · by_cases hpos : 0 < s.bytes
        · exact ⟨_,if_pos hpos⟩
        · simp [hpos,hclosed]

/-- A child that still holds a write end is on its way to close it. -/
theorem Invariant.writer_moves {v : Launch} {n : ℕ} {s : State} (hs : Invariant v n s) {c : Child}
    (hc : c ∈ s.children) (hwriter : c.writeEnd = true) :
    ∃ i t, Handshake.childStep s i = some t := by
  have hok := hs.children c hc
  have hclose := hok.writeEnd.mp hwriter
  have hordered := childCode_ordered v c.code ((List.mem_tails _ _).mpr hok.code)
  obtain ⟨i,hi⟩ := List.mem_iff_getElem?.mp hc
  obtain ⟨t,ht⟩ := childStep_isSome hi (List.ne_nil_of_mem hclose)
    fun hread => absurd hread (hordered.2.2 hclose)
  exact ⟨i,t,ht⟩

theorem Invariant.progress {v : Launch} {n : ℕ} {s : State} (hs : Invariant v n s) :
    s.Finished n ∨ ∃ e t, Handshake.step v s e = some t := by
  cases hcode : s.code with
  | cons op rest =>
    refine Or.inr ⟨.parent,?_⟩
    simp [Handshake.step,Handshake.parentStep,hcode]
  | nil =>
    by_cases hdone : ∀ c ∈ s.children, c.code = []
    · refine Or.inl ⟨hcode,hs.killed,hs.flushed (by simp [hcode]),?_,hdone⟩
      simpa [hcode] using hs.count
    · simp only [not_forall] at hdone
      obtain ⟨c,hc,hne⟩ := hdone
      by_cases hholder : ∃ d ∈ s.children, d.writeEnd = true
      · obtain ⟨d,hd,hwriter⟩ := hholder
        obtain ⟨i,t,ht⟩ := hs.writer_moves hd hwriter
        exact Or.inr ⟨.child i,t,ht⟩
      · have hclosed : s.hasWriter = false := by
          have hparent : s.writeEnd = false := by
            rw [← Bool.not_eq_true, hs.writeEnd, hcode]
            exact List.not_mem_nil
          simpa [State.hasWriter,hparent] using hholder
        obtain ⟨i,hi⟩ := List.mem_iff_getElem?.mp hc
        obtain ⟨t,ht⟩ := childStep_isSome hi hne fun _ => Or.inr hclosed
        exact Or.inr ⟨.child i,t,ht⟩

/-- The steps that are left, with those of the children to come. -/
def State.weight (s : State) : ℕ :=
  s.code.length + 4 * s.code.count .fork + (s.children.map (·.code.length)).sum

theorem sum_set_lt {l : List Child} {i : ℕ} {c c' : Child} (hc : l[i]? = some c)
    (hlt : c'.code.length < c.code.length) :
    ((l.set i c').map (·.code.length)).sum < (l.map (·.code.length)).sum := by
  induction l generalizing i with
  | nil => simp at hc
  | cons d rest ih =>
    cases i with
    | zero =>
      cases hc
      simpa using hlt
    | succ i =>
      have hrest := ih (i := i) (by simpa using hc)
      simpa using hrest

theorem childStep_weight {s t : State} {i : ℕ} (h : childStep s i = some t) :
    t.weight < s.weight := by
  cases hc : s.children[i]? with
  | none => simp [childStep,hc] at h
  | some c =>
    cases hcode : c.code with
    | nil => simp [childStep,hc,hcode] at h
    | cons op rest =>
      have hlt : ∀ c' : Child, c'.code = rest →
          ((s.children.set i c').map (·.code.length)).sum <
            (s.children.map (·.code.length)).sum := by
        intro c' hc'
        exact sum_set_lt hc (by simp [hc',hcode])
      simp only [childStep, hc, hcode] at h
      cases op with
      | setpgid =>
        cases h
        exact Nat.add_lt_add_left (hlt _ rfl) _
      | closeWrite =>
        cases h
        exact Nat.add_lt_add_left (hlt _ rfl) _
      | closeRead =>
        cases h
        exact Nat.add_lt_add_left (hlt _ rfl) _
      | read =>
        simp only at h
        split at h
        · cases h
          exact Nat.add_lt_add_left (hlt _ rfl) _
        split at h
        · cases h
        · cases h
          exact Nat.add_lt_add_left (hlt _ rfl) _

theorem parentStep_weight {v : Launch} {s t : State} (h : parentStep v s = some t) :
    t.weight < s.weight := by
  have hchild : v.childCode.length = 4 := by cases v <;> rfl
  cases hcode : s.code with
  | nil => simp [parentStep,hcode] at h
  | cons op rest =>
    simp only [parentStep, hcode, Option.some.injEq] at h
    cases op with
    | fork =>
      cases h
      simp only [State.weight, hcode, List.length_cons, List.count_cons_self, List.map_append,
        List.sum_append, List.map_cons, List.map_nil, List.sum_cons, List.sum_nil, hchild]
      omega
    | write =>
      simp only at h
      split at h
      · cases h
        simp [State.weight,hcode]
      · cases h
        simp only [State.weight, hcode, List.length_cons, List.length_nil, List.count_nil]
        omega
    | _ =>
      cases h
      simp [State.weight,hcode]

theorem step_weight {v : Launch} {s t : State} {e : Event} (h : step v s e = some t) :
    t.weight < s.weight := by
  cases e with
  | parent => exact parentStep_weight h
  | child i => exact childStep_weight h

/-- Every process of the job gets through the handshake. -/
theorem handshake_completes {v : Launch} {n : ℕ} (hn : 1 ≤ n) {s : State}
    (hs : Reachable (step v) (initial v n) s) :
    ∃ t, Reachable (step v) s t ∧ t.Finished n := by
  have hcloser : ∀ s, Invariant v n s → s.Finished n ∨
      ∃ e t, step v s e = some t ∧ Invariant v n t ∧ t.weight < s.weight := by
    intro s h
    rcases h.progress with hfinished | ⟨e,t,hstep⟩
    · exact Or.inl hfinished
    · exact Or.inr ⟨e,t,hstep,h.step hn hstep,step_weight hstep⟩
  obtain ⟨t,ht,_,hfinished⟩ :=
    Reachable.of_measure State.weight hcloser (reachable_invariant hn hs)
  exact ⟨t,ht,hfinished⟩

/-- No process of the job runs before it is announced, the handshake does not
block, and without write ends every waiting process goes on. -/
theorem background_handshake {v : Launch} {n : ℕ} (hn : 1 ≤ n) {s : State}
    (hs : Reachable (step v) (initial v n) s) :
    (∀ c ∈ s.children, .read ∉ c.code → s.flushed = true) ∧
      (s.Finished n ∨ ∃ e t, step v s e = some t) ∧
      (s.writeEnd = false → (∀ c ∈ s.children, c.writeEnd = false) →
        ∀ i c, s.children[i]? = some c → c.code.head? = some .read →
          ∃ t, step v s (.child i) = some t) := by
  have hinv := reachable_invariant hn hs
  refine ⟨fun c hc hpast => ?_,hinv.progress,fun hparent hchildren i c hc hread => ?_⟩
  · have hwritten := (hinv.children c hc).passed hpast
    exact hinv.flushed (hinv.code.ordered.2.1 hwritten)
  · have hclosed : s.hasWriter = false := by simpa [State.hasWriter,hparent] using hchildren
    refine childStep_isSome hc (fun hnil => ?_) fun _ => Or.inr hclosed
    simp [hnil] at hread

/-- The first of two processes has found the byte. -/
def firstReleased : List Event := List.replicate 9 .parent ++ List.replicate 3 (.child 0)

theorem background_handshake_firstReleased :
    ∃ s c, execute (restrict (step .pipeline) fun _ _ => True) (initial .pipeline 2) firstReleased =
      some s ∧ c ∈ s.children ∧ c.code = [.closeRead] ∧ s.flushed = true := by
  have hrun : ((execute (restrict (step .pipeline) fun _ _ => True) (initial .pipeline 2)
      firstReleased).bind fun s => s.children[0]?.map (·.code)) = some [.closeRead] := by decide
  obtain ⟨s,hs,hchild⟩ := Option.bind_eq_some_iff.mp hrun
  obtain ⟨c,hc,hcode⟩ := Option.map_eq_some_iff.mp hchild
  have hmem := List.mem_of_getElem? hc
  have hhandshake := background_handshake (by decide) (Runs.of_execute firstReleased hs)
  exact ⟨s,c,hs,hmem,hcode,hhandshake.1 c hmem (by simp [hcode])⟩

end CShellXv6.Handshake
