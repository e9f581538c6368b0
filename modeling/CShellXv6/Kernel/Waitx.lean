import CShellXv6.Library.Solo
import CShellXv6.Kernel.Response

/-! # The wait calls and the memory of the caller

`kwait` and `waitx` copy what they have found to the addresses that the caller gives. The two
loops are written out here with these copies; without the memory they are the loops of the
kernel. A pass of `waitx` over the table ends in one of five ways, each with `wait_lock` and the
lock of the child released.
-/
namespace CShellXv6.Kernel
open SpinLock Transition
variable {n : ℕ}

/-- The words that have been copied to the caller, in their order. -/
abbrev Memory := List (BitVec 64 × BitVec 32)

/-- Programs of the kernel that copy to the memory of the caller. -/
abbrev UserThread (n : ℕ) := Prog (Fin n) Lock Slot Entry (Data n × Memory)

/-! ## The loops -/

section Calls
variable (valid : BitVec 64 → Bool) (policy : Policy) (p : Slot) (again : Entry)

/-- `copyout`, which fails at the addresses that are not valid. -/
def copyout (dst : BitVec 64) (value : BitVec 32) (fail k : UserThread n) : UserThread n :=
  if valid dst then .act (fun s => (s.1,s.2 ++ [(dst,value)])) k else fail

/-- `dst != 0 && copyout(...) < 0` with what follows in either case. -/
def copyIf (dst : BitVec 64) (value : BitVec 32) (fail k : UserThread n) : UserThread n :=
  if dst ≠ 0 then copyout valid dst value fail k else k

/-- The return when a `copyout` has failed. -/
def waitFailed (pp : Slot) : Thread n := .release (.proc pp) (.release .wait (ret p (-1)))

def waitFound (pp : Slot) (pid : ℕ) : Thread n :=
  write pp (fun q => { q with parent := none })
    (freeproc pp (.release (.proc pp) (.release .wait (ret p pid))))

/-- The end of the loop when no child has exited. -/
def waitNone (havekids : Bool) : Thread n :=
  if havekids = false then .release .wait (ret p (-1))
  else killed p fun b =>
    if b then .release .wait (ret p (-1))
    else sleepPrepare p (.proc p) (.release .wait
      (sleep policy p (.acquire .wait (.goto again))))

def kwaitScan (addr : BitVec 64) : List Slot → Bool → UserThread n
  | [], havekids => (waitNone policy p again havekids).beside
  | pp :: rest, havekids => .look fun _ s =>
      if (s.1.proc pp).parent = some p then
        .acquire (.proc pp) (.look fun _ s =>
          if (s.1.proc pp).state = .zombie then
            copyIf valid addr (BitVec.ofInt 32 (s.1.proc pp).xstate) (waitFailed p pp).beside
              (waitFound p pp (s.1.proc pp).pid).beside
          else .release (.proc pp) (kwaitScan addr rest true))
      else kwaitScan addr rest havekids

/-- The addresses that `waitx` is given. -/
structure WaitxArgs where
  addr : BitVec 64
  rtime : BitVec 64
  wtime : BitVec 64
  retime : BitVec 64

def waitxScan (args : WaitxArgs) : List Slot → Bool → UserThread n
  | [], havekids => (waitNone policy p again havekids).beside
  | pp :: rest, havekids => .look fun _ s =>
      if (s.1.proc pp).parent = some p then
        .acquire (.proc pp) (.look fun _ s =>
          if (s.1.proc pp).state = .zombie then
            copyIf valid args.addr (BitVec.ofInt 32 (s.1.proc pp).xstate) (waitFailed p pp).beside
              (copyIf valid args.rtime (BitVec.ofNat 32 (s.1.proc pp).rtime)
                (waitFailed p pp).beside
                (copyIf valid args.wtime (BitVec.ofNat 32 (s.1.proc pp).wtime)
                  (waitFailed p pp).beside
                  (copyIf valid args.retime (s.1.proc pp).responseTime (waitFailed p pp).beside
                    (waitFound p pp (s.1.proc pp).pid).beside)))
          else .release (.proc pp) (waitxScan args rest true))
      else waitxScan args rest havekids

theorem waitxScan_eq_kwaitScan (addr : BitVec 64) (table : List Slot) (havekids : Bool) :
    (waitxScan valid policy p again ⟨addr,0,0,0⟩ table havekids : UserThread n) =
      kwaitScan valid policy p again addr table havekids := by
  induction table generalizing havekids with
  | nil => rfl
  | cons pp rest ih =>
    have hzero : ∀ (value : BitVec 32) (fail k : UserThread n), copyIf valid 0 value fail k = k :=
      fun _ _ _ => if_neg (not_not.mpr rfl)
    simp only [waitxScan, kwaitScan, ih, hzero]

end Calls

/-! ## The loops without the memory -/

/-- A copy is asked for and cannot be made, or not. -/
def copies (valid : BitVec 64 → Bool) (dst : BitVec 64) : Bool := dst = 0 || valid dst

/-- The call as the kernel without the memory sees it. -/
def WaitxArgs.call (args : WaitxArgs) (valid : BitVec 64 → Bool) : WaitCall :=
  .waitx (copies valid args.addr) (copies valid args.rtime) (copies valid args.wtime)
    (copies valid args.retime)

theorem copyIf_follows (valid : BitVec 64 → Bool) (dst : BitVec 64) (value : BitVec 32)
    {fail' k' : UserThread n} {fail k : Thread n} {ok : Bool} (hfail : Follows fail' fail)
    (hk : Follows k' (if ok then k else fail)) :
    Follows (copyIf valid dst value fail' k') (if copies valid dst && ok then k else fail) := by
  unfold copyIf copyout
  by_cases hdst : dst = 0
  · have hok : copies valid dst = true := by simp [copies,hdst]
    rw [if_neg (not_not.mpr hdst), hok, Bool.true_and]
    exact hk
  · rw [if_pos hdst]
    by_cases hvalid : valid dst = true
    · have hok : copies valid dst = true := by simp [copies,hvalid]
      rw [if_pos hvalid, hok, Bool.true_and]
      exact .note (fun _ => rfl) hk
    · have hok : copies valid dst = false := by
        simp only [copies, hdst, hvalid, decide_false, Bool.or_self]
      rw [if_neg hvalid, hok, Bool.false_and]
      exact hfail

section Follows
variable (valid : BitVec 64 → Bool) (policy : Policy) (p : Slot)

theorem waitScan_nil (call : WaitCall) (havekids : Bool) :
    (waitScan policy p call [] havekids : Thread n) =
      waitNone policy p (.waitLoop p call) havekids := by
  cases havekids with
  | false => rfl
  | true => rfl

theorem waitxScan_follows (args : WaitxArgs) (table : List Slot) (havekids : Bool) :
    Follows (waitxScan valid policy p (.waitLoop p (args.call valid)) args table havekids :
      UserThread n) (waitScan policy p (args.call valid) table havekids) := by
  induction table generalizing havekids with
  | nil =>
    rw [waitScan_nil]
    exact Prog.beside_follows _
  | cons pp rest ih =>
    refine .look fun _ s => ?_
    split
    · refine .acquire (.look fun _ s => ?_)
      split
      · have hfail := (waitFailed p pp : Thread n).beside_follows (μ := Memory)
        have hfound : Follows ((waitFound p pp (s.1.proc pp).pid : Thread n).beside : UserThread n)
            (if true then waitFound p pp (s.1.proc pp).pid else waitFailed p pp) :=
          Prog.beside_follows _
        have hretime := copyIf_follows valid args.retime (s.1.proc pp).responseTime hfail hfound
        have hwtime := copyIf_follows valid args.wtime (BitVec.ofNat 32 (s.1.proc pp).wtime) hfail
          hretime
        have hrtime := copyIf_follows valid args.rtime (BitVec.ofNat 32 (s.1.proc pp).rtime) hfail
          hwtime
        have hcopies := copyIf_follows valid args.addr (BitVec.ofInt 32 (s.1.proc pp).xstate) hfail
          hrtime
        rw [Bool.and_true, ← Bool.and_assoc, ← Bool.and_assoc] at hcopies
        exact hcopies
      · exact .release (ih true)
    · exact ih havekids

end Follows

/-! ## A pass over the table -/

/-- A child of the process that has exited. -/
def Data.ExitedChild (s : Data n) (p pp : Slot) : Prop :=
  (s.proc pp).parent = some p ∧ (s.proc pp).state = .zombie

/-- The values for the four addresses, in the order of the copies. -/
def WaitxArgs.values (args : WaitxArgs) (q : Proc) : Memory :=
  [(args.addr,BitVec.ofInt 32 q.xstate),(args.rtime,BitVec.ofNat 32 q.rtime),
    (args.wtime,BitVec.ofNat 32 q.wtime),(args.retime,q.responseTime)]

/-- What is to be copied for a child. -/
def WaitxArgs.requests (args : WaitxArgs) (q : Proc) : Memory :=
  (args.values q).filter (·.1 ≠ 0)

/-- The ways in which a pass ends: the program that follows, the data and what was copied. -/
inductive WaitxEnds (valid : BitVec 64 → Bool) (policy : Policy) (p : Slot) (again : Entry)
    (args : WaitxArgs) (s : Data n) : Thread n → Data n → Memory → Prop
  | sleeps : (∃ pp, (s.proc pp).parent = some p) → (∀ pp, ¬ s.ExitedChild p pp) →
      (s.proc p).killed = false →
      WaitxEnds valid policy p again args s (sleep policy p (.acquire .wait (.goto again)))
        (s.modify p fun q => { q with chan := some (.proc p) }) []
  | childless : (∀ pp, (s.proc pp).parent ≠ some p) →
      WaitxEnds valid policy p again args s (ret p (-1)) s []
  | killed : (∀ pp, ¬ s.ExitedChild p pp) → (s.proc p).killed = true →
      WaitxEnds valid policy p again args s (ret p (-1)) s []
  | unwritable {pp : Slot} {stores : Memory} : s.ExitedChild p pp →
      (∀ q < pp, ¬ s.ExitedChild p q) → (∃ r ∈ args.requests (s.proc pp), valid r.1 = false) →
      stores <+: args.requests (s.proc pp) →
      WaitxEnds valid policy p again args s (ret p (-1)) s stores
  | reaps {pp : Slot} : s.ExitedChild p pp → (∀ q < pp, ¬ s.ExitedChild p q) →
      (∀ r ∈ args.requests (s.proc pp), valid r.1 = true) →
      WaitxEnds valid policy p again args s (ret p (s.proc pp).pid)
        (s.modify pp fun q => { q with
          parent := none, pid := 0, chan := none, killed := false, xstate := 0, state := .unused })
        (args.requests (s.proc pp))

section Pass
variable {h : Fin n} {o : Lock → Option (Fin n)}

/-- The copies are made up to the first address that is not valid. -/
theorem copyIf_leads (valid : BitVec 64 → Bool) (requests : Memory) (fail k : UserThread n)
    (s : Data n) (done : Memory) :
    (∀ r ∈ requests.filter (·.1 ≠ 0), valid r.1 = true) ∧
        Leads h (fun _ => True) (requests.foldr (fun r => copyIf valid r.1 r.2 fail) k) o (s,done)
          [] k o (s,done ++ requests.filter (·.1 ≠ 0)) ∨
      (∃ r ∈ requests.filter (·.1 ≠ 0), valid r.1 = false) ∧
        ∃ stores, stores <+: requests.filter (·.1 ≠ 0) ∧
          Leads h (fun _ => True) (requests.foldr (fun r => copyIf valid r.1 r.2 fail) k) o
            (s,done) [] fail o (s,done ++ stores) := by
  induction requests generalizing done with
  | nil =>
    refine Or.inl ⟨by simp,?_⟩
    rw [List.filter_nil, List.append_nil]
    exact .refl _ _ _
  | cons r requests ih =>
    rw [List.foldr_cons]
    unfold copyIf copyout
    by_cases hzero : r.1 = 0
    · rw [List.filter_cons_of_neg (by simpa using hzero), if_neg (not_not.mpr hzero)]
      exact ih done
    · rw [List.filter_cons_of_pos (by simpa using hzero), if_pos hzero]
      by_cases hvalid : valid r.1 = true
      · rw [if_pos hvalid]
        rcases ih (done ++ [(r.1,r.2)]) with ⟨hall,hleads⟩ | ⟨⟨r',hr',hbad⟩,stores,hstores,hleads⟩
        · refine Or.inl ⟨List.forall_mem_cons.mpr ⟨hvalid,hall⟩,?_⟩
          rw [List.append_assoc, List.singleton_append] at hleads
          exact .act trivial hleads
        · refine Or.inr ⟨⟨r',List.mem_cons_of_mem _ hr',hbad⟩,r :: stores,?_,?_⟩
          · exact List.cons_prefix_cons.mpr ⟨rfl,hstores⟩
          · rw [List.append_assoc, List.singleton_append] at hleads
            exact .act trivial hleads
      · rw [if_neg hvalid]
        refine Or.inr ⟨⟨r,List.mem_cons_self,by simpa using hvalid⟩,[],List.nil_prefix,?_⟩
        rw [List.append_nil]
        exact .refl _ _ _

variable (hwait : o .wait = some h) (hfree : ∀ q, o (.proc q) = none)
include hwait hfree

/-- Both locks are released before the return. -/
theorem waitFailed_leads (p pp : Slot) (s : Data n × Memory) :
    Leads h (fun _ => True) ((waitFailed p pp : Thread n).beside)
      (Function.update o (.proc pp) (some h)) s [] ((ret p (-1) : Thread n).beside)
      (Function.update o .wait none) s := by
  apply Leads.release trivial (Function.update_self _ _ _)
  rw [update_free (hfree pp)]
  apply Leads.release trivial hwait
  exact .refl _ _ _

theorem waitFound_leads (p pp : Slot) (pid : ℕ) (s : Data n) (done : Memory) :
    Leads h (fun _ => True) ((waitFound p pp pid : Thread n).beside)
      (Function.update o (.proc pp) (some h)) (s,done) [] ((ret p pid : Thread n).beside)
      (Function.update o .wait none) (s.modify pp fun q => { q with
          parent := none, pid := 0, chan := none, killed := false, xstate := 0, state := .unused },
        done) := by
  apply Leads.act trivial
  apply Leads.act trivial
  apply Leads.release trivial (Function.update_self _ _ _)
  rw [update_free (hfree pp)]
  apply Leads.release trivial hwait
  have hmodify : Data.modify pp (fun q => { q with
        pid := 0, chan := none, killed := false, xstate := 0, state := .unused })
      (s.modify pp fun q => { q with parent := none }) = s.modify pp fun q => { q with
        parent := none, pid := 0, chan := none, killed := false, xstate := 0
        state := .unused } := by
    simp [Data.modify]
  rw [hmodify]
  exact .refl _ _ _

omit hwait in
/-- A look at the process under its lock. -/
theorem killed_leads (p : Slot) (k : Bool → Thread n) (s : Data n × Memory) :
    Leads h (fun _ => True) ((killed p k).beside) o s [.proc p]
      ((k (s.1.proc p).killed).beside) o s := by
  apply Leads.acquire trivial (hfree p)
  apply Leads.look trivial
  apply Leads.release trivial (Function.update_self _ _ _)
  rw [update_free (hfree p)]
  exact .refl _ _ _

theorem waitNone_leads (valid : BitVec 64 → Bool) (policy : Policy) (p : Slot) (again : Entry)
    (args : WaitxArgs) (s : Data n) (done : Memory) {havekids : Bool}
    (hkids : havekids = true ↔ ∃ pp, (s.proc pp).parent = some p)
    (hnone : ∀ pp, ¬ s.ExitedChild p pp) :
    ∃ taken q s', Leads h (fun _ => True) ((waitNone policy p again havekids : Thread n).beside) o
        (s,done) taken (q : Thread n).beside (Function.update o .wait none) (s',done) ∧
      WaitxEnds valid policy p again args s q s' [] := by
  unfold waitNone
  split
  · next hfalse =>
    have hchildless : ∀ pp, (s.proc pp).parent ≠ some p := fun pp hpp => by
      rw [hkids.mpr ⟨pp,hpp⟩] at hfalse
      cases hfalse
    exact ⟨[],_,s,.release trivial hwait (.refl _ _ _),.childless hchildless⟩
  · next htrue =>
    have hlook := killed_leads (h := h) hfree p (fun b =>
      if b then .release .wait (ret p (-1))
      else sleepPrepare p (.proc p) (.release .wait
        (sleep policy p (.acquire .wait (.goto again))))) (s,done)
    have hchild := hkids.mp (by simpa using htrue)
    by_cases hkilled : (s.proc p).killed = true
    · rw [if_pos hkilled] at hlook
      exact ⟨_,_,s,hlook.trans (.release trivial hwait (.refl _ _ _)),.killed hnone hkilled⟩
    · rw [if_neg hkilled] at hlook
      have hsleep : Leads h (fun _ => True) ((sleepPrepare p (.proc p) (.release .wait
          (sleep policy p (.acquire .wait (.goto again)))) : Thread n).beside) o (s,done) [.proc p]
          ((sleep policy p (.acquire .wait (.goto again)) : Thread n).beside)
          (Function.update o .wait none)
          (s.modify p fun q => { q with chan := some (.proc p) },done) := by
        apply Leads.acquire trivial (hfree p)
        apply Leads.act trivial
        apply Leads.release trivial (Function.update_self _ _ _)
        rw [update_free (hfree p)]
        exact .release trivial hwait (.refl _ _ _)
      exact ⟨_,_,_,hlook.trans hsleep,.sleeps hchild hnone (by simpa using hkilled)⟩

section Rounds
variable (valid : BitVec 64 → Bool) (policy : Policy) {p pp : Slot} (again : Entry)
  (args : WaitxArgs) (s : Data n × Memory) (rest : List Slot) (havekids : Bool)

omit hwait hfree in
theorem waitxScan_other (hparent : (s.1.proc pp).parent ≠ some p) :
    Leads h (fun _ => True)
      (waitxScan valid policy p again args (pp :: rest) havekids : UserThread n) o s []
      (waitxScan valid policy p again args rest havekids) o s := by
  apply Leads.look trivial
  rw [if_neg hparent]
  exact .refl _ _ _

omit hwait in
theorem waitxScan_alive (hparent : (s.1.proc pp).parent = some p)
    (halive : (s.1.proc pp).state ≠ .zombie) :
    Leads h (fun _ => True)
      (waitxScan valid policy p again args (pp :: rest) havekids : UserThread n) o s [.proc pp]
      (waitxScan valid policy p again args rest true) o s := by
  apply Leads.look trivial
  rw [if_pos hparent]
  apply Leads.acquire trivial (hfree pp)
  apply Leads.look trivial
  rw [if_neg halive]
  apply Leads.release trivial (Function.update_self _ _ _)
  rw [update_free (hfree pp)]
  exact .refl _ _ _

omit hwait in
theorem waitxScan_exited (hexited : s.1.ExitedChild p pp) :
    Leads h (fun _ => True)
      (waitxScan valid policy p again args (pp :: rest) havekids : UserThread n) o s [.proc pp]
      ((args.values (s.1.proc pp)).foldr
        (fun r => copyIf valid r.1 r.2 (waitFailed p pp : Thread n).beside)
        (waitFound p pp (s.1.proc pp).pid : Thread n).beside)
      (Function.update o (.proc pp) (some h)) s := by
  apply Leads.look trivial
  rw [if_pos hexited.1]
  apply Leads.acquire trivial (hfree pp)
  apply Leads.look trivial
  rw [if_pos hexited.2]
  exact .refl _ _ _

end Rounds

theorem waitxScan_found (valid : BitVec 64 → Bool) (policy : Policy) {p pp : Slot}
    (again : Entry) (args : WaitxArgs) (s : Data n) (done : Memory) (rest : List Slot)
    (havekids : Bool) (hexited : s.ExitedChild p pp) (hfirst : ∀ q < pp, ¬ s.ExitedChild p q) :
    ∃ taken q s' stores, Leads h (fun _ => True)
        (waitxScan valid policy p again args (pp :: rest) havekids : UserThread n) o (s,done) taken
        (q : Thread n).beside (Function.update o .wait none) (s',done ++ stores) ∧
      WaitxEnds valid policy p again args s q s' stores := by
  have hscan := waitxScan_exited (h := h) hfree valid policy again args (s,done) rest havekids
    hexited
  rcases copyIf_leads (h := h) (o := Function.update o (.proc pp) (some h)) valid
      (args.values (s.proc pp)) (waitFailed p pp : Thread n).beside
      (waitFound p pp (s.proc pp).pid : Thread n).beside s done
    with ⟨hvalid,hleads⟩ | ⟨hbad,stores,hstores,hleads⟩
  · have hfound := waitFound_leads hwait hfree p pp (s.proc pp).pid s
      (done ++ args.requests (s.proc pp))
    exact ⟨_,_,_,_,hscan.trans (hleads.trans hfound),.reaps hexited hfirst hvalid⟩
  · have hfail := waitFailed_leads hwait hfree p pp (s,done ++ stores)
    exact ⟨_,_,_,_,hscan.trans (hleads.trans hfail),.unwritable hexited hfirst hbad hstores⟩

omit hwait hfree in
/-- The slots before a slot of the table. -/
theorem mem_of_lt {table rest : List Slot} {q pp : Slot}
    (htable : table ++ pp :: rest = List.finRange nproc) (hq : q < pp) : q ∈ table := by
  have hsorted := List.pairwise_lt_finRange nproc
  have hin := List.mem_finRange q
  rw [← htable] at hsorted hin
  rcases List.mem_append.mp hin with hin | hin
  · exact hin
  · rcases List.mem_cons.mp hin with rfl | hin
    · exact absurd hq (Nat.lt_irrefl _)
    · have hlater := List.rel_of_pairwise_cons (List.pairwise_append.mp hsorted).2.1 hin
      exact absurd hq (Nat.lt_asymm hlater)

/-- The rest of the table, after a part that has no exited child. -/
theorem waitxScan_leads (valid : BitVec 64 → Bool) (policy : Policy) (p : Slot) (again : Entry)
    (args : WaitxArgs) (s : Data n) (done : Memory) (table rest : List Slot) (havekids : Bool)
    (htable : table ++ rest = List.finRange nproc)
    (hkids : havekids = true ↔ ∃ pp ∈ table, (s.proc pp).parent = some p)
    (hnone : ∀ pp ∈ table, ¬ s.ExitedChild p pp) :
    ∃ taken q s' stores, Leads h (fun _ => True)
        (waitxScan valid policy p again args rest havekids : UserThread n) o (s,done) taken
        (q : Thread n).beside (Function.update o .wait none) (s',done ++ stores) ∧
      WaitxEnds valid policy p again args s q s' stores := by
  induction rest generalizing table havekids with
  | nil =>
    have hall : ∀ pp, pp ∈ table := fun pp => by
      rw [← List.append_nil table, htable]
      exact List.mem_finRange pp
    obtain ⟨taken,q,s',hleads,hends⟩ := waitNone_leads hwait hfree valid policy p again args s done
      (hkids.trans (by simp [hall])) fun pp => hnone pp (hall pp)
    refine ⟨taken,q,s',[],?_,hends⟩
    rw [List.append_nil]
    exact hleads
  | cons pp rest ih =>
    by_cases hexited : s.ExitedChild p pp
    · exact waitxScan_found hwait hfree valid policy again args s done rest havekids hexited
        fun q hq => hnone q (mem_of_lt htable hq)
    rw [List.append_cons] at htable
    have hnone' : ∀ q ∈ table ++ [pp], ¬ s.ExitedChild p q := by
      simpa [or_imp,forall_and] using And.intro hnone hexited
    by_cases hparent : (s.proc pp).parent = some p
    · have hkids' : true = true ↔ ∃ q ∈ table ++ [pp], (s.proc q).parent = some p :=
        iff_of_true rfl ⟨pp,by simp,hparent⟩
      obtain ⟨taken,q,s',stores,hleads,hends⟩ := ih _ _ htable hkids' hnone'
      have hround := waitxScan_alive (h := h) hfree valid policy again args (s,done) rest havekids
        hparent fun hzombie => hexited ⟨hparent,hzombie⟩
      exact ⟨_,q,s',stores,hround.trans hleads,hends⟩
    · have hkids' : havekids = true ↔ ∃ q ∈ table ++ [pp], (s.proc q).parent = some p := by
        rw [hkids]
        simp [or_and_right,exists_or,hparent]
      obtain ⟨taken,q,s',stores,hleads,hends⟩ := ih _ _ htable hkids' hnone'
      have hround := waitxScan_other (h := h) (o := o) valid policy again args (s,done) rest
        havekids hparent
      exact ⟨_,q,s',stores,hround.trans hleads,hends⟩

end Pass

/-- The loop of the kernel comes to the same data and the same owners of the locks. -/
theorem waitLoop_leads {h : Fin n} {o : Lock → Option (Fin n)} (hwait : o .wait = some h)
    (hfree : ∀ q, o (.proc q) = none) (valid : BitVec 64 → Bool) (policy : Policy) (p : Slot)
    (args : WaitxArgs) (s : Data n) :
    ∃ taken k q s' stores, Leads h (fun _ => True) (waitLoop policy p (args.call valid)) o s taken
        k (Function.update o .wait none) s' ∧ Follows ((q : Thread n).beside : UserThread n) k ∧
      WaitxEnds valid policy p (.waitLoop p (args.call valid)) args s q s' stores := by
  obtain ⟨taken,q,s',stores,hleads,hends⟩ := waitxScan_leads hwait hfree valid policy p
    (.waitLoop p (args.call valid)) args s [] [] (List.finRange nproc) false rfl
    (by simp) (by simp)
  obtain ⟨k,hkernel,hk⟩ := (waitxScan_follows valid policy p args _ false).leads hleads
  exact ⟨taken,k,q,s',stores,hkernel,hk,hends⟩

/-- A pass of `waitx` over the table ends with both locks released in one of the ways above,
and with the other three addresses zero `waitx` is `kwait`. -/
theorem waitx_pass (valid : BitVec 64 → Bool) (policy : Policy) (p : Slot) (again : Entry) :
    (∀ (args : WaitxArgs) (code : Code (Fin n) Lock Slot Entry (Data n × Memory)) (h : Fin n)
      (m : Machine (Fin n) Lock Slot Entry (Data n × Memory)) (rest : List (UserThread n)),
      m.frames h = waitxScan valid policy p again args (List.finRange nproc) false :: rest →
      m.owner .wait = some h → (∀ q, m.owner (.proc q) = none) →
      ∃ m' k s' stores, Runs (step code) (fun _ e => e = .run h) m m' ∧
        m'.owner .wait = none ∧ (∀ q, m'.owner (.proc q) = none) ∧
        m'.frames h = (k : Thread n).beside :: rest ∧ m'.data = (s',m.data.2 ++ stores) ∧
        WaitxEnds valid policy p again args m.data.1 k s' stores) ∧
    ∀ addr table havekids, (waitxScan valid policy p again ⟨addr,0,0,0⟩ table havekids :
      UserThread n) = kwaitScan valid policy p again addr table havekids := by
  refine ⟨fun args code h m rest hframes hwait hfree => ?_,
    waitxScan_eq_kwaitScan valid policy p again⟩
  obtain ⟨taken,k,s',stores,hleads,hends⟩ := waitxScan_leads hwait hfree valid policy p again args
    m.data.1 m.data.2 [] (List.finRange nproc) false rfl (by simp) (by simp)
  obtain ⟨m',hruns,hreaches⟩ := hleads.runs code hframes rfl rfl []
  have hfree' : ∀ q, m'.owner (.proc q) = none := fun q => by
    rw [hreaches.owner, Function.update_of_ne (by simp)]
    exact hfree q
  refine ⟨m',k,s',stores,hruns.of_watched fun _ _ hguard => hguard.1,?_,hfree',hreaches.frames,
    hreaches.data,hends⟩
  rw [hreaches.owner, Function.update_self]

/-- The first process waits and its child in the second slot has exited. -/
def childExited : Data 1 :=
  (boot 1 .fifo).data.modify 1 fun q => { q with
    state := .zombie, parent := some 0, pid := 2, xstate := 7, rtime := 3 }

def waitingMachine (args : WaitxArgs) (h : Fin 1) :
    Machine (Fin 1) Lock Slot Entry (Data 1 × Memory) where
  frames _ := [waitxScan (fun _ => true) .fifo 0 .scheduler args (List.finRange nproc) false]
  noff _ := 1
  owner l := if l = .wait then some h else none
  saved _ := []
  data := (childExited,[])

/-- The child is reaped and its status and running time are copied. -/
theorem waitx_pass_reaps :
    ∃ m', Runs (step (⟨.proc,fun _ => .halt,fun _ _ _ _ => false⟩ :
          Code (Fin 1) Lock Slot Entry (Data 1 × Memory))) (fun _ e => e = .run ⟨0,Nat.one_pos⟩)
        (waitingMachine ⟨64,72,0,0⟩ ⟨0,Nat.one_pos⟩) m' ∧
      m'.owner .wait = none ∧ (m'.data.1.proc 1).state = .unused ∧ m'.data.2 = [(64,7),(72,3)] := by
  obtain ⟨m',k,s',stores,hruns,hwait,_,_,hdata,hends⟩ := (waitx_pass (fun _ => true) .fifo 0
    .scheduler).1 ⟨64,72,0,0⟩ ⟨.proc,fun _ => .halt,fun _ _ _ _ => false⟩ ⟨0,Nat.one_pos⟩
    (waitingMachine ⟨64,72,0,0⟩ ⟨0,Nat.one_pos⟩) [] rfl rfl fun _ => rfl
  have hchild : childExited.ExitedChild 0 1 := ⟨rfl,rfl⟩
  have hstart : WaitxEnds (fun _ => true) .fifo 0 .scheduler ⟨64,72,0,0⟩ childExited k s' stores :=
    hends
  refine ⟨m',hruns,hwait,?_⟩
  rw [hdata]
  cases hstart with
  | sleeps _ hnone _ => exact absurd hchild (hnone 1)
  | childless hnone => exact absurd hchild.1 (hnone 1)
  | killed hnone _ => exact absurd hchild (hnone 1)
  | unwritable _ _ hbad _ =>
    obtain ⟨_,_,hfalse⟩ := hbad
    cases hfalse
  | @reaps pp hexited _ _ =>
    have hpp : pp = 1 := by
      by_contra hne
      have hparent := hexited.1
      rw [childExited, Data.modify_ne _ _ hne] at hparent
      simp only [boot] at hparent
      split at hparent <;> cases hparent
    subst hpp
    exact ⟨rfl,rfl⟩

end CShellXv6.Kernel
