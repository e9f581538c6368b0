import CShellXv6.Shell.Snoop

/-! # The table that snoop prints

`add_syscall_time` keeps one row for each number and gives every new row the next value of
a counter. The comparator of `qsort` is a total order on such rows, so the printed table
depends on nothing but the numbers and the order in which they came.
-/
namespace CShellXv6.Snoop

/-- The calls of `add_syscall_time`, with number and duration, from the empty table. -/
def addAll (calls : List (ℤ × ℤ)) : Tracer :=
  calls.foldl (fun t call => addSyscallTime call.1 call.2 t) Tracer.start

/-- The rows in the order in which they are printed. -/
def summary (calls : List (ℤ × ℤ)) : List SysStat :=
  (addAll calls).sysStats.insertionSort (fun a b => compareSysStats a b = true)

/-- The row comes before the other: more calls, or as many and seen earlier. -/
def Precedes (numbers : List ℤ) (a b : SysStat) : Prop :=
  b.calls.toInt < a.calls.toInt ∨
    a.calls.toInt = b.calls.toInt ∧ numbers.idxOf a.sysNum < numbers.idxOf b.sysNum

/-- One row for each number, with how often it occurs, the most frequent first. -/
structure Summarises (table : List SysStat) (numbers : List ℤ) : Prop where
  once : (table.map SysStat.sysNum).Nodup
  mem : ∀ n, n ∈ table.map SysStat.sysNum ↔ n ∈ numbers
  calls : ∀ st ∈ table, st.calls.toInt = numbers.count st.sysNum
  ordered : table.Pairwise (Precedes numbers)

/-! ## The order of first appearance -/

/-- The counter in the rows says which number was seen first. -/
structure FirstSeen (t : Tracer) (done : List ℤ) : Prop where
  below : ∀ st ∈ t.sysStats, st.firstSeenOrder < t.firstSeenCounter
  order : ∀ a ∈ t.sysStats, ∀ b ∈ t.sysStats,
    a.firstSeenOrder < b.firstSeenOrder ↔ done.idxOf a.sysNum < done.idxOf b.sysNum

theorem FirstSeen.grow {t : Tracer} {done : List ℤ} (h : FirstSeen t done)
    (hmem : ∀ st ∈ t.sysStats, st.sysNum ∈ done) (n : ℤ) : FirstSeen t (done ++ [n]) := by
  refine ⟨h.below,fun a ha b hb => ?_⟩
  rw [List.idxOf_append_of_mem (hmem a ha), List.idxOf_append_of_mem (hmem b hb)]
  exact h.order a ha b hb

theorem FirstSeen.charge {t : Tracer} {done : List ℤ} (h : FirstSeen t done) (n d : ℤ) :
    FirstSeen { t with
      sysStats := t.sysStats.map (fun st => if st.sysNum = n then st.charge d else st) } done := by
  have hsame : ∀ st : SysStat,
      (if st.sysNum = n then st.charge d else st).firstSeenOrder = st.firstSeenOrder ∧
        (if st.sysNum = n then st.charge d else st).sysNum = st.sysNum := by
    intro st
    split
    · exact ⟨rfl,rfl⟩
    · exact ⟨rfl,rfl⟩
  constructor
  · intro st hst
    obtain ⟨old,hold,rfl⟩ := List.mem_map.mp hst
    rw [(hsame old).1]
    exact h.below old hold
  · intro a ha b hb
    obtain ⟨a',ha',rfl⟩ := List.mem_map.mp ha
    obtain ⟨b',hb',rfl⟩ := List.mem_map.mp hb
    rw [(hsame a').1, (hsame a').2, (hsame b').1, (hsame b').2]
    exact h.order a' ha' b' hb'

/-- A number that is new appears after all the others. -/
theorem FirstSeen.push {t : Tracer} {done : List ℤ} (h : FirstSeen t done)
    (hmem : ∀ st ∈ t.sysStats, st.sysNum ∈ done) {n : ℤ} (hn : n ∉ done) (d : ℤ) :
    FirstSeen { t with
      sysStats := t.sysStats ++ [⟨n,d,1,t.firstSeenCounter⟩]
      firstSeenCounter := t.firstSeenCounter + 1 } (done ++ [n]) := by
  have hgrown := h.grow hmem n
  have hlast : (done ++ [n]).idxOf n = done.length := by
    rw [List.idxOf_append_of_notMem hn, List.idxOf_cons_self, Nat.add_zero]
  have hearlier : ∀ st ∈ t.sysStats, (done ++ [n]).idxOf st.sysNum < done.length := by
    intro st hst
    rw [List.idxOf_append_of_mem (hmem st hst)]
    exact List.idxOf_lt_length_of_mem (hmem st hst)
  constructor
  · intro st hst
    rcases List.mem_append.mp hst with hold | hnew
    · exact Nat.lt_succ_of_lt (h.below st hold)
    · rw [List.mem_singleton.mp hnew]
      exact Nat.lt_succ_self _
  · intro a ha b hb
    rcases List.mem_append.mp ha with hold | hnew
    · rcases List.mem_append.mp hb with hold' | hnew'
      · exact hgrown.order a hold b hold'
      · rw [List.mem_singleton.mp hnew']
        dsimp only
        rw [hlast]
        exact iff_of_true (h.below a hold) (hearlier a hold)
    · rw [List.mem_singleton.mp hnew]
      rcases List.mem_append.mp hb with hold' | hnew'
      · have hbelow := h.below b hold'
        have hbefore := hearlier b hold'
        dsimp only
        rw [hlast]
        exact iff_of_false (by omega) (by omega)
      · rw [List.mem_singleton.mp hnew']
        exact iff_of_false (Nat.lt_irrefl _) (Nat.lt_irrefl _)

theorem FirstSeen.add {t : Tracer} {done : List ℤ} (h : FirstSeen t done)
    (htallies : Tallies t.sysStats done) (n d : ℤ) :
    FirstSeen (addSyscallTime n d t) (done ++ [n]) := by
  have hmem : ∀ st ∈ t.sysStats, st.sysNum ∈ done :=
    fun st hst => (htallies.mem st.sysNum).mp (List.mem_map_of_mem hst)
  unfold addSyscallTime
  cases hseen : chargeSeen n d t.sysStats with
  | some table =>
    obtain ⟨_,rfl⟩ := chargeSeen_some htallies.once hseen
    exact (h.grow hmem n).charge n d
  | none =>
    have hn : n ∉ done := fun hin => chargeSeen_none hseen ((htallies.mem n).mpr hin)
    dsimp only
    split
    · exact h.push hmem hn d
    · exact h.grow hmem n

/-! ## The run -/

theorem adds_follow {calls : List (ℤ × ℤ)} {t : Tracer} {done : List ℤ}
    (htallies : Tallies t.sysStats done) (hseen : FirstSeen t done)
    (hall : (done ++ calls.map Prod.fst).dedup.length ≤ maxSyscalls) :
    Tallies (calls.foldl (fun t call => addSyscallTime call.1 call.2 t) t).sysStats
        (done ++ calls.map Prod.fst) ∧
      FirstSeen (calls.foldl (fun t call => addSyscallTime call.1 call.2 t) t)
        (done ++ calls.map Prod.fst) := by
  induction calls generalizing t done with
  | nil =>
    rw [List.map_nil, List.append_nil]
    exact ⟨htallies,hseen⟩
  | cons call calls ih =>
    rw [List.map_cons, List.append_cons] at hall ⊢
    have hroom : call.1 ∉ done → t.sysStats.length < maxSyscalls := by
      intro hnew
      apply htallies.room hnew _ hall
      intro m hm
      exact List.mem_append_left _ hm
    exact ih (htallies.add call.1 call.2 hroom) (hseen.add htallies call.1 call.2) hall

theorem addAll_follows {calls : List (ℤ × ℤ)}
    (hall : (calls.map Prod.fst).dedup.length ≤ maxSyscalls) :
    Tallies (addAll calls).sysStats (calls.map Prod.fst) ∧
      FirstSeen (addAll calls) (calls.map Prod.fst) := by
  have hseen : FirstSeen Tracer.start [] := by
    constructor
    · intro st hst
      cases hst
    · intro a ha
      cases ha
  exact adds_follow start_follows.tallies hseen hall

/-! ## The comparator -/

theorem compareSysStats_iff {a b : SysStat} : compareSysStats a b = true ↔
    b.calls.toInt < a.calls.toInt ∨
      a.calls.toInt = b.calls.toInt ∧ a.firstSeenOrder ≤ b.firstSeenOrder := by
  unfold compareSysStats
  by_cases heq : b.calls = a.calls
  · rw [if_neg (not_not.mpr heq), decide_eq_true_iff, heq]
    simp
  · rw [if_pos heq, decide_eq_true_iff]
    have hne : a.calls.toInt ≠ b.calls.toInt := fun h => heq (BitVec.eq_of_toInt_eq h).symm
    constructor
    · intro h
      exact Or.inl (by omega)
    · rintro (h | ⟨h,_⟩)
      · omega
      · exact absurd h hne

instance : Std.Total (fun a b => compareSysStats a b = true) := by
  constructor
  intro a b
  rw [compareSysStats_iff, compareSysStats_iff]
  omega

instance : IsTrans SysStat (fun a b => compareSysStats a b = true) := by
  constructor
  intro a b c
  rw [compareSysStats_iff, compareSysStats_iff, compareSysStats_iff]
  omega

/-- Rows of different numbers that stand in the order of the comparator. -/
theorem FirstSeen.precedes {t : Tracer} {done : List ℤ} (h : FirstSeen t done)
    (hmem : ∀ st ∈ t.sysStats, st.sysNum ∈ done) {a b : SysStat} (ha : a ∈ t.sysStats)
    (hb : b ∈ t.sysStats) (hne : a.sysNum ≠ b.sysNum) (hcompare : compareSysStats a b = true) :
    Precedes done a b := by
  rcases compareSysStats_iff.mp hcompare with hcalls | ⟨hcalls,hfirst⟩
  · exact Or.inl hcalls
  · refine Or.inr ⟨hcalls,?_⟩
    have hdistinct : done.idxOf a.sysNum ≠ done.idxOf b.sysNum :=
      fun heq => hne ((List.idxOf_inj (hmem a ha)).mp heq)
    have hnot : ¬ done.idxOf b.sysNum < done.idxOf a.sysNum := by
      rw [← h.order b hb a ha]
      omega
    omega

theorem summary_ordered {calls : List (ℤ × ℤ)}
    (hall : (calls.map Prod.fst).dedup.length ≤ maxSyscalls) :
    (summary calls).Pairwise (Precedes (calls.map Prod.fst)) := by
  obtain ⟨htallies,hseen⟩ := addAll_follows hall
  have hperm : (summary calls).Perm (addAll calls).sysStats := List.perm_insertionSort _ _
  have hsorted : (summary calls).Pairwise (fun a b => compareSysStats a b = true) :=
    List.pairwise_insertionSort _ _
  have hdistinct : (summary calls).Pairwise (fun a b => a.sysNum ≠ b.sysNum) :=
    List.pairwise_map.mp ((hperm.map _).nodup_iff.mpr htallies.once)
  apply (hsorted.and hdistinct).imp_of_mem
  rintro a b ha hb ⟨hcompare,hne⟩
  apply hseen.precedes _ (hperm.mem_iff.mp ha) (hperm.mem_iff.mp hb) hne hcompare
  intro st hst
  exact (htallies.mem st.sysNum).mp (List.mem_map_of_mem hst)

/-- The printed table of any calls that fill no counter. -/
theorem summary_summarises {calls : List (ℤ × ℤ)}
    (hall : (calls.map Prod.fst).dedup.length ≤ maxSyscalls)
    (hcalls : ∀ n, (calls.map Prod.fst).count n < 2 ^ 31) :
    Summarises (summary calls) (calls.map Prod.fst) := by
  obtain ⟨htallies,-⟩ := addAll_follows hall
  have hperm : (summary calls).Perm (addAll calls).sysStats := List.perm_insertionSort _ _
  have hexact := (htallies.exact hcalls).perm hperm
  constructor
  · exact hexact.once
  · intro n
    rw [(hperm.map SysStat.sysNum).mem_iff]
    exact htallies.mem n
  · exact hexact.calls
  · exact summary_ordered hall

/-- Three numbers, two of them twice. -/
theorem summary_summarises_ties :
    (summary [(2,5),(1,5),(0,5),(1,5),(0,5)]).map (fun st => (st.sysNum,st.calls.toInt)) =
        [(1,2),(0,2),(2,1)] ∧
      Summarises (summary [(2,5),(1,5),(0,5),(1,5),(0,5)]) [2,1,0,1,0] := by
  refine ⟨by decide +kernel,summary_summarises (by decide) fun n => ?_⟩
  have hle : ([2,1,0,1,0] : List ℤ).count n ≤ 5 := List.count_le_length
  exact hle.trans_lt (by omega)

/-- A counter of 32 bits has no value for `2 ^ 31` calls. -/
theorem summary_overflow :
    ((List.replicate (2 ^ 31) ((0,1) : ℤ × ℤ)).map Prod.fst).dedup.length ≤ maxSyscalls ∧
      ¬ Summarises (summary (List.replicate (2 ^ 31) (0,1)))
        ((List.replicate (2 ^ 31) ((0,1) : ℤ × ℤ)).map Prod.fst) := by
  generalize hk : 2 ^ 31 = k
  have hpos : k ≠ 0 := by omega
  rw [List.map_replicate]
  constructor
  · rw [List.replicate_dedup hpos]
    decide
  · intro h
    obtain ⟨st,hst,hnum⟩ := List.mem_map.mp ((h.mem 0).mpr (List.mem_replicate.mpr ⟨hpos,rfl⟩))
    have hcalls := h.calls st hst
    rw [hnum, List.count_replicate_self] at hcalls
    have hlt := BitVec.toInt_lt (x := st.calls)
    omega

end CShellXv6.Snoop
