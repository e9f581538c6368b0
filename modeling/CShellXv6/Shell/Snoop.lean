import Mathlib.Algebra.GroupWithZero.Nat
import Mathlib.Data.List.Dedup
import Mathlib.Data.List.Perm.Subperm
import Mathlib.Data.List.Sort
import Mathlib.Data.Nat.Notation

/-! # The trace loop of snoop

The tracer sees a stop of its process only as a signal, and one bit tells it
whether a system call is going on. As long as no stop but those of system calls
looks like one, the table it prints has the calls that were completed. The
names of the system calls are left out, and times are in nanoseconds.
-/
namespace CShellXv6.Snoop

/-! ## The tracer -/

/-- The signal of a stop: `SIGTRAP | 0x80`, `SIGTRAP`, or another one. -/
inductive Signal
  | sysgood
  | trap
  | other
  deriving DecidableEq, Repr

/-- What the stop is. -/
inductive StopKind
  | entry
  | exit
  | trap
  | other
  deriving DecidableEq, Repr

def StopKind.signal : StopKind → Signal
  | .entry => .sysgood
  | .exit => .sysgood
  | .trap => .trap
  | .other => .other

/-- A stop, with whether `PTRACE_GETREGS` succeeds, the number it gives and the clock. -/
structure Stop where
  kind : StopKind
  readable : Bool
  origRax : ℤ
  now : ℤ

structure SysStat where
  sysNum : ℤ
  totalTime : ℤ
  calls : BitVec 32
  firstSeenOrder : ℕ

/-- `MAX_SYSCALLS`. -/
def maxSyscalls : ℕ := 1024

structure Tracer where
  inSyscall : Bool
  startTs : ℤ
  currentSysNum : ℤ
  sysStats : List SysStat
  firstSeenCounter : ℕ

def Tracer.start : Tracer := ⟨false,0,-1,[],0⟩

def SysStat.charge (st : SysStat) (duration : ℤ) : SysStat :=
  { st with calls := st.calls + 1, totalTime := st.totalTime + duration }

/-- The loop over the numbers seen before; `none` when it finds none. -/
def chargeSeen (sysNum duration : ℤ) : List SysStat → Option (List SysStat)
  | [] => none
  | st :: rest =>
    if st.sysNum = sysNum then some (st.charge duration :: rest)
    else (chargeSeen sysNum duration rest).map (st :: ·)

def addSyscallTime (sysNum duration : ℤ) (t : Tracer) : Tracer :=
  match chargeSeen sysNum duration t.sysStats with
  | some stats => { t with sysStats := stats }
  | none =>
    if t.sysStats.length < maxSyscalls then
      { t with
        sysStats := t.sysStats ++ [⟨sysNum,duration,1,t.firstSeenCounter⟩]
        firstSeenCounter := t.firstSeenCounter + 1 }
    else t

/-- The body of the loop for a process that has stopped. -/
def onStop (t : Tracer) (stop : Stop) : Tracer :=
  if stop.kind.signal = .sysgood ∨ stop.kind.signal = .trap then
    if stop.readable then
      if t.inSyscall = false then
        { t with currentSysNum := stop.origRax, startTs := stop.now, inSyscall := true }
      else
        let duration := stop.now - t.startTs
        { (if 0 ≤ t.currentSysNum then addSyscallTime t.currentSysNum duration t else t) with
          inSyscall := false }
    else t
  else t

def compareSysStats (a b : SysStat) : Bool :=
  if b.calls ≠ a.calls then decide (b.calls.toInt - a.calls.toInt < 0)
  else decide (a.firstSeenOrder ≤ b.firstSeenOrder)

/-- The table after `qsort`. -/
def snoop (stops : List Stop) : List SysStat :=
  (stops.foldl onStop Tracer.start).sysStats.insertionSort (fun a b => compareSysStats a b = true)

/-! ## What happened -/

/-- The number of the call that is going on and the numbers of the calls completed. -/
def observe (o : Option ℤ × List ℤ) (stop : Stop) : Option ℤ × List ℤ :=
  match stop.kind with
  | .entry => (some stop.origRax,o.2)
  | .exit => (none,o.2 ++ o.1.toList)
  | .trap => o
  | .other => o

def pairs (stops : List Stop) : List ℤ := (stops.foldl observe (none,[])).2

/-- Entries and exits take turns; the flag tells whether an exit is next. -/
def alternates : Bool → List Stop → Bool
  | _, [] => true
  | inside, stop :: rest =>
    match stop.kind with
    | .entry => !inside && alternates true rest
    | .exit => inside && alternates false rest
    | .trap => alternates inside rest
    | .other => alternates inside rest

/-- A table that has every number of the list once, with how often it occurs. -/
structure Exact (table : List SysStat) (done : List ℤ) : Prop where
  once : (table.map SysStat.sysNum).Nodup
  complete : ∀ n ∈ done, ∃ st ∈ table, st.sysNum = n
  calls : ∀ st ∈ table, st.calls.toInt = done.count st.sysNum

/-! ## The table during the trace -/

/-- The table of the calls completed so far, with counters of their own width. -/
structure Tallies (table : List SysStat) (done : List ℤ) : Prop where
  once : (table.map SysStat.sysNum).Nodup
  mem : ∀ n, n ∈ table.map SysStat.sysNum ↔ n ∈ done
  calls : ∀ st ∈ table, st.calls = BitVec.ofNat 32 (done.count st.sysNum)

theorem chargeSeen_none {n d : ℤ} {table : List SysStat} (h : chargeSeen n d table = none) :
    n ∉ table.map SysStat.sysNum := by
  induction table with
  | nil => simp
  | cons st rest ih =>
    rw [chargeSeen] at h
    split at h
    · cases h
    · next hne =>
      rw [List.map_cons, List.mem_cons, not_or]
      exact ⟨fun heq => hne heq.symm,ih (Option.map_eq_none_iff.mp h)⟩

/-- Where numbers occur once, the first hit is the only one. -/
theorem chargeSeen_some {n d : ℤ} {table table' : List SysStat}
    (hnodup : (table.map SysStat.sysNum).Nodup) (h : chargeSeen n d table = some table') :
    n ∈ table.map SysStat.sysNum ∧
      table' = table.map (fun st => if st.sysNum = n then st.charge d else st) := by
  induction table generalizing table' with
  | nil => cases h
  | cons st rest ih =>
    rw [List.map_cons, List.nodup_cons] at hnodup
    rw [chargeSeen] at h
    split at h
    · next heq =>
      cases h
      refine ⟨by simp [heq],?_⟩
      have hrest : rest.map (fun st => if st.sysNum = n then st.charge d else st) = rest := by
        conv_rhs => rw [← List.map_id rest]
        apply List.map_congr_left
        intro other hother
        have hother' : other.sysNum ≠ n := by
          intro hn
          rw [heq, ← hn] at hnodup
          exact hnodup.1 (List.mem_map_of_mem hother)
        rw [if_neg hother', id]
      rw [List.map_cons, if_pos heq, hrest]
    · next hne =>
      obtain ⟨rest',hrest,rfl⟩ := Option.map_eq_some_iff.mp h
      obtain ⟨hmem,rfl⟩ := ih hnodup.2 hrest
      exact ⟨List.mem_cons_of_mem _ hmem,by rw [List.map_cons, if_neg hne]⟩

theorem Tallies.charge {table : List SysStat} {done : List ℤ} (h : Tallies table done) {n : ℤ}
    (hn : n ∈ done) (d : ℤ) :
    Tallies (table.map (fun st => if st.sysNum = n then st.charge d else st)) (done ++ [n]) := by
  have hkeys : (table.map (fun st => if st.sysNum = n then st.charge d else st)).map
      SysStat.sysNum = table.map SysStat.sysNum := by
    rw [List.map_map]
    apply List.map_congr_left
    intro st _
    dsimp only [Function.comp]
    split
    · rfl
    · rfl
  constructor
  · rw [hkeys]
    exact h.once
  · intro m
    rw [hkeys, h.mem, List.mem_append, List.mem_singleton]
    constructor
    · exact Or.inl
    · rintro (hm | rfl)
      · exact hm
      · exact hn
  · intro st hst
    obtain ⟨old,hold,rfl⟩ := List.mem_map.mp hst
    have hcalls := h.calls old hold
    by_cases heq : old.sysNum = n
    · rw [if_pos heq]
      show old.calls + 1 = BitVec.ofNat 32 ((done ++ [n]).count old.sysNum)
      rw [hcalls, heq, List.count_append, List.count_singleton_self, BitVec.ofNat_add]
      rfl
    · rw [if_neg heq, hcalls, List.count_append, List.count_singleton,
        if_neg (by simpa using Ne.symm heq), Nat.add_zero]

theorem Tallies.push {table : List SysStat} {done : List ℤ} (h : Tallies table done) {n : ℤ}
    (hn : n ∉ done) (d : ℤ) (k : ℕ) : Tallies (table ++ [⟨n,d,1,k⟩]) (done ++ [n]) := by
  have hnew : n ∉ table.map SysStat.sysNum := fun hmem => hn ((h.mem n).mp hmem)
  constructor
  · rw [List.map_append, List.map_singleton, List.nodup_append]
    refine ⟨h.once,List.nodup_singleton n,fun a ha b hb => ?_⟩
    rw [List.mem_singleton.mp hb]
    rintro rfl
    exact hnew ha
  · intro m
    rw [List.map_append, List.map_singleton, List.mem_append, List.mem_append, h.mem]
  · intro st hst
    rcases List.mem_append.mp hst with hold | hlast
    · have hne : st.sysNum ≠ n := by
        rintro rfl
        exact hnew (List.mem_map_of_mem hold)
      rw [h.calls st hold, List.count_append, List.count_singleton,
        if_neg (by simpa using Ne.symm hne), Nat.add_zero]
    · rw [List.mem_singleton.mp hlast]
      dsimp only
      rw [List.count_append, List.count_eq_zero_of_not_mem hn, List.count_singleton_self]
      rfl

/-- One more completed call, for which there is room when its number is new. -/
theorem Tallies.add {t : Tracer} {done : List ℤ} (h : Tallies t.sysStats done) (n d : ℤ)
    (hroom : n ∉ done → t.sysStats.length < maxSyscalls) :
    Tallies (addSyscallTime n d t).sysStats (done ++ [n]) := by
  unfold addSyscallTime
  cases hseen : chargeSeen n d t.sysStats with
  | some table =>
    obtain ⟨hmem,rfl⟩ := chargeSeen_some h.once hseen
    exact h.charge ((h.mem n).mp hmem) d
  | none =>
    have hn : n ∉ done := fun hmem => chargeSeen_none hseen ((h.mem n).mpr hmem)
    dsimp only
    rw [if_pos (hroom hn)]
    exact h.push hn d _

theorem Tallies.room {table : List SysStat} {done all : List ℤ} (h : Tallies table done) {n : ℤ}
    (hn : n ∉ done) (hsub : ∀ m ∈ done ++ [n], m ∈ all) (hall : all.dedup.length ≤ maxSyscalls) :
    table.length < maxSyscalls := by
  have hnew : n ∉ table.map SysStat.sysNum := fun hmem => hn ((h.mem n).mp hmem)
  have hnodup : (n :: table.map SysStat.sysNum).Nodup := List.nodup_cons.mpr ⟨hnew,h.once⟩
  have hsubset : n :: table.map SysStat.sysNum ⊆ all.dedup := by
    intro m hm
    rw [List.mem_dedup]
    apply hsub
    rcases List.mem_cons.mp hm with rfl | hm
    · simp
    · exact List.mem_append_left _ ((h.mem m).mp hm)
  have hle := (List.subperm_of_subset hnodup hsubset).length_le
  rw [List.length_cons, List.length_map] at hle
  omega

theorem Tallies.exact {table : List SysStat} {done : List ℤ} (h : Tallies table done)
    (hcalls : ∀ n, done.count n < 2 ^ 31) : Exact table done := by
  refine ⟨h.once,fun n hn => ?_,fun st hst => ?_⟩
  · exact List.mem_map.mp ((h.mem n).mpr hn)
  · have hlt := hcalls st.sysNum
    rw [h.calls st hst, BitVec.toInt_eq_toNat_of_lt, BitVec.toNat_ofNat, Nat.mod_eq_of_lt (by omega)]
    rw [BitVec.toNat_ofNat, Nat.mod_eq_of_lt (by omega)]
    omega

theorem Exact.perm {table table' : List SysStat} {done : List ℤ} (h : Exact table done)
    (hperm : table'.Perm table) : Exact table' done := by
  refine ⟨(hperm.map _).nodup_iff.mpr h.once,fun n hn => ?_,fun st hst => ?_⟩
  · obtain ⟨st,hst,hnum⟩ := h.complete n hn
    exact ⟨st,hperm.mem_iff.mpr hst,hnum⟩
  · exact h.calls st (hperm.mem_iff.mp hst)

/-! ## The run -/

/-- A stop that the tracer takes for what it is. -/
structure Stop.Clear (stop : Stop) : Prop where
  notTrap : stop.kind ≠ .trap
  readable : stop.kind.signal = .sysgood → stop.readable = true
  numbered : stop.kind = .entry → 0 ≤ stop.origRax

/-- The tracer knows the call that is going on and has counted those completed. -/
structure Follows (t : Tracer) (o : Option ℤ × List ℤ) : Prop where
  inSyscall : t.inSyscall = o.1.isSome
  current : ∀ n, o.1 = some n → t.currentSysNum = n ∧ 0 ≤ n
  tallies : Tallies t.sysStats o.2

theorem start_follows : Follows Tracer.start (none,[]) where
  inSyscall := rfl
  current n hn := by cases hn
  tallies := ⟨List.nodup_nil,fun n => Iff.rfl,fun st hst => by cases hst⟩

theorem onStop_entry {t : Tracer} {o : Option ℤ × List ℤ} (h : Follows t o) {stop : Stop}
    (hclear : stop.Clear) (hkind : stop.kind = .entry) (houtside : o.1.isSome = false) :
    Follows (onStop t stop) (observe o stop) := by
  have hsignal : stop.kind.signal = .sysgood := by rw [hkind]; rfl
  rw [onStop, if_pos (Or.inl hsignal), if_pos (hclear.readable hsignal),
    if_pos (h.inSyscall.trans houtside), observe, hkind]
  refine ⟨rfl,fun n hn => ?_,h.tallies⟩
  cases hn
  exact ⟨rfl,hclear.numbered hkind⟩

theorem onStop_exit {t : Tracer} {o : Option ℤ × List ℤ} (h : Follows t o) {stop : Stop}
    (hclear : stop.Clear) (hkind : stop.kind = .exit) (hinside : o.1.isSome = true) {all : List ℤ}
    (hsub : ∀ m ∈ (observe o stop).2, m ∈ all) (hall : all.dedup.length < maxSyscalls) :
    Follows (onStop t stop) (observe o stop) := by
  obtain ⟨n,hn⟩ := Option.isSome_iff_exists.mp hinside
  obtain ⟨hcurrent,hnonneg⟩ := h.current n hn
  have hsignal : stop.kind.signal = .sysgood := by rw [hkind]; rfl
  have hobserve : observe o stop = (none,o.2 ++ [n]) := by
    rw [observe, hkind, hn]
    rfl
  rw [hobserve] at hsub ⊢
  rw [onStop, if_pos (Or.inl hsignal), if_pos (hclear.readable hsignal),
    if_neg (by rw [h.inSyscall, hinside]; decide), hcurrent]
  dsimp only
  rw [if_pos hnonneg]
  constructor
  · rfl
  · intro m hm
    cases hm
  · exact h.tallies.add n _ (fun hnew => h.tallies.room hnew hsub hall.le)

theorem onStop_other {t : Tracer} {o : Option ℤ × List ℤ} (h : Follows t o) {stop : Stop}
    (hkind : stop.kind = .other) : Follows (onStop t stop) (observe o stop) := by
  rw [onStop, if_neg (by rw [hkind]; decide), observe, hkind]
  exact h

theorem observe_grows (o : Option ℤ × List ℤ) (stop : Stop) : o.2 <+: (observe o stop).2 := by
  unfold observe
  cases stop.kind with
  | entry => exact List.prefix_rfl
  | exit => exact List.prefix_append _ _
  | trap => exact List.prefix_rfl
  | other => exact List.prefix_rfl

theorem observes_grow (stops : List Stop) (o : Option ℤ × List ℤ) :
    o.2 <+: (stops.foldl observe o).2 := by
  induction stops generalizing o with
  | nil => exact List.prefix_rfl
  | cons stop stops ih => exact (observe_grows o stop).trans (ih _)

theorem trace_follows {stops : List Stop} {t : Tracer} {o : Option ℤ × List ℤ} (h : Follows t o)
    (hclear : ∀ stop ∈ stops, stop.Clear) (halternates : alternates o.1.isSome stops = true)
    (hall : (stops.foldl observe o).2.dedup.length < maxSyscalls) :
    Follows (stops.foldl onStop t) (stops.foldl observe o) := by
  induction stops generalizing t o with
  | nil => exact h
  | cons stop stops ih =>
    have hstop := hclear stop List.mem_cons_self
    have hnext : Follows (onStop t stop) (observe o stop) →
        alternates (observe o stop).1.isSome stops = true →
        Follows ((stop :: stops).foldl onStop t) ((stop :: stops).foldl observe o) :=
      fun hfollows halt =>
        ih hfollows (fun s hs => hclear s (List.mem_cons_of_mem _ hs)) halt hall
    rw [alternates] at halternates
    cases hkind : stop.kind with
    | entry =>
      simp only [hkind, Bool.and_eq_true, Bool.not_eq_true'] at halternates
      apply hnext (onStop_entry h hstop hkind halternates.1)
      rw [observe, hkind]
      exact halternates.2
    | exit =>
      simp only [hkind, Bool.and_eq_true] at halternates
      apply hnext
      · exact onStop_exit h hstop hkind halternates.1
          (fun m hm => (observes_grow stops (observe o stop)).subset hm) hall
      · rw [observe, hkind]
        exact halternates.2
    | trap => exact absurd hkind hstop.notTrap
    | other =>
      simp only [hkind] at halternates
      apply hnext (onStop_other h hkind)
      rw [observe, hkind]
      exact halternates

/-- When no stop is a plain trap and the registers can be read at every system call stop,
the table has every completed call once, with how often it was completed. -/
theorem snoop_counts {stops : List Stop} (halternates : alternates false stops = true)
    (hnumbers : (pairs stops).dedup.length < maxSyscalls)
    (hclear : ∀ stop ∈ stops, stop.Clear) (hcalls : ∀ n, (pairs stops).count n < 2 ^ 31) :
    Exact (snoop stops) (pairs stops) := by
  have hfollows := trace_follows start_follows hclear halternates hnumbers
  exact (hfollows.tallies.exact hcalls).perm (List.perm_insertionSort _ _)

/-- A read with a signal in its midst. -/
def readStops : List Stop :=
  [⟨.entry,true,0,10⟩,⟨.other,true,0,20⟩,⟨.exit,true,0,30⟩]

theorem snoop_counts_read : Exact (snoop readStops) (pairs readStops) := by
  apply snoop_counts (by decide) (by decide)
  · intro stop hstop
    simp only [readStops, List.mem_cons, List.not_mem_nil, or_false] at hstop
    rcases hstop with rfl | rfl | rfl
    · exact ⟨by decide,by decide,by decide⟩
    · exact ⟨by decide,by decide,by decide⟩
    · exact ⟨by decide,by decide,by decide⟩
  · intro n
    have hle : (pairs readStops).count n ≤ 1 := List.count_le_length
    omega

/-- The stops of an `execve`, with the trap that follows it, and of a read. -/
def execveStops : List Stop :=
  [⟨.entry,true,59,10⟩,⟨.exit,true,59,20⟩,⟨.trap,true,59,30⟩,⟨.entry,true,0,40⟩,⟨.exit,true,0,50⟩]

/-- The trap of an `execve` turns entries and exits around: two calls of `execve` and no
read are counted where there was one of each. -/
theorem snoop_counts_execve_twice :
    alternates false execveStops = true ∧ pairs execveStops = [59,0] ∧
      (snoop execveStops).map (fun st => (st.sysNum,st.calls.toInt)) = [(59,2)] := by
  decide

end CShellXv6.Snoop
