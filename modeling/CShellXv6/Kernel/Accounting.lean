import CShellXv6.Kernel.Conduct

/-! # Time accounting on one hart

The fields `rtime` and `wtime` should be the numbers of ticks that came while a
process was running and runnable. The timer interrupt from user mode advances
`ticks`, wakes those who wait for it, and then makes the entries; in between,
entries are owed. A timer interrupt of the kernel makes no entries at all.
-/
namespace CShellXv6.Kernel
open SpinLock Transition
variable {policy : Policy}

/-- The increments of `ticks` while a process ran and while it could have run. -/
structure Tally where
  run : ℕ
  wait : ℕ
  deriving DecidableEq

def noteTally (t : BitVec 32) (q : Proc) (t' : BitVec 32) (q' : Proc) (o : Tally) : Tally :=
  match q'.state with
  | .unused => ⟨0,0⟩
  | .used => ⟨0,0⟩
  | _ => if t' = t then o else
      ⟨o.run + if q.state = .running then 1 else 0,o.wait + if q.state = .runnable then 1 else 0⟩

/-- The accounts will be right when `ticks` advances here: a timer interrupt from user
mode finds its process not killed and `p` not asleep until the next tick, and one of
the kernel finds `p` not runnable. -/
def Due (p : Slot) (s : Data 1) : Prop :=
  ∀ h, (∀ r ∈ s.cpu h, (s.proc r).killed = false ∧
    ¬((s.proc p).state = .sleeping ∧ (s.proc p).chan = some .ticks)) ∧
  (s.cpu h = none → (s.proc p).state ≠ .runnable)

instance (p : Slot) (s : Data 1) : Decidable (Due p s) :=
  inferInstanceAs (Decidable (∀ _, _ ∧ _))

/-- A timer interrupt of the kernel only comes when no process runs, and `ticks` only
advances when it is due. -/
def Charged (policy : Policy) (p : Slot) (x : System 1 × Tally) (e : Event (Fin 1) Entry) : Prop :=
  (∀ h q, e = .trap h .kerneltrap → (x.1.data.proc q).state ≠ .running) ∧
    ∀ m' ∈ step (code 1 policy) x.1 e, m'.data.ticks ≠ x.1.data.ticks → Due p x.1.data

instance (policy : Policy) (p : Slot) (x : System 1 × Tally) (e : Event (Fin 1) Entry) :
    Decidable (Charged policy p x e) :=
  inferInstanceAs (Decidable (_ ∧ _))

/-! ## The accounts of one process -/

/-- The accounts of a process to which entries are owed. -/
def Balance (run wait : ℕ) (q : Proc) (o : Tally) : Phase → Prop
  | .unused => o = ⟨0,0⟩
  | .making _ .claimed => o = ⟨0,0⟩
  | .making _ .stamped => o = ⟨0,0⟩
  | .making _ .fresh => o = ⟨0,0⟩ ∧ q.rtime = 0 ∧ q.wtime = 0
  | _ => o = ⟨q.rtime + run,q.wtime + wait⟩

section Slot
variable {a : Agent (Fin 1) Slot} {t t' : BitVec 32} {p : Slot} {ph ph' : Phase} {q q' : Proc}
  {o : Tally} {run wait : ℕ}

theorem noteTally_made (h : q'.state = .unused ∨ q'.state = .used) :
    noteTally t q t' q' o = ⟨0,0⟩ := by
  rcases h with h | h
  · simp [noteTally,h]
  · simp [noteTally,h]

theorem noteTally_same (h : q'.state ≠ .unused ∧ q'.state ≠ .used) : noteTally t q t q' o = o := by
  unfold noteTally
  split
  · next hs => exact absurd hs h.1
  · next hs => exact absurd hs h.2
  · exact if_pos rfl

theorem Balance.touch (h : Balance run wait q o ph)
    (hq : q'.rtime = q.rtime ∧ q'.wtime = q.wtime) (hstate : q'.state = ph.state) :
    Balance run wait q' (noteTally t q t q' o) ph := by
  cases ph with
  | unused => exact noteTally_made (Or.inl hstate)
  | making maker stage =>
    have hnone : noteTally t q t q' o = ⟨0,0⟩ := noteTally_made (Or.inr hstate)
    cases stage with
    | claimed => exact hnone
    | stamped => exact hnone
    | fresh => exact ⟨hnone,hq.1.trans h.2.1,hq.2.trans h.2.2⟩
  | _ =>
    rw [noteTally_same (by simp [hstate,Phase.state])]
    show o = _
    rw [hq.1, hq.2]
    exact h

/-- An entry that was owed is made. -/
theorem Balance.pay {run' wait' : ℕ} (h : Balance run wait q o ph) (halive : ph.alive = true)
    (hrun : q'.rtime + run' = q.rtime + run) (hwait : q'.wtime + wait' = q.wtime + wait)
    (hstate : q'.state = ph.state) : Balance run' wait' q' (noteTally t q t q' o) ph := by
  have hmade := Phase.made halive
  rw [← hstate] at hmade
  rw [noteTally_same hmade]
  have hlive : o = ⟨q.rtime + run,q.wtime + wait⟩ → o = ⟨q'.rtime + run',q'.wtime + wait'⟩ := by
    intro ho
    rw [ho, hrun, hwait]
  cases ph with
  | unused => cases halive
  | making => cases halive
  | zombie => cases halive
  | _ => exact hlive h

/-- A step in the life of a process to which nothing is owed. -/
theorem Balance.deed (hd : Deed policy a t p ph q ph' q') (hstate : q'.state = ph'.state)
    (h : Balance 0 0 q o ph) : Balance 0 0 q' (noteTally t q t q' o) ph' := by
  have hkeep : ∀ {r : Proc}, r.Mild q' → r.rtime = q.rtime → r.wtime = q.wtime →
      ph'.alive = true → o = ⟨q.rtime,q.wtime⟩ →
      noteTally t q t q' o = ⟨q'.rtime + 0,q'.wtime + 0⟩ := by
    intro r hm hrun hwait halive ho
    obtain ⟨_,hr,hw,_⟩ := hm.counters
    rw [noteTally_same (hstate ▸ Phase.made halive), ho, hr, hw, hrun, hwait, Nat.add_zero,
      Nat.add_zero]
  cases hd with
  | touch hm => exact h.touch ⟨hm.counters.2.1,hm.counters.2.2.1⟩ hstate
  | rouse hm => exact hkeep hm rfl rfl rfl h
  | yield hm => exact hkeep hm rfl rfl rfl h
  | sleep hm => exact hkeep hm rfl rfl rfl h
  | leave hm => exact hkeep hm rfl rfl rfl h
  | claim => exact noteTally_made (Or.inr hstate)
  | stamp => exact noteTally_made (Or.inr hstate)
  | reset hm =>
    obtain ⟨_,hr,hw,_⟩ := hm.counters
    exact ⟨noteTally_made (Or.inr hstate),hr,hw⟩
  | publish hm =>
    obtain ⟨ho,hr,hw⟩ := h
    exact hkeep hm rfl rfl rfl (by rw [ho, hr, hw])
  | discard => exact noteTally_made (Or.inl hstate)
  | reap => exact noteTally_made (Or.inl hstate)
  | choose hm _ _ hrunnable =>
    rcases Phase.eq_runnable hrunnable with rfl | rfl
    · exact hkeep hm rfl rfl rfl h
    · exact hkeep hm rfl rfl rfl h
  | start hm _ hph =>
    rcases hph with rfl | ⟨rfl,_⟩
    · exact hkeep hm rfl rfl rfl h
    · exact hkeep hm rfl rfl rfl h

/-- The clock advances. -/
theorem Balance.tick (hstate : q.state = ph.state) (h : Balance 0 0 q o ph) :
    Balance (if q.state = .running then 1 else 0) (if q.state = .runnable then 1 else 0) q
      (noteTally t q (t + 1) q o) ph := by
  have hne : t + 1 ≠ t := fun h => by
    have h' := congrArg BitVec.toNat h
    bv_omega
  have hlive : q.state ≠ .unused ∧ q.state ≠ .used → noteTally t q (t + 1) q o =
      ⟨o.run + if q.state = .running then 1 else 0,
        o.wait + if q.state = .runnable then 1 else 0⟩ := by
    intro hmade
    unfold noteTally
    split
    · next hs => exact absurd hs hmade.1
    · next hs => exact absurd hs hmade.2
    · exact if_neg hne
  cases ph with
  | unused => exact noteTally_made (Or.inl hstate)
  | making maker stage =>
    have hnone : noteTally t q (t + 1) q o = ⟨0,0⟩ := noteTally_made (Or.inr hstate)
    cases stage with
    | claimed => exact hnone
    | stamped => exact hnone
    | fresh => exact ⟨hnone,h.2⟩
  | _ =>
    obtain rfl : o = _ := h
    exact hlive (by simp [hstate,Phase.state])

end Slot

/-! ## What is owed -/

/-- There are entries to make. -/
def Duty.pending : Duty → Bool
  | .ticked => true
  | .counting (_ :: _) => true
  | _ => false

/-- A runnable process is still to be counted. -/
def Duty.owes : Duty → Slot → Bool
  | .ticked, _ => true
  | .counting rest, x => rest.contains x
  | _, _ => false

theorem Duty.pending_of_owes {dt : Duty} {x : Slot} (h : dt.owes x = true) : dt.pending = true := by
  cases dt with
  | ticked => rfl
  | counting rest =>
    cases rest with
    | nil => cases h
    | cons => rfl
  | _ => cases h

theorem Duty.pending_of_free {dt : Duty} (h : dt.free = true) : dt.pending = false := by
  cases dt with
  | counting rest =>
    cases rest with
    | nil => rfl
    | cons => cases h
  | off => rfl
  | _ => cases h

def owedRun (w : World 1) (p : Slot) : ℕ := if w.2.duty p = .ticked then 1 else 0

def owedWait (w : World 1) (p : Slot) : ℕ :=
  if (w.1.proc p).state = .runnable ∧ (List.finRange nproc).any (fun r => (w.2.duty r).owes p)
    then 1 else 0

/-- The process of the hart has entries to make. -/
structure Pending (p r : Slot) (w : World 1) : Prop where
  seat : w.2.seat 0 = some r
  running : w.2.phase r = .running
  spared : (w.1.proc r).killed = false
  distinct : ∀ rest, w.2.duty r = .counting rest → rest.Nodup
  awake : w.2.duty r = .ticked →
    ¬((w.1.proc p).state = .sleeping ∧ (w.1.proc p).chan = some .ticks)

/-- The accounts of `p`, with all entries that are owed. -/
structure Books (p : Slot) (w : World 1) (o : Tally) : Prop where
  trapped : ∀ r, w.2.trapped r = false
  busy : ∀ r, (w.2.duty r).pending = true → Pending p r w
  balance : Balance (owedRun w p) (owedWait w p) (w.1.proc p) o (w.2.phase p)

section Moves
variable {a : Agent (Fin 1) Slot} {held : List Lock} {w w' : World 1} {e : Event (Fin 1) Entry}
  {p r r' : Slot} {o o' : Tally}

/-- Only the process with entries to make can act. -/
theorem Books.mover (hB : Books p w o) (hr : (w.2.duty r).pending = true) (ha : Active a w) :
    a.thread = some r ∧ a.nested = false := by
  have hthread : a.thread = some r := by
    rw [← ha.1, Subsingleton.elim a.processor 0, (hB.busy r hr).seat]
  refine ⟨hthread,?_⟩
  cases hn : a.nested with
  | false => rfl
  | true =>
    have htrap := ha.2 r hthread hn
    rw [hB.trapped r] at htrap
    cases htrap

theorem Books.only (hB : Books p w o) (hr : (w.2.duty r).pending = true) (hne : r' ≠ r) :
    (w.2.duty r').pending = false := by
  cases hr' : (w.2.duty r').pending with
  | false => rfl
  | true =>
    have hseat := (hB.busy r' hr').seat
    rw [(hB.busy r hr).seat] at hseat
    exact absurd (Option.some.inj hseat).symm hne

/-- An agent other than that process finds no entries to make. -/
theorem Books.idle_of (hB : Books p w o) (ha : Active a w)
    (h : ∀ r, a.thread = some r → a.nested = false → (w.2.duty r).pending = false) (r : Slot) :
    (w.2.duty r).pending = false := by
  cases hr : (w.2.duty r).pending with
  | false => rfl
  | true =>
    obtain ⟨hthread,hn⟩ := hB.mover hr ha
    rw [h r hthread hn] at hr
    cases hr

theorem Books.idle (hB : Books p w o) (ha : Active a w) (hable : Able a w) (r : Slot) :
    (w.2.duty r).pending = false := by
  refine hB.idle_of ha (fun r hthread hn => ?_) r
  rcases hable r hthread hn with hfree | hkilled
  · exact Duty.pending_of_free hfree
  · cases hr : (w.2.duty r).pending with
    | false => rfl
    | true =>
      rw [(hB.busy r hr).spared] at hkilled
      cases hkilled

theorem owedWait_only (h : ∀ r', r' ≠ r → (w.2.duty r').pending = false) : owedWait w p =
    if (w.1.proc p).state = .runnable ∧ (w.2.duty r).owes p = true then 1 else 0 := by
  have hany : (List.finRange nproc).any (fun r => (w.2.duty r).owes p) = true ↔
      (w.2.duty r).owes p = true := by
    rw [List.any_eq_true]
    constructor
    · rintro ⟨r',_,howes⟩
      by_cases hr : r' = r
      · exact hr ▸ howes
      · have hnone := h r' hr
        rw [Duty.pending_of_owes howes] at hnone
        cases hnone
    · exact fun howes => ⟨r,List.mem_finRange r,howes⟩
  unfold owedWait
  exact if_congr (and_congr_right fun _ => hany) rfl rfl

theorem owedRun_idle (h : (w.2.duty p).pending = false) : owedRun w p = 0 := by
  refine if_neg (fun ht => ?_)
  rw [ht] at h
  cases h

theorem owedWait_idle (h : ∀ r, (w.2.duty r).pending = false) : owedWait w p = 0 := by
  rw [owedWait_only (r := p) (fun r' _ => h r')]
  refine if_neg (fun ⟨_,howes⟩ => ?_)
  have hnone := h p
  rw [Duty.pending_of_owes howes] at hnone
  cases hnone

theorem Books.exact (hB : Books p w o) (h : ∀ r, (w.2.duty r).pending = false) :
    Balance 0 0 (w.1.proc p) o (w.2.phase p) := by
  have hbal := hB.balance
  rwa [owedRun_idle (h p), owedWait_idle h] at hbal

theorem Books.of_idle (htrapped : ∀ r, w'.2.trapped r = false)
    (h : ∀ r, (w'.2.duty r).pending = false)
    (hbal : Balance 0 0 (w'.1.proc p) o' (w'.2.phase p)) : Books p w' o' := by
  refine ⟨htrapped,fun r hr => ?_,?_⟩
  · rw [h r] at hr
    cases hr
  · rwa [owedRun_idle (h p), owedWait_idle h]

/-- The books after a move that leaves the process and what it is owed alone. -/
theorem Books.untouched (hB : Books p w o) (hi : Inv w) (htrapped : w'.2.trapped = w.2.trapped)
    (hbusy : ∀ r, (w'.2.duty r).pending = true → Pending p r w')
    (hq : w'.1.proc p = w.1.proc p) (hph : w'.2.phase p = w.2.phase p)
    (hticks : w'.1.ticks = w.1.ticks) (hrun : owedRun w' p = owedRun w p)
    (hwait : owedWait w' p = owedWait w p) : Books p w' (follow p noteTally w.1 e w'.1 o) := by
  refine ⟨fun r => by rw [htrapped, hB.trapped r],hbusy,?_⟩
  unfold follow
  rw [hrun, hwait, hph, hticks, hq]
  exact hB.balance.touch ⟨rfl,rfl⟩ (hi.state p)

theorem Pending.of_eq (h : Pending p r w) (hseat : w'.2.seat = w.2.seat)
    (hphase : w'.2.phase r = w.2.phase r) (hduty : w'.2.duty r = w.2.duty r)
    (hkilled : (w'.1.proc r).killed = (w.1.proc r).killed)
    (hawake : (w'.1.proc p).state = (w.1.proc p).state ∧
      (w'.1.proc p).chan = (w.1.proc p).chan ∨ (w'.1.proc p).chan ≠ some .ticks) :
    Pending p r w' := by
  refine ⟨by rw [hseat, h.seat],by rw [hphase, h.running],by rw [hkilled, h.spared],
    fun rest hr => h.distinct rest (hduty ▸ hr),fun hr hsleep => ?_⟩
  rcases hawake with ⟨hstate,hchan⟩ | hchan
  · exact h.awake (hduty ▸ hr) ⟨hstate ▸ hsleep.1,hchan ▸ hsleep.2⟩
  · exact hchan hsleep.2

/-- A step in the life of some process, while nothing is owed. -/
theorem Books.deed {x : Slot} {f : Proc → Proc} {ph : Phase} {g : Ghost 1} (hB : Books p w o)
    (hi : Inv w) (hidle : ∀ r, (w.2.duty r).pending = false)
    (hd : Deed policy a w.1.ticks x (w.2.phase x) (w.1.proc x) ph (f (w.1.proc x)))
    (hstate : (f (w.1.proc x)).state = ph.state) (hph : g.phase = (w.2.setPhase x ph).phase)
    (hduty : g.duty = w.2.duty) (htrapped : g.trapped = w.2.trapped) :
    Books p (w.1.modify x f,g) (follow p noteTally w.1 e (w.1.modify x f) o) := by
  refine Books.of_idle (fun r => by rw [htrapped, hB.trapped r]) (fun r => by rw [hduty, hidle r]) ?_
  unfold follow
  have hexact := hB.exact hidle
  by_cases hpx : p = x
  · subst hpx
    rw [hph, Ghost.setPhase_self, Data.modify_self]
    exact hexact.deed hd hstate
  · rw [hph, Ghost.setPhase_ne _ _ hpx, Data.modify_ne _ _ hpx]
    exact hexact.touch ⟨rfl,rfl⟩ (hi.state p)

theorem Proc.wake_killed (q : Proc) (chan : Option Chan) : (q.wake chan).killed = q.killed := by
  unfold Proc.wake
  split
  · rfl
  · rfl

theorem Proc.wake_chan (q : Proc) : (q.wake (some .ticks)).chan ≠ some .ticks := by
  unfold Proc.wake
  split
  · simp
  · assumption

theorem Data.wakeTicks_chan (s : Data 1) (x p : Slot) :
    ((s.modify x (Proc.wake (some .ticks))).proc p).state = (s.proc p).state ∧
        ((s.modify x (Proc.wake (some .ticks))).proc p).chan = (s.proc p).chan ∨
      ((s.modify x (Proc.wake (some .ticks))).proc p).chan ≠ some .ticks := by
  by_cases hpx : p = x
  · subst hpx
    rw [Data.modify_self]
    exact Or.inr (Proc.wake_chan _)
  · rw [Data.modify_ne _ _ hpx]
    exact Or.inl ⟨rfl,rfl⟩

theorem eq_of_pending {g : Ghost 1} (honly : ∀ r', r' ≠ r → (g.duty r').pending = false)
    {r' : Slot} (h : (g.duty r').pending = true) : r' = r := by
  by_contra hne
  rw [honly r' hne] at h
  cases h

/-- A wakeup of the timer leaves `p` and the process of the hart in their phases. -/
theorem Books.wakePending {x : Slot} {ph : Phase} (hB : Books p w o) (hi : Inv w)
    (hr : (w.2.duty r).pending = true) (hsame : x = p ∨ x = r → ph = w.2.phase x)
    (hstate : ((w.1.proc x).wake (some .ticks)).state = ph.state) :
    Books p (w.1.modify x (Proc.wake (some .ticks)),w.2.setPhase x ph)
      (follow p noteTally w.1 e (w.1.modify x (Proc.wake (some .ticks))) o) := by
  have hmild := (w.1.proc x).wake_mild (some .ticks)
  have hphase : ∀ y, y = p ∨ y = r → (w.2.setPhase x ph).phase y = w.2.phase y := by
    intro y hy
    by_cases hyx : y = x
    · subst hyx
      rw [Ghost.setPhase_self, hsame hy]
    · rw [Ghost.setPhase_ne _ _ hyx]
  have hstate' : ((w.1.modify x (Proc.wake (some .ticks))).proc p).state =
      (w.1.proc p).state := by
    by_cases hpx : p = x
    · subst hpx
      rw [Data.modify_self, hstate, hsame (Or.inl rfl), hi.state p]
    · rw [Data.modify_ne _ _ hpx]
  refine ⟨hB.trapped,fun r' hr' => ?_,?_⟩
  · rw [eq_of_pending (fun _ hne => hB.only hr hne) hr']
    exact (hB.busy r hr).of_eq rfl (hphase r (Or.inr rfl)) rfl
      (w.1.modify_field Proc.killed x r (Proc.wake_killed _ _)) (w.1.wakeTicks_chan x p)
  · have hwait : owedWait (w.1.modify x (Proc.wake (some .ticks)),w.2.setPhase x ph) p =
        owedWait w p := by
      unfold owedWait
      rw [hstate']
      rfl
    unfold follow
    rw [hwait, hphase p (Or.inl rfl)]
    exact hB.balance.touch ⟨w.1.modify_field Proc.rtime x p hmild.counters.2.1,
      w.1.modify_field Proc.wtime x p hmild.counters.2.2.1⟩ (hstate'.trans (hi.state p))

/-- The wakeups of a tick. Those of the timer leave `p` as it is, since it does not
sleep until the tick. -/
theorem Books.wakeTicks {x : Slot} {ph : Phase} (hB : Books p w o) (hi : Inv w) (ha : Active a w)
    (hticked : ∀ r, a.thread = some r → a.nested = false → w.2.duty r = .ticked)
    (hph : ph = w.2.phase x ∨ (w.1.proc x).chan = some .ticks ∧ w.2.phase x = .sleeping ∧
      ph = .runnable) (hstate : ((w.1.proc x).wake (some .ticks)).state = ph.state) :
    Books p (w.1.modify x (Proc.wake (some .ticks)),w.2.setPhase x ph)
      (follow p noteTally w.1 e (w.1.modify x (Proc.wake (some .ticks))) o) := by
  by_cases hpend : ∃ r, (w.2.duty r).pending = true
  · obtain ⟨r,hr⟩ := hpend
    have hP := hB.busy r hr
    obtain ⟨hthread,hn⟩ := hB.mover hr ha
    have hawake := hP.awake (hticked r hthread hn)
    refine hB.wakePending hi hr (fun hx => ?_) hstate
    rcases hph with heq | ⟨hchan,hsleep,_⟩
    · exact heq
    · rcases hx with rfl | rfl
      · exact absurd ⟨(hi.state x).trans (by rw [hsleep]; rfl),hchan⟩ hawake
      · rw [hP.running] at hsleep
        cases hsleep
  · have hidle : ∀ r, (w.2.duty r).pending = false := fun r =>
      Bool.eq_false_iff.mpr (fun hr => hpend ⟨r,hr⟩)
    have hmild := (w.1.proc x).wake_mild (some .ticks)
    have hd : Deed .fifo a w.1.ticks x (w.2.phase x) (w.1.proc x) ph
        ((w.1.proc x).wake (some .ticks)) := by
      rcases hph with rfl | ⟨_,hsleep,rfl⟩
      · exact .touch hmild
      · rw [hsleep]
        exact .rouse hmild
    exact hB.deed hi hidle hd hstate rfl rfl rfl

/-- Some entries are made by the process of the hart. -/
theorem Books.enter {x : Slot} {f : Proc → Proc} {dt : Duty} (hB : Books p w o)
    (hr : (w.2.duty r).pending = true) (hstate : ∀ q, (f q).state = q.state)
    (hkilled : ∀ q, (f q).killed = q.killed) (hticked : dt ≠ .ticked)
    (hdistinct : ∀ rest, dt = .counting rest → rest.Nodup)
    (hbal : Balance (owedRun (w.1.modify x f,w.2.setDuty r dt) p)
      (if (w.1.proc p).state = .runnable ∧ dt.owes p = true then 1 else 0)
      ((w.1.modify x f).proc p) o' (w.2.phase p)) :
    Books p (w.1.modify x f,w.2.setDuty r dt) o' := by
  have hP := hB.busy r hr
  have honly : ∀ r', r' ≠ r → ((w.2.setDuty r dt).duty r').pending = false := by
    intro r' hne
    rw [Ghost.setDuty_ne _ _ hne]
    exact hB.only hr hne
  refine ⟨hB.trapped,fun r' hr' => ?_,?_⟩
  · have hrr := eq_of_pending honly hr'
    subst hrr
    refine ⟨hP.seat,hP.running,?_,fun rest hrest => ?_,fun ht => ?_⟩
    · rw [w.1.modify_field Proc.killed x r' (hkilled _)]
      exact hP.spared
    · rw [Ghost.setDuty_self] at hrest
      exact hdistinct rest hrest
    · rw [Ghost.setDuty_self] at ht
      exact absurd ht hticked
  · have hwait : owedWait (w.1.modify x f,w.2.setDuty r dt) p =
        if (w.1.proc p).state = .runnable ∧ dt.owes p = true then 1 else 0 := by
      rw [owedWait_only honly, w.1.modify_field Proc.state x p (hstate _), Ghost.setDuty_self]
    rw [hwait]
    exact hbal

/-- The entry for the process that runs. -/
theorem Books.countRun (hB : Books p w o) (hi : Inv w) (hticked : w.2.duty r = .ticked) :
    Books p (w.1.modify r (fun q => { q with rtime := q.rtime + 1 }),
        w.2.setDuty r (.counting (others r (List.finRange nproc))))
      (follow p noteTally w.1 e (w.1.modify r fun q => { q with rtime := q.rtime + 1 }) o) := by
  have hr : (w.2.duty r).pending = true := by rw [hticked]; rfl
  have hP := hB.busy r hr
  refine hB.enter hr (fun _ => rfl) (fun _ => rfl) (fun h => by cases h) (fun rest hrest => ?_) ?_
  · cases hrest
    exact (List.nodup_finRange nproc).filter _
  have hwait := owedWait_only (p := p) (fun _ hne => hB.only hr hne)
  have hbal := hB.balance
  rw [hwait, hticked] at hbal
  by_cases hpr : p = r
  · subst hpr
    have hrun : owedRun w p = 1 := if_pos hticked
    have hrun' : owedRun (w.1.modify p (fun q => { q with rtime := q.rtime + 1 }),
        w.2.setDuty p (.counting (others p (List.finRange nproc)))) p = 0 := by
      refine if_neg (fun ht => ?_)
      rw [Ghost.setDuty_self] at ht
      cases ht
    have hrunning : (w.1.proc p).state = .running := by rw [hi.state p, hP.running]; rfl
    rw [hrun] at hbal
    unfold follow
    rw [hrun', Data.modify_self]
    refine hbal.pay (by rw [hP.running]; rfl) rfl ?_ (hi.state p)
    simp [hrunning]
  · have hrun : owedRun (w.1.modify r (fun q => { q with rtime := q.rtime + 1 }),
        w.2.setDuty r (.counting (others r (List.finRange nproc)))) p = owedRun w p := by
      unfold owedRun
      rw [Ghost.setDuty_ne _ _ hpr]
    have hmem : p ∈ others r (List.finRange nproc) :=
      List.mem_filter.mpr ⟨List.mem_finRange p,by simpa using hpr⟩
    have howes : (Duty.counting (others r (List.finRange nproc))).owes p = Duty.ticked.owes p := by
      simpa [Duty.owes] using hmem
    rw [hrun, howes]
    unfold follow
    rw [Data.modify_ne _ _ hpr]
    exact hbal.touch ⟨rfl,rfl⟩ (hi.state p)

/-- The entry for one of the others. -/
theorem Books.countWait {x : Slot} {rest : List Slot} (hB : Books p w o) (hi : Inv w)
    (hduty : w.2.duty r = .counting (x :: rest)) :
    Books p (w.1.modify x (fun q =>
          { q with wtime := if q.state = .runnable then q.wtime + 1 else q.wtime }),
        w.2.setDuty r (.counting rest))
      (follow p noteTally w.1 e (w.1.modify x fun q =>
        { q with wtime := if q.state = .runnable then q.wtime + 1 else q.wtime }) o) := by
  have hr : (w.2.duty r).pending = true := by rw [hduty]; rfl
  have hP := hB.busy r hr
  have hnodup := List.nodup_cons.mp (hP.distinct _ hduty)
  refine hB.enter hr (fun _ => rfl) (fun _ => rfl) (fun h => by cases h) (fun l hl => ?_) ?_
  · cases hl
    exact hnodup.2
  have hwait := owedWait_only (p := p) (fun _ hne => hB.only hr hne)
  have hbal := hB.balance
  rw [hwait, hduty] at hbal
  have hrun : owedRun (w.1.modify x (fun q =>
        { q with wtime := if q.state = .runnable then q.wtime + 1 else q.wtime }),
      w.2.setDuty r (.counting rest)) p = owedRun w p := by
    unfold owedRun
    by_cases hpr : p = r
    · subst hpr
      rw [Ghost.setDuty_self, hduty, if_neg (fun h => by cases h), if_neg (fun h => by cases h)]
    · rw [Ghost.setDuty_ne _ _ hpr]
  rw [hrun]
  unfold follow
  by_cases hpx : p = x
  · subst hpx
    rw [Data.modify_self]
    by_cases hrunnable : (w.1.proc p).state = .runnable
    · have halive : (w.2.phase p).alive = true := by
        rcases Phase.eq_runnable ((hi.state p).symm.trans hrunnable) with h | h
        · rw [h]
          rfl
        · rw [h]
          rfl
      refine hbal.pay halive rfl ?_ (hi.state p)
      simp [hrunnable,Duty.owes,hnodup.1]
    · rw [if_neg (fun h => hrunnable h.1)] at hbal ⊢
      exact hbal.touch ⟨rfl,if_neg hrunnable⟩ (hi.state p)
  · have howes : (Duty.counting (x :: rest)).owes p = (Duty.counting rest).owes p := by
      simp [Duty.owes,hpx]
    rw [howes] at hbal
    rw [Data.modify_ne _ _ hpx]
    exact hbal.touch ⟨rfl,rfl⟩ (hi.state p)

/-- The last step of a process. -/
theorem Books.die {f : Proc → Proc} (hB : Books p w o) (hi : Inv w) (ha : Active a w)
    (hthread : a.thread = some r) (hleaving : w.2.phase r = .leaving)
    (hmild : (w.1.proc r).Mild (f (w.1.proc r))) (hstate : (f (w.1.proc r)).state = .zombie) :
    Books p (w.1.modify r f,((w.2.setPhase r .zombie).setSeat a.processor none).setDuty r .off)
      (follow p noteTally w.1 e (w.1.modify r f) o) := by
  have hidle := hB.idle_of ha (fun r' hthread' _ => by
    cases hr : (w.2.duty r').pending with
    | false => rfl
    | true =>
      have hrunning := (hB.busy r' hr).running
      rw [← Option.some.inj (hthread.symm.trans hthread'), hleaving] at hrunning
      cases hrunning)
  refine Books.of_idle hB.trapped (fun r' => ?_) ?_
  · by_cases hr : r' = r
    · subst hr
      rw [Ghost.setDuty_self]
      rfl
    · rw [Ghost.setDuty_ne _ _ hr]
      exact hidle r'
  · have hexact := hB.exact hidle
    unfold follow
    rw [Ghost.setDuty_phase, Ghost.setSeat_phase]
    by_cases hpr : p = r
    · subst hpr
      rw [hleaving] at hexact
      have hlast : Balance 0 0 (w.1.proc p) o .zombie := hexact
      rw [Ghost.setPhase_self, Data.modify_self]
      exact hlast.touch ⟨hmild.counters.2.1,hmild.counters.2.2.1⟩ hstate
    · rw [Ghost.setPhase_ne _ _ hpr, Data.modify_ne _ _ hpr]
      exact hexact.touch ⟨rfl,rfl⟩ (hi.state p)

/-- On one hart, the process that runs is the one of the hart. -/
theorem Active.running (ha : Active a w) (hi : Inv w) :
    (w.1.proc p).state = .running ↔ a.thread = some p ∧ (w.2.phase p).seated = true := by
  rw [hi.state p, ← Phase.seated_iff]
  constructor
  · intro hp
    obtain ⟨h,hseat⟩ := hi.placed p hp
    refine ⟨?_,hp⟩
    rw [← ha.1, Subsingleton.elim a.processor h, hseat]
  · exact fun h => h.2

/-- A timer interrupt of the kernel advances the clock. -/
theorem Books.tick (hB : Books p w o) (hi : Inv w) (ha : Active a w) (hn : a.nested = true)
    (hcpu : w.1.cpu a.processor = a.thread) (hdue : Due p w.1) :
    Books p ({ w.1 with ticks := w.1.ticks + 1 },w.2)
      (follow p noteTally w.1 e { w.1 with ticks := w.1.ticks + 1 } o) := by
  have hthread : a.thread = none := by
    cases hr : a.thread with
    | none => rfl
    | some r =>
      have htrap := ha.2 r hr hn
      rw [hB.trapped r] at htrap
      cases htrap
  have hidle := hB.idle_of ha (fun r hr _ => by rw [hthread] at hr; cases hr)
  rw [hthread] at hcpu
  have hrunning : (w.1.proc p).state ≠ .running := by
    intro hp
    have hseat := ((ha.running hi).mp hp).1
    rw [hthread] at hseat
    cases hseat
  have htick := (hB.exact hidle).tick (t := w.1.ticks) (hi.state p)
  rw [if_neg hrunning, if_neg ((hdue _).2 hcpu)] at htick
  exact Books.of_idle hB.trapped hidle htick

/-- A timer interrupt from user mode advances the clock, and all entries become owed. -/
theorem Books.tickTimer (hB : Books p w o) (hi : Inv w) (ha : Active a w)
    (hthread : a.thread = some r) (hcpu : w.1.cpu a.processor = a.thread)
    (hph : w.2.phase r = .running) (hduty : w.2.duty r = .entered) (hdue : Due p w.1) :
    Books p ({ w.1 with ticks := w.1.ticks + 1 },w.2.setDuty r .ticked)
      (follow p noteTally w.1 e { w.1 with ticks := w.1.ticks + 1 } o) := by
  have hidle := hB.idle_of ha (fun r' hr' _ => by
    rw [← Option.some.inj (hthread.symm.trans hr'), hduty]
    rfl)
  have honly : ∀ r', r' ≠ r → ((w.2.setDuty r .ticked).duty r').pending = false := by
    intro r' hne
    rw [Ghost.setDuty_ne _ _ hne]
    exact hidle r'
  rw [hthread] at hcpu
  obtain ⟨hspared,hawake⟩ := (hdue _).1 r hcpu
  refine ⟨hB.trapped,fun r' hr' => ?_,?_⟩
  · have hrr := eq_of_pending honly hr'
    subst hrr
    refine ⟨?_,hph,hspared,fun rest hrest => ?_,fun _ => hawake⟩
    · rw [Ghost.setDuty_seat, ← hthread, ← ha.1, Subsingleton.elim a.processor 0]
    · rw [Ghost.setDuty_self] at hrest
      cases hrest
  · have hrun : owedRun ({ w.1 with ticks := w.1.ticks + 1 },w.2.setDuty r .ticked) p =
        if (w.1.proc p).state = .running then 1 else 0 := by
      refine if_congr ?_ rfl rfl
      rw [ha.running hi, hthread]
      by_cases hpr : p = r
      · subst hpr
        simp [hph,Phase.seated]
      · have hne : w.2.duty p ≠ .ticked := fun ht => by
          have hnone := hidle p
          rw [ht] at hnone
          cases hnone
        rw [Ghost.setDuty_ne _ _ hpr]
        simp [hne,Ne.symm hpr]
    have hwait : owedWait ({ w.1 with ticks := w.1.ticks + 1 },w.2.setDuty r .ticked) p =
        if (w.1.proc p).state = .runnable then 1 else 0 := by
      rw [owedWait_only honly, Ghost.setDuty_self]
      refine if_congr (and_iff_left rfl) rfl rfl
    rw [hrun, hwait]
    exact (hB.exact hidle).tick (hi.state p)

/-- A step of the hart keeps the books. -/
theorem Books.step (hB : Books p w o) (hi : Inv w) (hs : (life 1 policy).Stepped e w w')
    (hkernel : ∀ h q, e = .trap h .kerneltrap → (w.1.proc q).state ≠ .running)
    (hdue : w'.1.ticks ≠ w.1.ticks → Due p w.1) :
    Books p w' (follow p noteTally w.1 e w'.1 o) := by
  have hne : w.1.ticks + 1 ≠ w.1.ticks := fun h => by
    have h' := congrArg BitVec.toNat h
    bv_omega
  rcases stepped_cases hs with ⟨_,rfl⟩ | ⟨a,tr,held,hm,htr⟩
  · exact hB.untouched hi rfl hB.busy rfl rfl rfl rfl rfl
  · have henter : ∀ {r dt}, Active a w → a.thread = some r → a.nested = false →
        (w.2.duty r).free = true → dt.pending = false →
        Books p (w.1,w.2.setDuty r dt) (follow p noteTally w.1 e w.1 o) := by
      intro r dt ha hthread hn hfree hdt
      have hidle := hB.idle_of ha (fun r' hr' _ => by
        rw [← Option.some.inj (hthread.symm.trans hr')]
        exact Duty.pending_of_free hfree)
      refine Books.of_idle hB.trapped (fun r' => ?_) ?_
      · by_cases hr : r' = r
        · subst hr
          rw [Ghost.setDuty_self]
          exact hdt
        · rw [Ghost.setDuty_ne _ _ hr]
          exact hidle r'
      · exact (hB.exact hidle).touch ⟨rfl,rfl⟩ (hi.state p)
    have hbusy : ∀ {w' : World 1}, w'.1.proc = w.1.proc → w'.2.phase = w.2.phase →
        w'.2.seat = w.2.seat → w'.2.duty = w.2.duty →
        ∀ r, (w'.2.duty r).pending = true → Pending p r w' := by
      intro w' hproc hphase hseat hduty r hr
      rw [hduty] at hr
      exact (hB.busy r hr).of_eq hseat (by rw [hphase]) (by rw [hduty]) (by rw [hproc])
        (Or.inl ⟨by rw [hproc],by rw [hproc]⟩)
    cases hm with
    | deed x f ph ha hable hd hstate =>
      exact hB.deed hi (hB.idle ha hable) hd hstate rfl rfl rfl
    | die r f ha hthread _ hph hmild hstate => exact hB.die hi ha hthread hph hmild hstate
    | wakeTicks x ph ha _ hticked hph hstate => exact hB.wakeTicks hi ha hticked hph hstate
    | countRun r ha _ _ _ hduty =>
      rcases hduty with hticked | ⟨_,hlt⟩
      · exact hB.countRun hi hticked
      · exact absurd hlt (Nat.lt_irrefl 1)
    | countWait r x rest _ _ _ hduty => exact hB.countWait hi hduty
    | tick ha hn hcpu => exact hB.tick hi ha hn hcpu (hdue hne)
    | tickTimer r ha hthread _ hcpu hph hduty =>
      exact hB.tickTimer hi ha hthread hcpu hph hduty (hdue hne)
    | share pid boost => exact hB.untouched hi rfl (hbusy rfl rfl rfl rfl) rfl rfl rfl rfl rfl
    | setCpu c => exact hB.untouched hi rfl (hbusy rfl rfl rfl rfl) rfl rfl rfl rfl rfl
    | enterUser r _ ha hthread hn hfree => exact henter ha hthread hn hfree rfl
    | enterTimer r ha hthread hn hfree => exact henter ha hthread hn hfree rfl
    | enterKernel hseat =>
      have he := (htr _ rfl).1
      have htrapped : (w.2.setTrapped a.thread).trapped = w.2.trapped := by
        funext r
        cases hthread : a.thread with
        | none => simp [Ghost.setTrapped]
        | some r' =>
          refine absurd ?_ (hkernel _ r' he)
          rw [hi.state r', ← Phase.seated_iff]
          exact hi.seated (hseat.trans hthread)
      exact hB.untouched hi htrapped (hbusy rfl rfl rfl rfl) rfl rfl rfl rfl rfl

end Moves

/-! ## Runs -/

theorem boot_books (p : Slot) : Books p ((boot 1 policy).data,bootGhost 1) ⟨0,0⟩ := by
  refine Books.of_idle (fun _ => rfl) (fun _ => rfl) ?_
  by_cases hp : p = 0
  · simp only [boot, bootGhost, hp, ↓reduceIte]
    rfl
  · simp only [bootGhost, hp, ↓reduceIte]
    rfl

/-- Asked this way round, the condition looks at the processes only at a timer interrupt
of the kernel. -/
theorem charged_iff {x : System 1 × Tally} {e : Event (Fin 1) Entry} {p : Slot} :
    Charged policy p x e ↔
      (∀ h, e = .trap h .kerneltrap → ∀ q, (x.1.data.proc q).state ≠ .running) ∧
        ∀ m' ∈ step (code 1 policy) x.1 e, m'.data.ticks ≠ x.1.data.ticks → Due p x.1.data := by
  constructor
  · rintro ⟨hkernel,hdue⟩
    exact ⟨fun h he q => hkernel h q he,hdue⟩
  · rintro ⟨hkernel,hdue⟩
    exact ⟨fun h q he => hkernel h he q,hdue⟩

end CShellXv6.Kernel
