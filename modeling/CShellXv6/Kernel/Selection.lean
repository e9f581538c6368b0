import CShellXv6.Library.Solo
import CShellXv6.Kernel.Trap
import Mathlib.Data.Fintype.Card

/-! # The selection loop of the FIFO scheduler

The loop goes through the table once and takes the lock of each process. It keeps the lock of
the best process so far and hands it over when it finds a better one.
-/
namespace CShellXv6.Kernel
open SpinLock Transition
variable {n : ℕ}

/-! ## The process that is chosen -/

/-- What one round of the loop makes of the process found so far. -/
def Data.better (s : Data n) : Option Slot → Slot → Option Slot
  | none, p => if (s.proc p).state = .runnable then some p else none
  | some e, p =>
    if (s.proc p).state = .runnable ∧ (s.proc p).ctime.slt (s.proc e).ctime then some p
    else some e

/-- What the loop has found in a part of the table: the first of the runnable processes with
the least `ctime`. -/
def Data.Earliest (s : Data n) (table : List Slot) : Option Slot → Prop
  | none => ∀ p ∈ table, (s.proc p).state ≠ .runnable
  | some e => e ∈ table ∧ (s.proc e).state = .runnable ∧
      ∀ p ∈ table, (s.proc p).state = .runnable →
        (s.proc e).ctime.toInt < (s.proc p).ctime.toInt ∨
          (s.proc e).ctime.toInt = (s.proc p).ctime.toInt ∧ e ≤ p

theorem Data.Earliest.better {s : Data n} {table : List Slot} {e : Option Slot}
    (h : s.Earliest table e) {p : Slot} (hlast : ∀ q ∈ table, q < p) :
    s.Earliest (table ++ [p]) (s.better e p) := by
  have hmem : ∀ {q}, q ∈ table ++ [p] → q ∈ table ∨ q = p := fun hq => by simpa using hq
  cases e with
  | none =>
    simp only [Data.better]
    split
    · next hrun =>
      refine ⟨by simp,hrun,fun q hq hq' => ?_⟩
      rcases hmem hq with hq | rfl
      · exact absurd hq' (h q hq)
      · exact Or.inr ⟨rfl,Nat.le_refl _⟩
    · next hrun =>
      intro q hq
      rcases hmem hq with hq | rfl
      · exact h q hq
      · exact hrun
  | some e =>
    obtain ⟨he,hrun,hleast⟩ := h
    simp only [Data.better, BitVec.slt_iff_toInt_lt]
    split
    · next hbetter =>
      refine ⟨by simp,hbetter.1,fun q hq hq' => ?_⟩
      rcases hmem hq with hq | rfl
      · rcases hleast q hq hq' with hlt | ⟨heq,_⟩
        · exact Or.inl (Int.lt_trans hbetter.2 hlt)
        · exact Or.inl (heq ▸ hbetter.2)
      · exact Or.inr ⟨rfl,Nat.le_refl _⟩
    · next hbetter =>
      refine ⟨List.mem_append_left _ he,hrun,fun q hq hq' => ?_⟩
      rcases hmem hq with hq | rfl
      · exact hleast q hq hq'
      · have hle := Int.not_lt.mp fun hlt => hbetter ⟨hq',hlt⟩
        rcases Int.lt_or_eq_of_le hle with hlt | heq
        · exact Or.inl hlt
        · exact Or.inr ⟨heq,Nat.le_of_lt (hlast e he)⟩

/-! ## The locks -/

/-- The owners while the scan holds the lock of the process found. -/
def keeping (o : Lock → Option (Fin n)) (h : Fin n) : Option Slot → Lock → Option (Fin n)
  | none => o
  | some e => Function.update o (.proc e) (some h)

theorem keeping_of_ne {o : Lock → Option (Fin n)} {h : Fin n} {e : Option Slot} {l : Lock}
    (hl : ∀ q, e = some q → l ≠ .proc q) : keeping o h e l = o l := by
  cases e with
  | none => rfl
  | some q => exact Function.update_of_ne (hl q rfl) _ _

/-- The processes whose locks a hart holds. -/
def heldProcs (h : Fin n) (o : Lock → Option (Fin n)) : Finset Slot :=
  Finset.univ.filter fun p => o (.proc p) = some h

def AtMostTwo (h : Fin n) (o : Lock → Option (Fin n)) : Prop := (heldProcs h o).card ≤ 2

theorem atMostTwo {h : Fin n} {o : Lock → Option (Fin n)} (a b : Slot)
    (hab : ∀ p, o (.proc p) = some h → p = a ∨ p = b) : AtMostTwo h o := by
  have hsub : heldProcs h o ⊆ {a,b} := by
    intro p hp
    simpa using hab p (Finset.mem_filter.mp hp).2
  exact (Finset.card_le_card hsub).trans Finset.card_le_two

theorem keeping_held {h : Fin n} {o : Lock → Option (Fin n)} (hfree : ∀ p, o (.proc p) = none)
    (e : Option Slot) (p : Slot) : keeping o h e (.proc p) = some h ↔ e = some p := by
  cases e with
  | none => simp [keeping,hfree]
  | some e =>
    by_cases hp : p = e
    · simp [keeping,hp]
    · simp [keeping,hp,hfree,Ne.symm hp]

section Scan
variable {h : Fin n} {o : Lock → Option (Fin n)} (hfree : ∀ p, o (.proc p) = none)
include hfree

theorem keeping_atMostTwo (e : Option Slot) : AtMostTwo h (keeping o h e) := by
  apply atMostTwo (e.getD 0) (e.getD 0)
  intro p hp
  rw [(keeping_held hfree e p).mp hp]
  exact Or.inl rfl

theorem acquired_atMostTwo (e : Option Slot) (p : Slot) :
    AtMostTwo h (Function.update (keeping o h e) (.proc p) (some h)) := by
  apply atMostTwo p (e.getD p)
  intro q hq
  by_cases hp : q = p
  · exact Or.inl hp
  · rw [Function.update_of_ne (by simpa using hp)] at hq
    rw [(keeping_held hfree e q).mp hq]
    exact Or.inr rfl

/-- One round of the loop. The lock of the process before is handed over to the better one. -/
theorem fifoScan_round (s : Data n) {e : Option Slot} {p : Slot} (hp : e ≠ some p)
    (rest : List Slot) :
    Leads h (AtMostTwo h) (fifoScan (p :: rest) e : Thread n) (keeping o h e) s [.proc p]
      (fifoScan rest (s.better e p)) (keeping o h (s.better e p)) s := by
  have hone := keeping_atMostTwo (h := h) hfree e
  have htwo := acquired_atMostTwo (h := h) hfree e p
  have hown : keeping o h e (.proc p) = none := by
    rw [keeping_of_ne, hfree]
    rintro q hq heq
    cases heq
    exact hp hq
  cases e with
  | none =>
    apply Leads.acquire hone hown
    apply Leads.look htwo
    simp only [Data.better]
    split
    · exact .refl _ _ _
    · apply Leads.release htwo (Function.update_self _ _ _)
      rw [update_free hown]
      exact .refl _ _ _
  | some e =>
    have hne : p ≠ e := fun heq => hp (congrArg some heq.symm)
    apply Leads.acquire hone hown
    apply Leads.look htwo
    simp only [Data.better]
    split
    · apply Leads.release htwo
      · rw [Function.update_of_ne (by simpa using hne.symm)]
        exact Function.update_self _ _ _
      · have howner : Function.update (Function.update (keeping o h (some e)) (.proc p) (some h))
            (.proc e) none = keeping o h (some p) := by
          rw [Function.update_comm (by simpa using hne), keeping, update_free (hfree e)]
          rfl
        rw [howner]
        exact .refl _ _ _
    · apply Leads.release htwo (Function.update_self _ _ _)
      rw [update_free hown]
      exact .refl _ _ _

/-- The loop over the rest of the table. -/
theorem fifoScan_leads (s : Data n) {table rest : List Slot} {e : Option Slot}
    (hsorted : (table ++ rest).Pairwise (· < ·)) (he : s.Earliest table e) :
    ∃ e', Leads h (AtMostTwo h) (fifoScan rest e : Thread n) (keeping o h e) s
        (rest.map .proc) (fifoScan [] e') (keeping o h e') s ∧ s.Earliest (table ++ rest) e' := by
  induction rest generalizing table e with
  | nil =>
    rw [List.append_nil]
    exact ⟨e,.refl _ _ _,he⟩
  | cons p rest ih =>
    have hlast : ∀ q ∈ table, q < p := fun q hq =>
      (List.pairwise_append.mp hsorted).2.2 q hq p List.mem_cons_self
    have hp : e ≠ some p := by
      rintro rfl
      exact absurd (hlast p he.1) (Nat.lt_irrefl _)
    rw [List.append_cons] at hsorted
    obtain ⟨e',hleads,he'⟩ := ih hsorted (he.better hlast)
    rw [List.append_cons]
    exact ⟨e',(fifoScan_round hfree s hp rest).trans hleads,he'⟩

end Scan

/-- The hart that selects a process finds the earliest one, holds its lock and no other lock of
a process when the loop ends, and never more than two; it takes them in the order of the table. -/
theorem fifo_selection (h : Fin n) (m : System n) (rest : List (Thread n))
    (hframes : m.frames h = scheduler .fifo :: rest) (hfree : ∀ p, m.owner (.proc p) = none) :
    ∃ earliest m', Runs (watched (step (code n .fifo)) (noteTaken h))
        (fun x e => e = .run h ∧ AtMostTwo h x.1.owner) (m,[])
        (m',(List.finRange nproc).map .proc) ∧
      m'.frames h = fifoScan [] earliest :: rest ∧ m'.data = m.data ∧
      m.data.Earliest (List.finRange nproc) earliest ∧
      ∀ p, m'.owner (.proc p) = some h ↔ earliest = some p := by
  have hsorted : ([] ++ List.finRange nproc).Pairwise (· < ·) := List.pairwise_lt_finRange nproc
  obtain ⟨earliest,hleads,hearliest⟩ := fifoScan_leads (h := h) (o := m.owner) (e := none) hfree
    m.data hsorted nofun
  obtain ⟨m',hruns,hreaches⟩ := hleads.runs (code n .fifo) hframes rfl rfl []
  refine ⟨earliest,m',hruns,hreaches.frames,hreaches.data,hearliest,fun p => ?_⟩
  rw [hreaches.owner, keeping_held hfree]

/-- After boot the first process is selected. -/
theorem fifo_selection_boot :
    ∃ m', Runs (watched (step (code 1 .fifo)) (noteTaken ⟨0,Nat.one_pos⟩))
        (fun x e => e = .run ⟨0,Nat.one_pos⟩ ∧ AtMostTwo ⟨0,Nat.one_pos⟩ x.1.owner)
        (boot 1 .fifo,[]) (m',(List.finRange nproc).map .proc) ∧
      ∀ p, m'.owner (.proc p) = some ⟨0,Nat.one_pos⟩ ↔ p = 0 := by
  obtain ⟨earliest,m',hruns,_,_,hearliest,howner⟩ := fifo_selection ⟨0,Nat.one_pos⟩
    (boot 1 .fifo) [] rfl fun _ => rfl
  refine ⟨m',hruns,fun p => ?_⟩
  rw [howner]
  cases earliest with
  | none => exact absurd rfl (hearliest 0 (List.mem_finRange 0))
  | some e =>
    have he : e = 0 := by
      by_contra hne
      have hrun := hearliest.2.1
      simp only [boot, if_neg hne] at hrun
      cases hrun
    rw [he]
    exact ⟨fun heq => (Option.some.inj heq).symm,fun heq => congrArg some heq.symm⟩

end CShellXv6.Kernel
