import CShellXv6.Shell.Jobs
import Mathlib.Logic.Function.Basic

/-! # Consistent answers of the operating system

The children of the shell with the changes that happen before each coming
system call. An exit status is handed out once, by the `waitpid` that reaps the
process; later calls find no child. A change raises SIGCHLD.
-/
namespace CShellXv6.Jobs
open Lexer Process Sweep

structure Unix where
  children : ℕ → Child
  script : List (List (ℕ × Change))
  sigchld : Bool

def Unix.change (u : Unix) (pid : ℕ) (c : Change) : Unix :=
  { u with
    children := Function.update u.children pid ((u.children pid).change c)
    sigchld := true }

/-- The changes that happen before the next system call. -/
def Unix.advance (u : Unix) : Unix :=
  match u.script with
  | [] => u
  | batch :: rest => batch.foldl (fun v e => v.change e.1 e.2) { u with script := rest }

def Unix.collect (u : Unix) (pid : ℕ) (child : Child) : Unix :=
  { u with children := Function.update u.children pid child }

def Unix.waitpid (u : Unix) (pid : ℕ) (flags : WaitFlags) : Waited × Unix :=
  match (u.advance.children pid).report flags with
  | some (r,child) => (.got r,u.advance.collect pid child)
  | none => (if u.advance.children pid = .reaped then .noChild else .nothing,u.advance)

def Unix.procStat (u : Unix) (pid : ℕ) : ProcStat × Unix :=
  (match u.advance.children pid with
    | .running _ => .state 'S'
    | .stopped _ => .state 'T'
    | .zombie _ => .state 'Z'
    | .reaped => .missing,u.advance)

def unixOs : Os Unix where
  waitpid := Unix.waitpid
  procStat := Unix.procStat
  waitpid_flags u pid flags hflags := by
    unfold Unix.waitpid
    cases hc : u.advance.children pid with
    | running b => cases b <;> simp [Child.report,hflags]
    | stopped b =>
      cases b <;> cases hu : flags.untraced <;> simp [Child.report,hu]
    | zombie _ => simp [Child.report]
    | reaped => simp [Child.report]

@[simp] theorem Unix.change_self (u : Unix) (pid : ℕ) (c : Change) :
    (u.change pid c).children pid = (u.children pid).change c :=
  Function.update_self pid _ u.children

theorem Unix.change_ne (u : Unix) {pid q : ℕ} (hq : q ≠ pid) (c : Change) :
    (u.change pid c).children q = u.children q :=
  Function.update_of_ne hq _ u.children

@[simp] theorem Unix.collect_self (u : Unix) (pid : ℕ) (child : Child) :
    (u.collect pid child).children pid = child :=
  Function.update_self pid _ u.children

theorem Unix.collect_ne (u : Unix) {pid q : ℕ} (hq : q ≠ pid) (child : Child) :
    (u.collect pid child).children q = u.children q :=
  Function.update_of_ne hq _ u.children

/-! ## Later states -/

/-- A later state of the children in which only the processes of `who` may have
been reaped meanwhile. -/
structure Later (who : ℕ → Prop) (u v : Unix) : Prop where
  reaped : ∀ pid, v.children pid = .reaped → u.children pid = .reaped ∨ who pid
  gone : ∀ pid, u.children pid = .reaped → v.children pid = .reaped
  dead : ∀ pid, (u.children pid).dead = true → (v.children pid).dead = true
  sigchld : v.sigchld = false → u.sigchld = false

theorem Later.refl (who : ℕ → Prop) (u : Unix) : Later who u u :=
  ⟨fun _ => Or.inl,fun _ => id,fun _ => id,id⟩

theorem Later.trans {who : ℕ → Prop} {u v w : Unix} (h : Later who u v) (k : Later who v w) :
    Later who u w := by
  refine ⟨fun pid hw => ?_,fun pid hg => k.gone pid (h.gone pid hg),
    fun pid hd => k.dead pid (h.dead pid hd),fun hs => h.sigchld (k.sigchld hs)⟩
  rcases k.reaped pid hw with hv | hwho
  · exact h.reaped pid hv
  · exact Or.inr hwho

theorem Later.mono {who who' : ℕ → Prop} {u v : Unix} (h : Later who u v)
    (hw : ∀ pid, who pid → who' pid) : Later who' u v :=
  ⟨fun pid hr => (h.reaped pid hr).imp id (hw pid),h.gone,h.dead,h.sigchld⟩

/-- Nobody has been reaped meanwhile. -/
abbrev Undisturbed (u v : Unix) : Prop := Later (fun _ => False) u v

theorem Unix.change_later (u : Unix) (pid : ℕ) (c : Change) : Undisturbed u (u.change pid c) := by
  refine ⟨fun q hr => Or.inl ?_,fun q hg => ?_,fun q hd => ?_,fun hs => by cases hs⟩
  · by_cases hq : q = pid
    · rw [hq] at hr ⊢
      rw [Unix.change_self] at hr
      exact Child.change_eq_reaped hr
    · rwa [u.change_ne hq] at hr
  · by_cases hq : q = pid
    · rw [hq] at hg ⊢
      rw [Unix.change_self, Child.dead_change (by rw [hg]; rfl), hg]
    · rwa [u.change_ne hq]
  · by_cases hq : q = pid
    · rw [hq] at hd ⊢
      rwa [Unix.change_self, Child.dead_change hd]
    · rwa [u.change_ne hq]

theorem Unix.foldl_change_later (batch : List (ℕ × Change)) (u : Unix) :
    Undisturbed u (batch.foldl (fun v e => v.change e.1 e.2) u) := by
  induction batch generalizing u with
  | nil => exact Later.refl _ u
  | cons e rest ih => exact (u.change_later e.1 e.2).trans (ih _)

theorem Unix.advance_later (u : Unix) : Undisturbed u u.advance := by
  unfold Unix.advance
  split
  · exact Later.refl _ u
  · next batch rest _ =>
    have h := Unix.foldl_change_later batch { u with script := rest }
    exact ⟨h.reaped,h.gone,h.dead,h.sigchld⟩

theorem Unix.foldl_change_still {batch : List (ℕ × Change)} {u : Unix}
    (h : (batch.foldl (fun v e => v.change e.1 e.2) u).sigchld = false) :
    (batch.foldl (fun v e => v.change e.1 e.2) u).children = u.children := by
  cases batch with
  | nil => rfl
  | cons e rest =>
    have hs := (Unix.foldl_change_later rest (u.change e.1 e.2)).sigchld h
    cases hs

/-- Without a signal nothing has changed. -/
theorem Unix.advance_still {u : Unix} (h : u.advance.sigchld = false) :
    u.advance.children = u.children := by
  unfold Unix.advance at h ⊢
  split at h
  · rfl
  · next batch rest heq =>
    exact Unix.foldl_change_still h

/-- Collecting from a process whose state it replaces by `child`. -/
theorem Unix.collect_later {who : ℕ → Prop} (u : Unix) {pid : ℕ} {child : Child}
    (hreaped : child = .reaped → u.children pid = .reaped ∨ who pid)
    (hdead : (u.children pid).dead = true → child = .reaped) :
    Later who u (u.collect pid child) := by
  refine ⟨fun q hr => ?_,fun q hg => ?_,fun q hd => ?_,id⟩
  · by_cases hq : q = pid
    · rw [hq] at hr ⊢
      exact hreaped (by rwa [Unix.collect_self] at hr)
    · exact Or.inl (by rwa [u.collect_ne hq] at hr)
  · by_cases hq : q = pid
    · rw [hq] at hg ⊢
      rw [Unix.collect_self]
      exact hdead (by rw [hg]; rfl)
    · rwa [u.collect_ne hq]
  · by_cases hq : q = pid
    · rw [hq] at hd ⊢
      rw [Unix.collect_self, hdead hd]
      rfl
    · rwa [u.collect_ne hq]

/-! ## Answers -/

/-- A `waitpid` hands out the exit status and reaps the process, finds no child,
or leaves a living process unreaped. -/
theorem Unix.waitpid_cases (u : Unix) (pid : ℕ) (flags : WaitFlags) :
    (∃ signaled, (u.waitpid pid flags).1 = .got (.exited signaled) ∧
      (u.waitpid pid flags).2.children pid = .reaped ∧ Later (· = pid) u (u.waitpid pid flags).2) ∨
    ((u.waitpid pid flags).1 = .noChild ∧ u.children pid = .reaped ∧
      Undisturbed u (u.waitpid pid flags).2) ∨
    ((u.waitpid pid flags).1 ≠ .noChild ∧
      (∀ signaled, (u.waitpid pid flags).1 ≠ .got (.exited signaled)) ∧
      ((u.waitpid pid flags).2.children pid).dead = false ∧
      Undisturbed u (u.waitpid pid flags).2) := by
  have hadv := u.advance_later
  have halive : ∀ b : Bool,
      u.advance.children pid = .running b ∨ u.advance.children pid = .stopped b →
      ∀ child : Child, child ≠ .reaped → Undisturbed u (u.advance.collect pid child) := by
    intro b hc child hne
    refine hadv.trans (u.advance.collect_later (fun h => absurd h hne) (fun hd => ?_))
    rcases hc with hc | hc <;> simp [hc,Child.dead] at hd
  unfold Unix.waitpid
  cases hc : u.advance.children pid with
  | running b =>
    refine Or.inr (Or.inr ?_)
    cases b <;> cases hf : flags.continued <;>
      simp [Child.report,hf,hc,Child.dead,hadv,halive _ (Or.inl hc)]
  | stopped b =>
    refine Or.inr (Or.inr ?_)
    cases b <;> cases hf : flags.untraced <;>
      simp [Child.report,hf,hc,Child.dead,hadv,halive _ (Or.inr hc)]
  | zombie b =>
    refine Or.inl ⟨b,rfl,by simp [Child.report],(hadv.mono (fun _ h => h.elim)).trans
      (u.advance.collect_later (fun _ => Or.inr rfl) (fun _ => rfl))⟩
  | reaped =>
    have hu : u.children pid = .reaped := (hadv.reaped pid hc).resolve_right id
    exact Or.inr (Or.inl ⟨by simp [Child.report],hu,hadv⟩)

theorem Unix.waitpid_exited {u : Unix} {pid : ℕ} {flags : WaitFlags} {signaled : Bool}
    (h : (u.waitpid pid flags).1 = .got (.exited signaled)) :
    (u.waitpid pid flags).2.children pid = .reaped ∧ Later (· = pid) u (u.waitpid pid flags).2 := by
  rcases u.waitpid_cases pid flags with ⟨_,_,hspec⟩ | ⟨hno,_⟩ | ⟨_,hnot,_⟩
  · exact hspec
  · rw [h] at hno
    cases hno
  · exact absurd h (hnot signaled)

theorem Unix.waitpid_noChild {u : Unix} {pid : ℕ} {flags : WaitFlags}
    (h : (u.waitpid pid flags).1 = .noChild) :
    u.children pid = .reaped ∧ Undisturbed u (u.waitpid pid flags).2 := by
  rcases u.waitpid_cases pid flags with ⟨_,hgot,_⟩ | ⟨_,hspec⟩ | ⟨hne,_⟩
  · rw [h] at hgot
    cases hgot
  · exact hspec
  · exact absurd h hne

theorem Unix.waitpid_alive {u : Unix} {pid : ℕ} {flags : WaitFlags}
    (hne : (u.waitpid pid flags).1 ≠ .noChild)
    (hnot : ∀ signaled, (u.waitpid pid flags).1 ≠ .got (.exited signaled)) :
    ((u.waitpid pid flags).2.children pid).dead = false ∧
      Undisturbed u (u.waitpid pid flags).2 := by
  rcases u.waitpid_cases pid flags with ⟨signaled,hgot,_⟩ | ⟨hno,_⟩ | ⟨_,_,hspec⟩
  · exact absurd hgot (hnot signaled)
  · exact absurd hno hne
  · exact hspec

/-- `/proc` shows a process missing only when it was reaped, and a zombie only
when it is dead; it died since the last system call or was dead before. -/
theorem Unix.procStat_spec (u : Unix) (pid : ℕ) :
    Undisturbed u (u.procStat pid).2 ∧
      ((u.procStat pid).1 = .missing → u.children pid = .reaped) ∧
      ((u.procStat pid).1 = .state 'Z' → ((u.procStat pid).2.children pid).dead = true ∧
        ((u.procStat pid).2.sigchld = false → (u.children pid).dead = true)) := by
  have hadv := u.advance_later
  refine ⟨hadv,fun hm => ?_,fun hz => ?_⟩
  · refine (hadv.reaped pid ?_).resolve_right id
    cases hc : u.advance.children pid <;> simp_all [Unix.procStat]
  · have hdead : (u.advance.children pid).dead = true := by
      cases hc : u.advance.children pid <;> simp_all [Unix.procStat,Child.dead]
    refine ⟨hdead,fun hs => ?_⟩
    rwa [← Unix.advance_still hs]

end CShellXv6.Jobs
