import CShellXv6.Shell.JobTable
import CShellXv6.Shell.Children

/-! # The exit status of a group leader

With consistent answers of the operating system the exit status of the leader
is collected once. The loops over the processes of a job either account for it,
list it as reaped, or leave it to be collected.
-/
namespace CShellXv6.Jobs
open Lexer Process Sweep Transition

def Job.pids (job : Job) : List ℕ := job.procs.map Proc.pid

/-! ## The status of the leader -/

/-- The group leader of a job, whether its exit was accounted for, and which
processes a call under way has reaped without accounting for them. -/
structure Leader where
  pgid : ℕ
  finished : Bool
  reaped : List ℕ

def Job.leader (reaped : List ℕ) (job : Job) : Leader := ⟨job.pgid,job.finished,reaped⟩

def Leader.Settled (l : Leader) : Prop := l.finished = true ∨ l.pgid ∈ l.reaped

/-- The status of the leader is settled or still to come. -/
def Leader.Watched (l : Leader) (u : Unix) : Prop := l.Settled ∨ u.children l.pgid ≠ .reaped

/-- A recorded exit is a real one. -/
def Honest (u : Unix) (p : Proc) : Prop := p.state = .exited → (u.children p.pid).dead = true

/-- An unsettled leader is recorded as exited only while a signal is pending. -/
def Leader.Noted (l : Leader) (u : Unix) (p : Proc) : Prop :=
  l.Settled ∨ (u.sigchld = false → p.pid = l.pgid → p.state ≠ .exited)

theorem Honest.later {who : ℕ → Prop} {u v : Unix} {p : Proc} (h : Honest u p)
    (hl : Later who u v) : Honest v p := fun hex => hl.dead p.pid (h hex)

/-- What a visit to one recorded process may do: collect its exit and account
for it when it is the leader, or leave it unreaped and record an exit only for
a reason. With `keeps` a recorded exit may be passed over. -/
structure Visit (keeps : Prop) (l l' : Leader) (u u' : Unix) (p p' : Proc) : Prop where
  pid : p'.pid = p.pid
  pgid : l'.pgid = l.pgid
  settled : l.Settled → l'.Settled
  kept : l.reaped ⊆ l'.reaped
  reaped : ∀ q ∈ l'.reaped, q ∈ l.reaped ∨ q = p.pid
  dead : p'.state = .exited → p.state = .exited ∨ (u'.children p.pid).dead = true
  cases : (Later (· = p.pid) u u' ∧ (p.pid = l.pgid → l'.Settled)) ∨
    (Undisturbed u u' ∧ (Honest u p → p'.state = .exited →
      (keeps ∧ p.state = .exited) ∨ u.children p.pid = .reaped ∨ u'.sigchld = true))

section Visit
variable {keeps : Prop} {l l' : Leader} {u u' : Unix} {p p' : Proc}

theorem Visit.later (h : Visit keeps l l' u u' p p') : Later (· = p.pid) u u' := by
  rcases h.cases with ⟨hl,_⟩ | ⟨hl,_⟩
  · exact hl
  · exact hl.mono (fun _ hf => hf.elim)

theorem Visit.watched (h : Visit keeps l l' u u' p p') (hw : l.Watched u) : l'.Watched u' := by
  rcases hw with hset | hne
  · exact Or.inl (h.settled hset)
  rcases h.cases with ⟨hl,hlead⟩ | ⟨hl,_⟩
  · by_cases hp : p.pid = l.pgid
    · exact Or.inl (hlead hp)
    · refine Or.inr (fun hr => ?_)
      rw [h.pgid] at hr
      rcases hl.reaped l.pgid hr with hr | heq
      · exact hne hr
      · exact hp heq.symm
  · refine Or.inr (fun hr => ?_)
    rw [h.pgid] at hr
    exact hne ((hl.reaped l.pgid hr).resolve_right id)

theorem Visit.honest (h : Visit keeps l l' u u' p p') (hp : Honest u p) : Honest u' p' := by
  intro hex
  rw [h.pid]
  rcases h.dead hex with hex | hdead
  · exact h.later.dead p.pid (hp hex)
  · exact hdead

theorem Visit.noted (h : Visit keeps l l' u u' p p') (hw : l.Watched u) (hp : Honest u p)
    (hn : keeps → l.Noted u p) : l'.Noted u' p' := by
  rcases hw with hset | hne
  · exact Or.inl (h.settled hset)
  by_cases hlead : p.pid = l.pgid
  · rcases h.cases with ⟨_,hset⟩ | ⟨hl,hexit⟩
    · exact Or.inl (hset hlead)
    by_cases hset : l.Settled
    · exact Or.inl (h.settled hset)
    refine Or.inr (fun hs _ hex => ?_)
    rcases hexit hp hex with ⟨hk,hex⟩ | hr | hs'
    · exact ((hn hk).resolve_left hset) (hl.sigchld hs) hlead hex
    · exact hne (hlead ▸ hr)
    · rw [hs] at hs'
      cases hs'
  · refine Or.inr (fun _ hp' => ?_)
    rw [h.pid, h.pgid] at hp'
    exact absurd hp' hlead

theorem Visit.other (h : Visit keeps l l' u u' p p') {q : Proc} (hq : l.Noted u q) :
    l'.Noted u' q := by
  rcases hq with hset | hst
  · exact Or.inl (h.settled hset)
  · refine Or.inr (fun hs hq => hst (h.later.sigchld hs) ?_)
    rw [hq, h.pgid]

end Visit

/-- What a loop over the processes of a job has done. -/
structure Visited (keeps : Prop) (l l' : Leader) (u u' : Unix) (procs procs' : List Proc) :
    Prop where
  pids : procs'.map Proc.pid = procs.map Proc.pid
  pgid : l'.pgid = l.pgid
  settled : l.Settled → l'.Settled
  kept : l.reaped ⊆ l'.reaped
  reaped : ∀ q ∈ l'.reaped, q ∈ l.reaped ∨ q ∈ procs.map Proc.pid
  later : Later (· ∈ procs.map Proc.pid) u u'
  covered : l.Watched u → (∀ p ∈ procs, Honest u p ∧ (keeps → l.Noted u p)) →
    l'.Watched u' ∧ ∀ p ∈ procs', Honest u' p ∧ l'.Noted u' p

theorem Visited.cons {keeps : Prop} {l m n : Leader} {u v w : Unix} {p p' : Proc}
    {rest rest' : List Proc} (h : Visit keeps l m u v p p') (k : Visited keeps m n v w rest rest') :
    Visited keeps l n u w (p :: rest) (p' :: rest') := by
  refine ⟨by simp only [List.map_cons, h.pid, k.pids],k.pgid.trans h.pgid,
    fun hset => k.settled (h.settled hset),fun _ hq => k.kept (h.kept hq),fun q hq => ?_,?_,
    fun hw hall => ?_⟩
  · rcases k.reaped q hq with hq | hq
    · exact (h.reaped q hq).imp id (fun hp => by simp [hp])
    · exact Or.inr (List.mem_cons_of_mem _ hq)
  · refine (h.later.mono ?_).trans (k.later.mono ?_)
    · rintro pid rfl
      simp
    · intro pid hpid
      exact List.mem_cons_of_mem _ hpid
  · obtain ⟨hp,hnoted⟩ := hall p List.mem_cons_self
    obtain ⟨hw',hrest⟩ := k.covered (h.watched hw) (fun q hq => by
      obtain ⟨hq,hnq⟩ := hall q (List.mem_cons_of_mem _ hq)
      exact ⟨hq.later h.later,fun hk => h.other (hnq hk)⟩)
    refine ⟨hw',fun q hq => ?_⟩
    rcases List.mem_cons.mp hq with rfl | hq
    · refine ⟨(h.honest hp).later k.later,?_⟩
      rcases h.noted hw hp hnoted with hset | hst
      · exact Or.inl (k.settled hset)
      · refine Or.inr (fun hs hq => hst (k.later.sigchld hs) ?_)
        rw [hq, k.pgid]
    · exact hrest q hq

theorem foldSweep_visits {β : Type*} {f : β → Proc → Unix → β × Proc × Unix} {keeps : Prop}
    (lead : β → Leader)
    (hf : ∀ b p u, Visit keeps (lead b) (lead (f b p u).1) u (f b p u).2.2 p (f b p u).2.1)
    (procs : List Proc) (b : β) (u : Unix) :
    Visited keeps (lead b) (lead (foldSweep f b procs u).1) u (foldSweep f b procs u).2.2 procs
      (foldSweep f b procs u).2.1 := by
  induction procs generalizing b u with
  | nil =>
    exact ⟨rfl,rfl,id,fun _ => id,fun _ => Or.inl,Later.refl _ u,
      fun hw _ => ⟨hw,by simp [foldSweep]⟩⟩
  | cons p rest ih => exact Visited.cons (hf b p u) (ih (f b p u).1 (f b p u).2.2)

/-! ### What can happen to a process -/

section Visit
variable {keeps : Prop} {l : Leader} {u v : Unix} {p : Proc}

/-- A recorded exit is passed over. -/
theorem Visit.skip (hex : p.state = .exited) : Visit True l l u u p p where
  pid := rfl
  pgid := rfl
  settled := id
  kept := fun _ => id
  reaped := fun _ => Or.inl
  dead := Or.inl
  cases := Or.inr ⟨Later.refl _ u,fun _ _ => Or.inl ⟨trivial,hex⟩⟩

/-- The process is recorded as something other than exited. -/
theorem Visit.alive {st : ProcState} (hst : st ≠ .exited) (hl : Undisturbed u v) :
    Visit keeps l l u v p { p with state := st } where
  pid := rfl
  pgid := rfl
  settled := id
  kept := fun _ => id
  reaped := fun _ => Or.inl
  dead := fun hex => absurd hex hst
  cases := Or.inr ⟨hl,fun _ hex => absurd hex hst⟩

/-- The process was reaped before. -/
theorem Visit.missing (hr : u.children p.pid = .reaped) (hl : Undisturbed u v) :
    Visit keeps l l u v p { p with state := .exited } where
  pid := rfl
  pgid := rfl
  settled := id
  kept := fun _ => id
  reaped := fun _ => Or.inl
  dead := fun _ => Or.inr (congrArg Child.dead (hl.gone _ hr))
  cases := Or.inr ⟨hl,fun _ _ => Or.inr (Or.inl hr)⟩

/-- The process is reaped, and `leaderExit` accounts for the leader. -/
theorem Visit.collect (reaped : List ℕ) (job : Job) (signaled : Bool)
    (hr : v.children p.pid = .reaped) (hl : Later (· = p.pid) u v) :
    Visit keeps (job.leader reaped) ((job.leaderExit p.pid signaled).leader reaped) u v p
      { p with state := .exited } := by
  have hleader : ((job.leaderExit p.pid signaled).leader reaped).pgid = (job.leader reaped).pgid ∧
      ((job.leader reaped).Settled → ((job.leaderExit p.pid signaled).leader reaped).Settled) ∧
      (p.pid = job.pgid → ((job.leaderExit p.pid signaled).leader reaped).Settled) := by
    unfold Job.leaderExit
    split
    · exact ⟨rfl,fun _ => Or.inl rfl,fun _ => Or.inl rfl⟩
    · next hp => exact ⟨rfl,id,fun h => absurd h hp⟩
  obtain ⟨hpgid,hset,hlead⟩ := hleader
  exact ⟨rfl,hpgid,hset,fun _ => id,fun _ => Or.inl,fun _ => Or.inr (congrArg Child.dead hr),
    Or.inl ⟨hl,hlead⟩⟩

/-- The process is reaped and listed. -/
theorem Visit.enlist (hr : v.children p.pid = .reaped) (hl : Later (· = p.pid) u v) :
    Visit keeps l { l with reaped := l.reaped ++ [p.pid] } u v p { p with state := .exited } := by
  refine ⟨rfl,rfl,?_,fun _ => List.mem_append_left _,fun q hq => ?_,
    fun _ => Or.inr (congrArg Child.dead hr),Or.inl ⟨hl,fun h => Or.inr ?_⟩⟩
  · exact fun hset => hset.imp id (List.mem_append_left _)
  · rcases List.mem_append.mp hq with hq | hq
    · exact Or.inl hq
    · exact Or.inr (List.mem_singleton.mp hq)
  · exact List.mem_append_right _ (List.mem_singleton.mpr h.symm)

end Visit

/-! ### The three loops -/

/-- The handler asks for every process, so it passes over no recorded exit. -/
theorem handlerProc_visit (reaped : List ℕ) (job : Job) (p : Proc) (u : Unix) :
    Visit False (job.leader reaped) ((handlerProc unixOs job p u).1.leader reaped) u
      (handlerProc unixOs job p u).2.2 p (handlerProc unixOs job p u).2.1 := by
  rcases handlerProc_cases unixOs job p u with ⟨signaled,hw,heq⟩ | ⟨hw,b,st,hst,heq⟩
  · rw [heq]
    obtain ⟨hr,hl⟩ := Unix.waitpid_exited hw
    exact Visit.collect reaped job signaled hr hl
  · rw [heq]
    refine ⟨rfl,rfl,id,fun _ => id,fun _ => Or.inl,fun hex => Or.inl (hst hex),Or.inr ?_⟩
    by_cases hno : (u.waitpid p.pid pollFlags).1 = .noChild
    · obtain ⟨hr,hl⟩ := Unix.waitpid_noChild hno
      exact ⟨hl,fun _ _ => Or.inr (Or.inl hr)⟩
    · obtain ⟨halive,hl⟩ := Unix.waitpid_alive hno hw
      refine ⟨hl,fun hp hex => ?_⟩
      have hdead := hl.dead p.pid (hp (hst hex))
      rw [halive] at hdead
      cases hdead

/-- After a `waitpid` that found the process alive, `/proc` reports its end only
when it ended since, and then a signal is pending. -/
theorem inspectProc_visit (reaped : List ℕ) (a : Scan) (p : Proc) {u v : Unix} {st : ProcState}
    (hst : st ≠ .exited) (hl : Undisturbed u v) (halive : (v.children p.pid).dead = false) :
    Visit True (a.job.leader reaped)
      ((inspectProc unixOs a { p with state := st } v).1.job.leader reaped) u
      (inspectProc unixOs a { p with state := st } v).2.2 p
      (inspectProc unixOs a { p with state := st } v).2.1 := by
  obtain ⟨hl',hmissing,hzombie⟩ := v.procStat_spec p.pid
  rcases inspectProc_cases unixOs a { p with state := st } v hst with ⟨st',hst',heq⟩ | ⟨hgone,heq⟩
  · rw [heq]
    exact Visit.alive hst' (hl.trans hl')
  · rw [heq]
    rcases hgone with hm | hz
    · rw [hmissing hm] at halive
      cases halive
    · obtain ⟨hdead,hbefore⟩ := hzombie hz
      have hpending : (v.procStat p.pid).2.sigchld = true := by
        by_contra hs
        rw [hbefore (Bool.eq_false_iff.mpr hs)] at halive
        cases halive
      exact ⟨rfl,rfl,id,fun _ => id,fun _ => Or.inl,fun _ => Or.inr hdead,
        Or.inr ⟨hl.trans hl',fun _ _ => Or.inr (Or.inr hpending)⟩⟩

theorem refreshProc_visit (reaped : List ℕ) (a : Scan) (p : Proc) (u : Unix) :
    Visit True (a.job.leader reaped) ((refreshProc unixOs a p u).1.job.leader reaped) u
      (refreshProc unixOs a p u).2.2 p (refreshProc unixOs a p u).2.1 := by
  rcases refreshProc_cases unixOs a p u with ⟨hex,heq⟩ | ⟨_,signaled,hw,heq⟩ | ⟨_,hw,heq⟩ |
    ⟨_,hnone,hnot,st,hst,heq⟩
  · rw [heq]
    exact Visit.skip hex
  · rw [heq]
    obtain ⟨hr,hl⟩ := Unix.waitpid_exited hw
    exact Visit.collect reaped a.job signaled hr hl
  · rw [heq]
    obtain ⟨hr,hl⟩ := Unix.waitpid_noChild hw
    exact Visit.missing hr hl
  · rw [heq]
    obtain ⟨halive,hl⟩ := Unix.waitpid_alive hnone hnot
    exact inspectProc_visit reaped a p hst hl halive

/-- A pass of `jobs_resume_fg` lists what it reaps. -/
theorem passProc_visit (job : Job) (a : Pass) (p : Proc) (u : Unix) :
    Visit True (job.leader a.reaped) (job.leader (passProc unixOs a p u).1.reaped) u
      (passProc unixOs a p u).2.2 p (passProc unixOs a p u).2.1 := by
  rcases passProc_cases unixOs a p u with ⟨hex,heq⟩ | ⟨_,⟨signaled,hw⟩,heq⟩ | ⟨_,hw,heq⟩ |
    ⟨_,hnone,hnot,a',st,hst,_,hreaped,_,_,heq⟩
  · rw [heq]
    exact Visit.skip hex
  · rw [heq]
    obtain ⟨hr,hl⟩ := Unix.waitpid_exited hw
    exact Visit.enlist hr hl
  · rw [heq]
    obtain ⟨hr,hl⟩ := Unix.waitpid_noChild hw
    exact Visit.missing hr hl
  · rw [heq]
    dsimp only
    rw [hreaped]
    exact Visit.alive hst (Unix.waitpid_alive hnone hnot).2

end CShellXv6.Jobs
