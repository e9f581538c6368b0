import CShellXv6.Kernel.Life

/-! # The kernel keeps to the protocol

Each function of `proc.c` and `trap.c` makes only moves of the protocol. What a
function knows with no lock held is a posture: where its process stands in its
timer interrupt, and which child it is making.
-/
namespace CShellXv6.Kernel
open SpinLock
variable {n : ℕ} {policy : Policy} {c : Option Slot} {nested : Bool} {h : Fin n}
  {held : List Lock} {p x : Slot} {F : World n → Prop}

/-- Unchanged by what leaves the lives of the processes alone, and by wakeups. -/
structure Tame (F : World n → Prop) : Prop where
  slot : ∀ {w : World n} {x f ph h s}, (w.1.proc x).Mild (f (w.1.proc x)) →
    ph = w.2.phase x ∨ ph = .runnable ∧ (w.2.phase x).alive = true → F w →
    F (w.1.modify x f,(w.2.setPhase x ph).setSeat h s)
  shared : ∀ {w : World n} {s : Data n}, s.proc = w.1.proc → F w → F (s,w.2)

structure Posture (policy : Policy) (c : Option Slot) (nested : Bool) (F : World n → Prop) : Prop
    extends Tame F where
  firm : (life n policy).Firm c F
  active : ∀ {h w}, Home c h w → F w → Active ⟨h,c,nested⟩ w

/-- A posture in which any function can be called. -/
structure Capable (policy : Policy) (c : Option Slot) (nested : Bool) (F : World n → Prop) : Prop
    extends Posture policy c nested F where
  able : ∀ {h w}, F w → Able ⟨h,c,nested⟩ w

abbrev Keeps (policy : Policy) (c : Option Slot) (nested : Bool) (k : Thread n) (h : Fin n)
    (held : List Lock) (P : World n → Prop) : Prop :=
  (life n policy).Meets Lock.proc c nested k h held P

/-- The program keeps to the protocol when it starts in this posture, wherever it runs. -/
def Free (policy : Policy) (c : Option Slot) (nested : Bool) (F : World n → Prop)
    (k : Thread n) : Prop :=
  ∀ h, Keeps policy c nested k h [] ((life n policy).At c h F)

/-! ## Postures -/

theorem poised_tame {D : Duty → Bool → Prop} (hD : ∀ dt, D dt false → D dt true) :
    Tame (Poised p D : World n → Prop) := by
  constructor
  · rintro w x f ph h s hmild hph ⟨halive,hduty⟩
    by_cases hpx : p = x
    · subst hpx
      refine ⟨?_,?_⟩
      · rcases hph with rfl | ⟨rfl,_⟩
        · simpa using halive
        · simp [Phase.alive]
      · simp only [Ghost.setSeat_duty, Ghost.setPhase_duty, Data.modify_self]
        cases hold : (w.1.proc p).killed with
        | true =>
          rw [hmild.killed hold]
          rwa [hold] at hduty
        | false =>
          rw [hold] at hduty
          cases (f (w.1.proc p)).killed with
          | false => exact hduty
          | true => exact hD _ hduty
    · exact ⟨by simpa [hpx] using halive,by simpa [hpx] using hduty⟩
  · rintro w s hs ⟨halive,hduty⟩
    exact ⟨halive,by rwa [hs]⟩

theorem poised_posture {D : Duty → Bool → Prop} (hD : ∀ dt, D dt false → D dt true) :
    Posture policy (some p) false (Poised p D : World n → Prop) :=
  ⟨poised_tame hD,poised_firm hD,fun hh _ => ⟨hh.seat,fun _ _ hn => by cases hn⟩⟩

theorem ready_mono (dt : Duty) (_ : ready dt false) : ready dt true := Or.inr rfl

theorem rested_mono (dt : Duty) (h : rested dt false) : rested dt true := h

theorem rested_capable : Capable policy (some p) false (Poised p rested : World n → Prop) := by
  refine ⟨poised_posture rested_mono,fun {h w} hw q hq _ => Or.inl ?_⟩
  cases hq
  exact hw.2

theorem ready_capable : Capable policy (some p) false (Poised p ready : World n → Prop) := by
  refine ⟨poised_posture ready_mono,fun {h w} hw q hq _ => ?_⟩
  cases hq
  exact hw.2

/-- The process `p` is making the child `x`. -/
def Making (p x : Slot) (stage : Stage) (w : World n) : Prop :=
  Poised p rested w ∧ w.2.phase x = .making p stage

theorem making_capable {stage : Stage} :
    Capable policy (some p) false (Making p x stage : World n → Prop) := by
  have hready : Capable policy (some p) false (Poised p rested : World n → Prop) := rested_capable
  refine ⟨⟨⟨fun {w y f ph h s} hmild hph hw => ?_,fun hs hw => ⟨hready.shared hs hw.1,hw.2⟩⟩,
    hready.firm.and making_firm,fun hh hw => hready.active hh hw.1⟩,fun hw => hready.able hw.1⟩
  refine ⟨hready.slot hmild hph hw.1,?_⟩
  by_cases hxy : x = y
  · subst hxy
    rcases hph with rfl | ⟨_,halive⟩
    · simpa using hw.2
    · rw [hw.2] at halive
      cases halive
  · simpa [hxy] using hw.2

theorem caught_capable : Capable policy c true (Caught c : World n → Prop) := by
  refine ⟨⟨⟨fun _ _ hw => hw,fun _ hw => hw⟩,caught_firm,fun hh hw => ⟨hh.seat,?_⟩⟩,?_⟩
  · exact fun p hp _ => hw p hp
  · intro _ _ _ _ _ hn
    cases hn

/-- The scheduler knows nothing while it holds no lock. -/
theorem idle_capable : Capable policy none false (fun _ : World n => True) :=
  ⟨⟨⟨fun _ _ _ => trivial,fun _ _ => trivial⟩,fun _ _ _ _ _ _ _ _ _ => trivial,
    fun hh _ => ⟨hh.seat,fun _ hp => by cases hp⟩⟩,fun _ _ hp => by cases hp⟩

/-! ## Moves that change nobody's life -/

theorem Home.slot {w : World n} {f : Proc → Proc} {ph : Phase} (hh : Home c h w)
    (hseat : (w.2.phase x).seated = ph.seated) (hrun : ∀ p, c = some p → x = p → ph = .running) :
    Home c h (w.1.modify x f,(w.2.setPhase x ph).setSeat h
      (reseat (w.2.phase x) ph x (w.2.seat h))) := by
  refine ⟨?_,hh.cpu,fun p hp => ?_⟩
  · rw [reseat_same hseat, Ghost.setSeat_self, hh.seat]
  · by_cases hpx : p = x
    · subst hpx
      simpa using hrun p hp rfl
    · simpa [hpx] using hh.running p hp

/-- A write that leaves the state of the process alone. -/
theorem Capable.keep (hF : Capable policy c nested F) {f : Proc → Proc} {w : World n} (hi : Inv w)
    (hh : Home c h w) (hw : F w) (hmild : (w.1.proc x).Mild (f (w.1.proc x)))
    (hstate : (f (w.1.proc x)).state = (w.1.proc x).state) :
    ∃ g, Move policy ⟨h,c,nested⟩ none held w (w.1.modify x f,g) ∧
      (life n policy).At c h F (w.1.modify x f,g) := by
  refine ⟨_,Move.deed x f (w.2.phase x) (hF.active hh hw) (hF.able hw) (.touch hmild)
    (hstate.trans (hi.state x)) (Or.inr ⟨rfl,hmild.times⟩),?_,hF.slot hmild (Or.inl rfl) hw⟩
  exact Home.slot hh rfl (fun p hp hx => hx ▸ hh.running p hp)

theorem Capable.touch (hF : Capable policy c nested F) {f : Proc → Proc}
    (hf : ∀ q, q.Mild (f q) ∧ (f q).state = q.state) :
    ∀ w : World n, Inv w → (life n policy).At c h F w →
      ∃ g, Move policy ⟨h,c,nested⟩ none held w (w.1.modify x f,g) ∧
        (life n policy).At c h F (w.1.modify x f,g) := by
  rintro w hi ⟨hh,hw⟩
  obtain ⟨hmild,hstate⟩ := hf (w.1.proc x)
  exact hF.keep hi hh hw hmild hstate

/-- A write under the lock of the process, which may wake it. -/
theorem Capable.rouse (hF : Capable policy c nested F) {f : Proc → Proc} (hx : .proc x ∈ held)
    (hf : ∀ q, q.Mild (f q) ∧ ((f q).state = q.state ∨
      q.state = .sleeping ∧ (f q).state = .runnable)) :
    ∀ w : World n, Inv w → (life n policy).At c h F w →
      ∃ g, Move policy ⟨h,c,nested⟩ none held w (w.1.modify x f,g) ∧
        (life n policy).At c h F (w.1.modify x f,g) := by
  rintro w hi ⟨hh,hw⟩
  obtain ⟨hmild,hstate⟩ := hf (w.1.proc x)
  rcases hstate with hstate | ⟨hsleep,hrunnable⟩
  · exact hF.keep hi hh hw hmild hstate
  · have hph : w.2.phase x = .sleeping := Phase.eq_sleeping ((hi.state x).symm.trans hsleep)
    have hdeed : Deed policy (⟨h,c,nested⟩ : Agent (Fin n) Slot) w.1.ticks x (w.2.phase x)
        (w.1.proc x) .runnable (f (w.1.proc x)) := by
      rw [hph]
      exact .rouse hmild
    refine ⟨_,Move.deed x f .runnable (hF.active hh hw) (hF.able hw) hdeed hrunnable (Or.inl hx),
      ?_,hF.slot hmild (Or.inr ⟨rfl,by rw [hph]; rfl⟩) hw⟩
    refine Home.slot hh (by rw [hph]; rfl) (fun p hp hx => ?_)
    have hrun := hh.running p hp
    rw [← hx, hph] at hrun
    cases hrun

theorem Proc.wake_state (q : Proc) (chan : Option Chan) : (q.wake chan).state = q.state ∨
    q.state = .sleeping ∧ (q.wake chan).state = .runnable := by
  unfold Proc.wake
  split
  · by_cases hsleep : q.state = .sleeping
    · exact Or.inr ⟨hsleep,by simp [hsleep]⟩
    · exact Or.inl (by simp [hsleep])
  · exact Or.inl rfl

/-- The wakeups of `clockintr`, which the timer makes before its accounts. -/
theorem Posture.wakeTicks (hF : Posture policy c nested F)
    (hduty : ∀ w, F w → ∀ p, c = some p → nested = false → w.2.duty p = .ticked)
    (hx : .proc x ∈ held) :
    ∀ w : World n, Inv w → (life n policy).At c h F w →
      ∃ g, Move policy ⟨h,c,nested⟩ none held w (w.1.modify x (Proc.wake (some .ticks)),g) ∧
        (life n policy).At c h F (w.1.modify x (Proc.wake (some .ticks)),g) := by
  rintro w hi ⟨hh,hw⟩
  have hmild := (w.1.proc x).wake_mild (some .ticks)
  have hmove : ∀ ph, ph = w.2.phase x ∨ (w.1.proc x).chan = some .ticks ∧
      w.2.phase x = .sleeping ∧ ph = .runnable →
      ((w.1.proc x).wake (some .ticks)).state = ph.state →
      ∃ g, Move policy ⟨h,c,nested⟩ none held w (w.1.modify x (Proc.wake (some .ticks)),g) ∧
        (life n policy).At c h F (w.1.modify x (Proc.wake (some .ticks)),g) := by
    intro ph hph hstate
    have hseat : (w.2.phase x).seated = ph.seated := by
      rcases hph with rfl | ⟨_,hsleep,rfl⟩
      · rfl
      · rw [hsleep]
        rfl
    have hsame : (w.2.setPhase x ph).setSeat h (reseat (w.2.phase x) ph x (w.2.seat h)) =
        w.2.setPhase x ph := by
      rw [reseat_same hseat]
      exact Ghost.setSeat_eq_self _ h
    refine ⟨_,Move.wakeTicks x ph (hF.active hh hw) hx (hduty w hw) hph hstate,?_⟩
    rw [← hsame]
    refine ⟨Home.slot hh hseat (fun p hp hxp => ?_),hF.slot hmild ?_ hw⟩
    · rcases hph with rfl | ⟨_,hsleep,_⟩
      · exact hxp ▸ hh.running p hp
      · rw [hxp, hh.running p hp] at hsleep
        cases hsleep
    · exact hph.imp_right (fun ⟨_,hsleep,hrun⟩ => ⟨hrun,by rw [hsleep]; rfl⟩)
  by_cases hchan : (w.1.proc x).chan = some .ticks ∧ (w.1.proc x).state = .sleeping
  · have hph : w.2.phase x = .sleeping := Phase.eq_sleeping ((hi.state x).symm.trans hchan.2)
    exact hmove .runnable (Or.inr ⟨hchan.1,hph,rfl⟩) (by simp [Proc.wake,hchan,Phase.state])
  · refine hmove (w.2.phase x) (Or.inl rfl) ?_
    rw [← hi.state x]
    unfold Proc.wake
    split
    · next hc =>
      have hawake : (w.1.proc x).state ≠ .sleeping := fun hs => hchan ⟨hc,hs⟩
      simp [hawake]
    · rfl

/-! ## Sleep and wakeup -/

theorem forProcs_keeps {C : Thread n → Prop} {f : Slot → Thread n → Thread n} {k : Thread n}
    (hk : C k) (hf : ∀ p k, C k → C (f p k)) : C (forProcs f k) :=
  List.foldrRecOn _ _ hk (fun k hk p _ => hf p k hk)

section Sleep
variable {k : Thread n}

theorem wakeup_keeps (hF : Capable policy c nested F) (hne : held ≠ []) (chan : Option Chan)
    (hk : Keeps policy c nested k h held ((life n policy).At c h F)) :
    Keeps policy c nested (wakeup chan k) h held ((life n policy).At c h F) := by
  refine forProcs_keeps (C := fun k => Keeps policy c nested k h held _) hk (fun p k hk => ?_)
  exact Protocol.Meets.section (hF.rouse List.mem_cons_self
    (fun q => ⟨q.wake_mild chan,q.wake_state chan⟩)) hne hF.firm.point hk

theorem wakeupTicks_keeps (hF : Posture policy c nested F)
    (hduty : ∀ w, F w → ∀ p, c = some p → nested = false → w.2.duty p = .ticked) (hne : held ≠ [])
    (hk : Keeps policy c nested k h held ((life n policy).At c h F)) :
    Keeps policy c nested (wakeup (some .ticks) k) h held ((life n policy).At c h F) := by
  refine forProcs_keeps (C := fun k => Keeps policy c nested k h held _) hk (fun p k hk => ?_)
  exact Protocol.Meets.section (hF.wakeTicks hduty List.mem_cons_self) hne hF.firm.point hk

/-- A process that has given up its hart switches to the scheduler, and goes on
where it is resumed. -/
theorem sched_keeps {P : World n → Prop} (hF : (life n policy).Firm (some p) F)
    (hP : (life n policy).Steady (some p) h [.proc p] P)
    (hw : ∀ w, P w → w.2.seat h = none ∧ F w)
    (hk : ∀ h', Keeps policy (some p) nested k h' [.proc p] ((life n policy).At (some p) h' F)) :
    Keeps policy (some p) nested (sched p k) h [.proc p] P := by
  have hne : ∀ l : List Lock, Lock.proc p :: l ≠ [] := fun l => List.cons_ne_nil _ l
  refine Protocol.Meets.look (hne _) ⟨hP,fun t ht _ _ _ => ?_⟩ (fun s => ?_)
  · cases ht
    exact Or.inr List.mem_cons_self
  · split
    · trivial
    · exact ⟨rfl,⟨rfl,rfl⟩,fun w _ hP => (hw w hP).1,F,hF,fun w _ hP => (hw w hP).2,
        fun h' => .locked (hne _) hF.point (fun _ _ hv => hv) (hk h')⟩

/-- The process gives up its hart and is later resumed in the same posture. -/
theorem stop_keeps {f : Proc → Proc} (ph : Phase) (hF : Capable policy (some p) nested F)
    (hseat : ph.seated = false)
    (hdeed : ∀ ticks q, Deed policy (⟨h,some p,nested⟩ : Agent (Fin n) Slot) ticks p .running q ph
      (f q)) (hstate : ∀ q, (f q).state = ph.state)
    (hw : ∀ {w : World n} {s}, w.2.phase p = .running → F w →
      F (w.1.modify p f,(w.2.setPhase p ph).setSeat h s))
    (hk : Free policy (some p) nested F k) :
    Keeps policy (some p) nested (write p f (sched p (.release (.proc p) k))) h [.proc p]
      ((life n policy).At (some p) h F) := by
  have hsteady : (life n policy).Steady (some p) h [.proc p]
      (fun w => w.2.seat h = none ∧ F w) := (seat_steady none).and hF.firm.steady
  refine Protocol.Meets.act (Q := fun w => w.2.seat h = none ∧ F w) ?_ (List.cons_ne_nil _ _)
    ⟨hsteady,fun t ht _ _ _ => ?_⟩ (sched_keeps hF.firm hsteady (fun w hw => hw) fun h' =>
      Protocol.Meets.release_free hF.firm (fun _ _ hw => hw) hk)
  · rintro w hi ⟨hh,hw'⟩
    have hrun := hh.running p rfl
    have hd := hdeed w.1.ticks (w.1.proc p)
    rw [← hrun] at hd
    refine ⟨_,Move.deed p f ph (hF.active hh hw') (hF.able hw') hd (hstate _)
      (Or.inl List.mem_cons_self),?_,hw hrun hw'⟩
    rw [Ghost.setSeat_self, reseat_stop (by rw [hrun]; rfl) hseat]
  · cases ht
    exact Or.inr List.mem_cons_self

theorem yield_keeps (hF : Capable policy (some p) nested F) (hfifo : nested = false → policy ≠ .fifo)
    (hk : Free policy (some p) nested F k) : Free policy (some p) nested F (yield p k) := by
  intro h
  have hmild : ∀ q : Proc, q.Mild { q with state := .runnable } := fun q => ⟨rfl,fun h => h⟩
  exact stop_keeps .runnable hF rfl (fun _ q => .yield (hmild q) rfl hfifo) (fun _ => rfl)
    (fun hrun hw => hF.slot (hmild _) (Or.inr ⟨rfl,by rw [hrun]; rfl⟩) hw) hk

theorem sleepPrepare_keeps (hF : Capable policy c nested F) (hne : held ≠ []) (chan : Chan)
    (hk : Keeps policy c nested k h held ((life n policy).At c h F)) :
    Keeps policy c nested (sleepPrepare p chan k) h held ((life n policy).At c h F) :=
  Protocol.Meets.section (hF.touch (fun _ => ⟨⟨rfl,fun h => h⟩,rfl⟩)) hne hF.firm.point hk

theorem sleep_keeps (hk : Free policy (some p) false (Poised p rested) k) :
    Free policy (some p) false (Poised p rested) (sleep policy p k) := by
  intro h
  have hF : Capable policy (some p) false (Poised p rested : World n → Prop) := rested_capable
  refine Protocol.Meets.acquire (Protocol.Meets.look (List.cons_ne_nil _ _) hF.firm.point
    (fun s => ?_))
  split
  · refine stop_keeps .sleeping hF rfl (fun _ q => .sleep ⟨rfl,fun h => h⟩ rfl rfl)
      (fun _ => rfl) (fun hrun hw => ⟨?_,?_⟩) hk
    · simp [Phase.alive]
    · simpa using hw.2
  · exact Protocol.Meets.release_free hF.firm (fun _ _ hw => hw) hk

theorem setkilled_keeps (hF : Capable policy c nested F) (hk : Free policy c nested F k) :
    Free policy c nested F (setkilled p k) := by
  intro h
  exact Protocol.Meets.section_free (hF.touch (fun _ => ⟨⟨rfl,fun _ => rfl⟩,rfl⟩)) hF.firm hk

theorem killed_keeps (hF : (life n policy).Firm c F) {k : Bool → Thread n} (hne : held ≠ [])
    (hk : ∀ b, Keeps policy c nested (k b) h held ((life n policy).At c h F)) :
    Keeps policy c nested (killed p k) h held ((life n policy).At c h F) :=
  Protocol.Meets.acquire (Protocol.Meets.look (List.cons_ne_nil _ _) hF.point
    (fun s => Protocol.Meets.release hne hF.point (fun _ _ hw => hw) (hk (s.proc p).killed)))

/-- With no other lock held, a process that finds itself killed stays so. -/
theorem killed_free {G : Bool → World n → Prop}
    {k : Bool → Thread n} (hG : ∀ b, (life n policy).Firm (some p) (G b))
    (hw : ∀ w : World n, F w → G (w.1.proc p).killed w)
    (hk : ∀ b, Free policy (some p) nested (G b) (k b)) :
    Free policy (some p) nested F (killed p k) := by
  intro h s _
  refine .locked (List.cons_ne_nil _ _) (hG (s.proc p).killed).point ?_
    (Protocol.Meets.release_free (hG _) (fun _ _ hv => hv) (hk _))
  rintro w _ ⟨⟨hh,hv⟩,rfl⟩
  exact ⟨hh,hw w hv⟩

end Sleep

/-! ## Exit -/

theorem reparent_keeps {k : Thread n} (hF : Capable policy c nested F) (hne : held ≠ [])
    (hk : Keeps policy c nested k h held ((life n policy).At c h F)) :
    Keeps policy c nested (reparent p k) h held ((life n policy).At c h F) := by
  refine forProcs_keeps (C := fun k => Keeps policy c nested k h held _) hk (fun pp k hk => ?_)
  refine Protocol.Meets.look hne hF.firm.point (fun s => ?_)
  split
  · exact Protocol.Meets.act (hF.touch (fun _ => ⟨⟨rfl,fun h => h⟩,rfl⟩)) hne hF.firm.point
      (wakeup_keeps hF hne _ hk)
  · exact hk

/-- The process has written its `etime` and still has its hart. -/
def Leaving (p : Slot) (h : Fin n) (w : World n) : Prop :=
  w.2.seat h = some p ∧ w.2.phase p = .leaving

theorem leaving_point (hp : .proc p ∈ held) :
    (life n policy).Point Lock.proc (some p) h held (Leaving p h) := by
  refine ⟨(seat_steady _).and (phase_steady hp (· = .leaving)),fun t ht _ _ _ => ?_⟩
  cases ht
  exact Or.inr hp

theorem die_keeps (status : ℤ) : Keeps policy (some p) false
    (write p (fun q => { q with xstate := status, state := .zombie })
      (.release .wait (sched p .halt)) : Thread n) h [.proc p,.wait] (Leaving p h) := by
  have hsteady : ∀ held, (life n policy).Steady (some p) h held
      (fun w => w.2.seat h = none ∧ True) :=
    fun held => (seat_steady none).and (fun _ _ _ _ _ _ _ _ _ _ _ => trivial)
  have hpoint : ∀ held : List Lock, .proc p ∈ held → (life n policy).Point Lock.proc (some p) h held
      (fun w => w.2.seat h = none ∧ True) := by
    refine fun held hp => ⟨hsteady held,fun t ht _ _ _ => ?_⟩
    cases ht
    exact Or.inr hp
  refine Protocol.Meets.act ?_ (List.cons_ne_nil _ _) (hpoint _ List.mem_cons_self)
    (Protocol.Meets.release_from rfl (List.cons_ne_nil _ _) (hpoint _ List.mem_cons_self)
      (fun _ _ hw => hw) (sched_keeps (F := fun _ => True) (fun _ _ _ _ _ _ _ _ _ => trivial)
        (hsteady _) (fun _ hw => hw) (fun _ => trivial)))
  rintro w hi ⟨hseat,hph⟩
  refine ⟨_,Move.die p _ ⟨hseat,fun _ _ hn => by cases hn⟩ rfl rfl hph ⟨rfl,fun h => h⟩ rfl
    List.mem_cons_self,?_,trivial⟩
  simp

theorem leave_keeps {k : Thread n} (hk : Keeps policy (some p) false k h [.proc p,.wait]
    (Leaving p h)) : Keeps policy (some p) false (.acquire (.proc p) (.acquire .ticks
      (.look fun _ s => write p (fun q => { q with etime := s.ticks }) (.release .ticks k))))
      h [.wait] ((life n policy).At (some p) h (Poised p ready)) := by
  have hF : Capable policy (some p) false (Poised p ready : World n → Prop) := ready_capable
  refine Protocol.Meets.acquire (Protocol.Meets.acquire (fun s _ => ?_))
  refine .locked (Q := fun w => (life n policy).At (some p) h (Poised p ready) w ∧
    w.1.ticks = s.ticks) (List.cons_ne_nil _ _)
    (hF.firm.point.and (ticks_steady List.mem_cons_self _))
    (fun w _ hw => ⟨hw.1,by rw [hw.2]⟩) ?_
  refine Protocol.Meets.act ?_ (List.cons_ne_nil _ _)
    (leaving_point (List.mem_cons_of_mem _ List.mem_cons_self))
    (Protocol.Meets.release (List.cons_ne_nil _ _) (leaving_point List.mem_cons_self)
      (fun _ _ hw => hw) hk)
  rintro w hi ⟨⟨hh,hready⟩,hticks⟩
  have hrun := hh.running p rfl
  have hdeed : Deed policy (⟨h,some p,false⟩ : Agent (Fin n) Slot) w.1.ticks p (w.2.phase p)
      (w.1.proc p) .leaving { w.1.proc p with etime := s.ticks } := by
    rw [hrun, hticks]
    exact .leave ⟨rfl,fun h => h⟩ rfl rfl
  refine ⟨_,Move.deed p _ .leaving (hF.active hh hready) (hF.able hready) hdeed
    ((hi.state p).trans (by rw [hrun]; rfl)) (Or.inl (by simp)),?_,by simp⟩
  rw [Ghost.setSeat_self, reseat_same (by rw [hrun]; rfl), hh.seat]

theorem kexit_keeps (status : ℤ) :
    Free policy (some p) false (Poised p ready) (kexit p status : Thread n) := by
  intro h
  have hF : Capable policy (some p) false (Poised p ready : World n → Prop) := ready_capable
  have hne : ([.wait] : List Lock) ≠ [] := List.cons_ne_nil _ _
  refine Protocol.Meets.look_free hF.firm (fun s h' => ?_)
  split
  · trivial
  · exact Protocol.Meets.acquire (reparent_keeps hF hne (Protocol.Meets.look hne hF.firm.point
      (fun s => wakeup_keeps hF hne _ (leave_keeps (die_keeps status)))))

theorem Free.weaken {F' : World n → Prop} {k : Thread n} (hk : Free policy c nested F' k)
    (hw : ∀ w, F w → F' w) : Free policy c nested F k :=
  fun h => (hk h).weaken (fun w _ hat => ⟨hat.1,hw w hat.2⟩)

theorem exit_keeps (status : ℤ) :
    Free policy (some p) false (Poised p rested) (kexit p status : Thread n) :=
  (kexit_keeps status).weaken (fun _ hw => ⟨hw.1,Or.inl hw.2⟩)

/-- The return to user mode. -/
theorem done_keeps : Free policy (some p) false (Poised p rested) (.done : Thread n) := by
  refine fun h _ => ⟨Option.some_ne_none p,fun w _ hw q hq => ?_⟩
  cases hq
  exact hw.2.2

theorem userReturn_keeps :
    Free policy (some p) false (Poised p rested) (userReturn p : Thread n) := by
  refine killed_free (G := fun _ => Poised p rested) (fun _ => poised_firm rested_mono)
    (fun _ hw => hw) (fun b => ?_)
  split
  · exact exit_keeps _
  · exact done_keeps

theorem ret_keeps (value : ℤ) :
    Free policy (some p) false (Poised p rested) (ret p value : Thread n) := fun _ =>
  Protocol.Meets.act_free (rested_capable.touch (fun _ => ⟨⟨rfl,fun h => h⟩,rfl⟩))
    rested_capable.firm userReturn_keeps

/-! ## Fork -/

/-- A step in the life of a process without a hart, by another process. -/
theorem deed_other {w : World n} {f : Proc → Proc} {ph ph' : Phase} {Q : World n → Prop}
    (hw : (life n policy).At (some p) h (Poised p rested) w) (hx : .proc x ∈ held)
    (hph : w.2.phase x = ph) (hseat : ph.seated = false) (hseat' : ph'.seated = false)
    (hd : Deed policy (⟨h,some p,false⟩ : Agent (Fin n) Slot) w.1.ticks x ph (w.1.proc x) ph'
      (f (w.1.proc x))) (hstate : (f (w.1.proc x)).state = ph'.state)
    (hQ : ∀ g : Ghost n, (life n policy).At (some p) h (Poised p rested) (w.1.modify x f,g) →
      g.phase x = ph' → Q (w.1.modify x f,g)) :
    ∃ g, Move policy ⟨h,some p,false⟩ none held w (w.1.modify x f,g) ∧ Q (w.1.modify x f,g) := by
  have hF : Capable policy (some p) false (Poised p rested : World n → Prop) := rested_capable
  obtain ⟨hh,hready⟩ := hw
  have hpx : p ≠ x := by
    rintro rfl
    rw [← hph, hh.running p rfl] at hseat
    cases hseat
  subst hph
  refine ⟨_,Move.deed x f ph' (hF.active hh hready) (hF.able hready) hd hstate (Or.inl hx),
    hQ _ ⟨Home.slot hh (hseat.trans hseat'.symm) ?_,?_,?_⟩ (by simp)⟩
  · intro q hq hxq
    cases hq
    exact absurd hxq.symm hpx
  · simpa [hpx] using hready.1
  · simpa [hpx] using hready.2

theorem making_point (x : Slot) (stage : Stage) : (life n policy).Point Lock.proc (some p) h held
    ((life n policy).At (some p) h (Making p x stage)) :=
  Protocol.Firm.point making_capable.firm

theorem discard_keeps {stage : Stage} {k : Thread n}
    (hk : Free policy (some p) false (Poised p rested) k) :
    Keeps policy (some p) false (freeproc x (.release (.proc x) k)) h [.proc x]
      ((life n policy).At (some p) h (Making p x stage)) := by
  have hF : Capable policy (some p) false (Poised p rested : World n → Prop) := rested_capable
  refine Protocol.Meets.act (fun w _ hw => ?_) (List.cons_ne_nil _ _) hF.firm.point
    (Protocol.Meets.release_free hF.firm (fun _ _ hw => hw) hk)
  exact deed_other ⟨hw.1,hw.2.1⟩ List.mem_cons_self hw.2.2 rfl rfl (.discard rfl rfl) rfl
    (fun _ hat _ => hat)

/-- The part of `allocproc` that writes the accounts. -/
theorem stamp_keeps {k : Thread n} (hk : Keeps policy (some p) false k h [.proc x]
    ((life n policy).At (some p) h (Making p x .fresh))) :
    Keeps policy (some p) false (.acquire .ticks (.look fun _ s =>
      write x (fun q => { q with ctime := s.ticks }) (.release .ticks
        (write x (fun q => { q with rtime := 0, wtime := 0, etime := 0, firstRun := -1 }) k))))
      h [.proc x] ((life n policy).At (some p) h (Making p x .claimed)) := by
  have hne : ∀ (l : Lock) (ls : List Lock), l :: ls ≠ [] := List.cons_ne_nil
  have hstamp : ∀ w : World n, Inv w → (life n policy).At (some p) h (Making p x .stamped) w →
      ∃ g, Move policy ⟨h,some p,false⟩ none [.proc x] w (w.1.modify x (fun q =>
          { q with rtime := 0, wtime := 0, etime := 0, firstRun := -1 }),g) ∧
        (life n policy).At (some p) h (Making p x .fresh) (w.1.modify x (fun q =>
          { q with rtime := 0, wtime := 0, etime := 0, firstRun := -1 }),g) := by
    intro w hi hw
    refine deed_other ⟨hw.1,hw.2.1⟩ List.mem_cons_self hw.2.2 rfl rfl
      (.reset ⟨rfl,fun h => h⟩ rfl rfl) ?_ (fun _ hat hph => ⟨hat.1,hat.2,hph⟩)
    exact (hi.state x).trans (by rw [hw.2.2]; rfl)
  refine Protocol.Meets.acquire (fun s _ => .locked (hne _ _)
    ((making_point x .claimed).and (ticks_steady List.mem_cons_self s.ticks))
    (fun w _ hw => ⟨hw.1,by rw [hw.2]⟩) (Protocol.Meets.act (fun w hi hw => ?_) (hne _ _)
      (making_point x .stamped) (Protocol.Meets.release (hne _ _) (making_point x _)
        (fun _ _ hw => hw) (Protocol.Meets.act hstamp (hne _ _) (making_point x _) hk))))
  obtain ⟨⟨hh,hready,hph⟩,hticks⟩ := hw
  refine deed_other ⟨hh,hready⟩ (by simp) hph rfl rfl (.stamp ?_ rfl rfl) ?_
    (fun _ hat hph => ⟨hat.1,hat.2,hph⟩)
  · rw [hticks]
    exact ⟨rfl,fun h => h⟩
  · exact (hi.state x).trans (by rw [hph]; rfl)

/-- `allocproc` holds the lock of an unused slot. -/
def Found (policy : Policy) (p x : Slot) (h : Fin n) (w : World n) : Prop :=
  (life n policy).At (some p) h (Poised p rested) w ∧ w.2.phase x = .unused

theorem found_point (hx : .proc x ∈ held) :
    (life n policy).Point Lock.proc (some p) h held (Found policy p x h) :=
  Protocol.Point.and (Protocol.Firm.point rested_capable.firm) (phase_steady hx (· = .unused))

theorem allocpid_keeps {k : ℕ → Thread n}
    (hk : ∀ pid, Keeps policy (some p) false (k pid) h [.proc x] (Found policy p x h)) :
    Keeps policy (some p) false (allocpid k) h [.proc x] (Found policy p x h) := by
  have hF : Capable policy (some p) false (Poised p rested : World n → Prop) := rested_capable
  have hne : ∀ (l : Lock) (ls : List Lock), l :: ls ≠ [] := List.cons_ne_nil
  refine Protocol.Meets.acquire (Protocol.Meets.look (hne _ _) (found_point (by simp)) (fun s =>
    Protocol.Meets.act ?_ (hne _ _) (found_point (by simp)) (Protocol.Meets.release (hne _ _)
      (found_point List.mem_cons_self) (fun _ _ hw => hw) (hk _))))
  rintro w hi ⟨⟨hh,hready⟩,hph⟩
  exact ⟨_,Move.share (w.1.nextpid + 1) w.1.mlfqTicksSinceBoost (hF.active hh hready)
    (hF.able hready),⟨⟨hh.seat,hh.cpu,hh.running⟩,hF.shared rfl hready⟩,hph⟩

theorem allocFound_keeps (alloc : Alloc) {k : Option Slot → Thread n}
    (hnone : Free policy (some p) false (Poised p rested) (k none))
    (hsome : Keeps policy (some p) false (k (some x)) h [.proc x]
      ((life n policy).At (some p) h (Making p x .fresh))) :
    Keeps policy (some p) false (allocFound alloc x k) h [.proc x] (Found policy p x h) := by
  have hne : ∀ (l : Lock) (ls : List Lock), l :: ls ≠ [] := List.cons_ne_nil
  have hspawn : Keeps policy (some p) false (.spawn x (.forkret x)
      (write x (fun q => { q with priority := 0, ticksUsed := 0 })
        (.acquire .ticks (.look fun _ s =>
          write x (fun q => { q with ctime := s.ticks }) (.release .ticks
            (write x (fun q => { q with rtime := 0, wtime := 0, etime := 0, firstRun := -1 })
              (k (some x))))))) : Thread n) h [.proc x]
      ((life n policy).At (some p) h (Making p x .claimed)) := by
    refine ⟨⟨rfl,rfl⟩,⟨_,duty_firm (·.free = true),fun w hi hw => hi.resting x ?_,
      fun _ _ _ hat => hat⟩,.locked (hne _ _) (making_point x _) (fun _ _ hw => hw)
        (Protocol.Meets.act (making_capable.touch (fun _ => ⟨⟨rfl,fun h => h⟩,rfl⟩)) (hne _ _)
          (making_point x _) (stamp_keeps hsome))⟩
    rw [hw.2.2]
    rfl
  refine allocpid_keeps (fun pid => Protocol.Meets.act (fun w _ hw => ?_) (hne _ _)
    (making_point x .claimed) ?_)
  · exact deed_other hw.1 List.mem_cons_self hw.2 rfl rfl (.claim rfl rfl) rfl
      (fun _ hat hph => ⟨hat.1,hat.2,hph⟩)
  · cases alloc with
    | ok => exact hspawn
    | noTrapframe => exact discard_keeps hnone
    | noPagetable => exact discard_keeps hnone
    | noCopy => exact hspawn

theorem allocproc_keeps (alloc : Alloc) {k : Option Slot → Thread n}
    (hnone : Free policy (some p) false (Poised p rested) (k none))
    (hsome : ∀ x h, Keeps policy (some p) false (k (some x)) h [.proc x]
      ((life n policy).At (some p) h (Making p x .fresh))) :
    Free policy (some p) false (Poised p rested) (allocproc alloc k) := by
  have hF : Capable policy (some p) false (Poised p rested : World n → Prop) := rested_capable
  unfold allocproc
  induction List.finRange nproc with
  | nil => exact hnone
  | cons x rest ih =>
    intro h
    refine Protocol.Meets.acquire (fun s _ => ?_)
    dsimp only
    split
    · next hunused =>
      refine .locked (List.cons_ne_nil _ _) (found_point List.mem_cons_self) ?_
        (allocFound_keeps alloc hnone (hsome x h))
      rintro w hi ⟨hw,rfl⟩
      exact ⟨hw,Phase.eq_unused ((hi.state x).symm.trans hunused)⟩
    · exact .locked (List.cons_ne_nil _ _) hF.firm.point (fun _ _ hw => hw.1)
        (Protocol.Meets.release_free hF.firm (fun _ _ hw => hw) ih)

theorem kfork_keeps (alloc : Alloc) :
    Free policy (some p) false (Poised p rested) (kfork p alloc : Thread n) := by
  have hF : Capable policy (some p) false (Poised p rested : World n → Prop) := rested_capable
  have hne : ∀ (l : Lock) (ls : List Lock), l :: ls ≠ [] := List.cons_ne_nil
  refine allocproc_keeps alloc (ret_keeps _) (fun x h => ?_)
  have hM : Capable policy (some p) false (Making p x .fresh : World n → Prop) := making_capable
  dsimp only
  split
  · exact discard_keeps (ret_keeps _)
  · refine Protocol.Meets.act (hM.touch (fun _ => ⟨⟨rfl,fun h => h⟩,rfl⟩)) (hne _ _)
      (making_point x _) (Protocol.Meets.look (hne _ _) (making_point x _) (fun s =>
        Protocol.Meets.release_free hM.firm (fun _ _ hw => hw) (fun h' =>
          Protocol.Meets.section_free (hM.touch (fun _ => ⟨⟨rfl,fun h => h⟩,rfl⟩)) hM.firm
            (fun h' => Protocol.Meets.section_free (fun w _ hw => ?_) hF.firm (ret_keeps _)))))
    exact deed_other ⟨hw.1,hw.2.1⟩ List.mem_cons_self hw.2.2 rfl rfl
      (.publish ⟨rfl,fun h => h⟩ rfl rfl) rfl (fun _ hat _ => hat)

/-! ## Wait and kill -/

/-- `waitx` holds the lock of an exited child. -/
def Exited (policy : Policy) (p x : Slot) (h : Fin n) (w : World n) : Prop :=
  (life n policy).At (some p) h (Poised p rested) w ∧ w.2.phase x = .zombie

theorem exited_point (hx : .proc x ∈ held) :
    (life n policy).Point Lock.proc (some p) h held (Exited policy p x h) :=
  Protocol.Point.and (Protocol.Firm.point rested_capable.firm) (phase_steady hx (· = .zombie))

theorem reap_keeps {k : Thread n} (hk : Free policy (some p) false (Poised p rested) k) :
    Keeps policy (some p) false (write x (fun q => { q with parent := none })
      (freeproc x (.release (.proc x) (.release .wait k)))) h [.proc x,.wait]
      (Exited policy p x h) := by
  have hF : Capable policy (some p) false (Poised p rested : World n → Prop) := rested_capable
  have hne : ∀ (l : Lock) (ls : List Lock), l :: ls ≠ [] := List.cons_ne_nil
  refine Protocol.Meets.act (fun w hi hw => ?_) (hne _ _) (exited_point List.mem_cons_self)
    (Protocol.Meets.act (fun w _ hw => ?_) (hne _ _) hF.firm.point (Protocol.Meets.release (hne _ _)
      hF.firm.point (fun _ _ hw => hw) (Protocol.Meets.release_free hF.firm (fun _ _ hw => hw) hk)))
  · refine deed_other hw.1 List.mem_cons_self hw.2 rfl rfl (.touch ⟨rfl,fun h => h⟩) ?_
      (fun _ hat hph => ⟨hat,hph⟩)
    exact (hi.state x).trans (by rw [hw.2])
  · exact deed_other hw.1 List.mem_cons_self hw.2 rfl rfl .reap rfl (fun _ hat _ => hat)

theorem waitScan_keeps (call : WaitCall) (l : List Slot) (havekids : Bool) :
    Keeps policy (some p) false (waitScan policy p call l havekids : Thread n) h [.wait]
      ((life n policy).At (some p) h (Poised p rested)) := by
  have hF : Capable policy (some p) false (Poised p rested : World n → Prop) := rested_capable
  have hne : ∀ (l : Lock) (ls : List Lock), l :: ls ≠ [] := List.cons_ne_nil
  have hret : ∀ value, Keeps policy (some p) false (.release .wait (ret p value) : Thread n) h
      [.wait] ((life n policy).At (some p) h (Poised p rested)) :=
    fun value => Protocol.Meets.release_free hF.firm (fun _ _ hw => hw) (ret_keeps value)
  induction l generalizing havekids with
  | nil =>
    cases havekids with
    | false => exact hret _
    | true =>
      refine killed_keeps hF.firm (hne _ _) (fun b => ?_)
      split
      · exact hret _
      · refine sleepPrepare_keeps hF (hne _ _) _ (Protocol.Meets.release_free hF.firm
          (fun _ _ hw => hw) (sleep_keeps (fun h' => Protocol.Meets.acquire ?_)))
        exact ⟨⟨rfl,rfl⟩,fun _ _ hw => hw⟩
  | cons pp rest ih =>
    refine Protocol.Meets.look (hne _ _) hF.firm.point (fun s => ?_)
    split
    · refine Protocol.Meets.acquire (fun s _ => ?_)
      dsimp only
      have hrelease : ∀ k : Thread n, Keeps policy (some p) false k h [.wait]
          ((life n policy).At (some p) h (Poised p rested)) →
          Keeps policy (some p) false (.release (.proc pp) k) h [.proc pp,.wait]
            ((life n policy).At (some p) h (Poised p rested)) :=
        fun k hk => Protocol.Meets.release (hne _ _) hF.firm.point (fun _ _ hw => hw) hk
      split
      · next hzombie =>
        split
        · refine .locked (hne _ _) (exited_point List.mem_cons_self) ?_ (reap_keeps (ret_keeps _))
          rintro w hi ⟨hw,rfl⟩
          exact ⟨hw,Phase.eq_zombie ((hi.state pp).symm.trans hzombie)⟩
        · exact .locked (hne _ _) hF.firm.point (fun _ _ hw => hw.1) (hrelease _ (hret _))
      · exact .locked (hne _ _) hF.firm.point (fun _ _ hw => hw.1) (hrelease _ (ih true))
    · exact ih havekids

theorem kkill_keeps (pid : ℕ) :
    Free policy (some p) false (Poised p rested) (kkill p pid : Thread n) := by
  have hF : Capable policy (some p) false (Poised p rested : World n → Prop) := rested_capable
  have hne : ∀ (l : Lock) (ls : List Lock), l :: ls ≠ [] := List.cons_ne_nil
  unfold kkill
  induction List.finRange nproc with
  | nil => exact ret_keeps _
  | cons q rest ih =>
    intro h
    refine Protocol.Meets.acquire (Protocol.Meets.look (hne _ _) hF.firm.point (fun s => ?_))
    split
    · refine Protocol.Meets.act (hF.rouse List.mem_cons_self (fun r => ⟨⟨rfl,fun _ => rfl⟩,?_⟩))
        (hne _ _) hF.firm.point
        (Protocol.Meets.release_free hF.firm (fun _ _ hw => hw) (ret_keeps _))
      by_cases hsleep : r.state = .sleeping
      · exact Or.inr ⟨hsleep,by simp [hsleep]⟩
      · exact Or.inl (by simp [hsleep])
    · exact Protocol.Meets.release_free hF.firm (fun _ _ hw => hw) ih

/-! ## Schedulers -/

/-- The process may be switched to. -/
def Ripe (policy : Policy) (x : Slot) (w : World n) : Prop :=
  w.2.phase x = .chosen ∨ w.2.phase x = .runnable ∧ (policy = .fifo → (w.1.proc x).firstRun ≠ -1)

theorem ripe_steady (hx : .proc x ∈ held) :
    (life n policy).Steady c h held (Ripe policy x) := by
  intro a tr held' w w' hi _ _ hl hm hw
  obtain ⟨hph,hfirst⟩ := hm.unlocked (hl _ hx)
  unfold Ripe
  rwa [hph, hfirst]

/-- Of the scheduler nothing but what it knows under its locks is asked. -/
theorem scheduler_point {P : World n → Prop} (hP : (life n policy).Steady none h held P) :
    (life n policy).Point Lock.proc none h held P :=
  ⟨hP,fun _ ht => by cases ht⟩

theorem dispatch_keeps : Keeps policy none false (dispatch x : Thread n) h [.proc x]
    (fun w => Home none h w ∧ Ripe policy x w) := by
  have hne : ([.proc x] : List Lock) ≠ [] := List.cons_ne_nil _ _
  have hstarted : (life n policy).Steady none h [.proc x]
      (fun w => w.2.seat h = some x ∧ w.2.phase x = .running) :=
    (seat_steady _).and (phase_steady List.mem_cons_self (· = .running))
  have hhome : (life n policy).Steady none h [.proc x] (Home (some x) h) :=
    fun _ _ _ _ _ hi hh _ _ hm hw => hm.home hi hh hw
  refine Protocol.Meets.act (fun w hi hw => ?_) hne (scheduler_point hstarted)
    (Protocol.Meets.look hne (scheduler_point hstarted) (fun s =>
      Protocol.Meets.act (fun w hi hw => ?_) hne (scheduler_point hhome)
        ⟨rfl,rfl,fun _ _ hw => hw⟩))
  · obtain ⟨hh,hripe⟩ := hw
    have hidle : (w.2.phase x).seated = false := by
      rcases hripe with hph | ⟨hph,_⟩
      · rw [hph]
        rfl
      · rw [hph]
        rfl
    refine ⟨_,Move.deed x _ .running ⟨hh.seat,fun _ hp => by cases hp⟩ (fun _ hp => by cases hp)
      (.start ⟨rfl,fun h => h⟩ rfl hripe) rfl (Or.inl List.mem_cons_self),?_,by simp⟩
    rw [Ghost.setSeat_self, reseat_start hidle rfl]
  · refine ⟨_,Move.setCpu (some x) rfl,hw.1,Function.update_self .., fun p hp => ?_⟩
    cases hp
    exact hw.2

/-- The scheduler holds the lock of a process that could run. -/
def Waiting (x : Slot) (h : Fin n) (w : World n) : Prop :=
  Home none h w ∧ (w.2.phase x).state = .runnable

theorem waiting_point (hx : .proc x ∈ held) :
    (life n policy).Point Lock.proc none h held (Waiting x h) :=
  scheduler_point (Protocol.Steady.and (fun _ _ _ _ _ hi hh _ _ hm hw => hm.home hi hh hw)
    (phase_steady hx (·.state = .runnable)))

theorem Waiting.ripe {w : World n} (hw : Waiting x h w)
    (hfirst : policy = .fifo → (w.1.proc x).firstRun ≠ -1) : Ripe policy x w := by
  rcases Phase.eq_runnable hw.2 with hph | hph
  · exact Or.inr ⟨hph,hfirst⟩
  · exact Or.inl hph

/-- The end of the scan, which records the first run. -/
theorem fifoScan_nil_keeps : Keeps .fifo none false (fifoScan [] (some x) : Thread n) h [.proc x]
    (Waiting x h) := by
  have hne : ∀ (l : Lock) (ls : List Lock), l :: ls ≠ [] := List.cons_ne_nil
  have hripe : ∀ held, .proc x ∈ held → (life n .fifo).Point Lock.proc none h held
      (fun w => Home none h w ∧ Ripe .fifo x w) := fun held hx =>
    scheduler_point (Protocol.Steady.and (fun _ _ _ _ _ hi hh _ _ hm hw => hm.home hi hh hw)
      (ripe_steady hx))
  intro s _
  dsimp only
  split
  · next hfirst =>
    have hnew : ∀ held, .proc x ∈ held → (life n .fifo).Point Lock.proc none h held
        (fun w => Waiting x h w ∧ (w.1.proc x).firstRun = -1) :=
      fun held hx => (waiting_point hx).and (firstRun_steady hx (· = -1))
    refine .locked (hne _ _) (hnew _ List.mem_cons_self) (fun w _ hw => ⟨hw.1,by rw [hw.2, hfirst]⟩)
      (Protocol.Meets.acquire (fun s _ => .locked (hne _ _) ((hnew _ (by simp)).and
        (ticks_steady List.mem_cons_self s.ticks)) (fun w _ hw => ⟨hw.1,by rw [hw.2]⟩)
        (Protocol.Meets.act (fun w hi hw => ?_) (hne _ _) (hripe _ (by simp))
          (Protocol.Meets.release (hne _ _) (hripe _ List.mem_cons_self) (fun _ _ hw => hw)
            dispatch_keeps))))
    obtain ⟨⟨⟨hh,hstate⟩,hfirst⟩,hticks⟩ := hw
    have hidle : (w.2.phase x).seated = false := by
      rcases Phase.eq_runnable hstate with hph | hph
      · rw [hph]
        rfl
      · rw [hph]
        rfl
    refine ⟨_,Move.deed x _ .chosen ⟨hh.seat,fun _ hp => by cases hp⟩ (fun _ hp => by cases hp)
      (.choose ?_ rfl hfirst hstate rfl) ((hi.state x).trans hstate) (Or.inl (by simp)),
      Home.slot hh hidle (fun _ hp => by cases hp),Or.inl (by simp)⟩
    rw [hticks]
    exact ⟨rfl,fun h => h⟩
  · next hfirst =>
    refine .locked (hne _ _) (hripe _ List.mem_cons_self) ?_ dispatch_keeps
    rintro w _ ⟨hw,rfl⟩
    exact ⟨hw.1,hw.ripe (fun _ => hfirst)⟩

/-- The scan keeps the lock of the earliest process found so far. -/
theorem fifoScan_keeps (l : List Slot) :
    Free .fifo none false (fun _ => True) (fifoScan l none : Thread n) ∧
      ∀ e h, Keeps .fifo none false (fifoScan l (some e) : Thread n) h [.proc e] (Waiting e h) := by
  have hne : ∀ (l : Lock) (ls : List Lock), l :: ls ≠ [] := List.cons_ne_nil
  have hF : Capable .fifo none false (fun _ : World n => True) := idle_capable
  induction l with
  | nil => exact ⟨fun h => ⟨⟨rfl,rfl⟩,fun _ _ hw => hw.1⟩,fun e h => fifoScan_nil_keeps⟩
  | cons p rest ih =>
    obtain ⟨ihnone,ihsome⟩ := ih
    refine ⟨fun h => Protocol.Meets.acquire (fun s _ => ?_),fun e h =>
      Protocol.Meets.acquire (fun s _ => ?_)⟩
    · dsimp only
      split
      · next hstate =>
        refine .locked (hne _ _) (waiting_point List.mem_cons_self) ?_ (ihsome p h)
        rintro w hi ⟨hw,rfl⟩
        exact ⟨hw.1,(hi.state p).symm.trans hstate⟩
      · exact .locked (hne _ _) hF.firm.point (fun _ _ hw => hw.1)
          (Protocol.Meets.release_free hF.firm (fun _ _ hw => hw) ihnone)
    · dsimp only
      split
      · next hstate =>
        have herase : ([.proc p,.proc e] : List Lock).erase (.proc e) = [.proc p] := by
          by_cases hpe : p = e
          · simp [hpe]
          · simp [hpe]
        refine .locked (hne _ _) (waiting_point List.mem_cons_self) ?_
          (Protocol.Meets.release_from herase (hne _ _) (waiting_point List.mem_cons_self)
            (fun _ _ hw => hw) (ihsome p h))
        rintro w hi ⟨hw,rfl⟩
        exact ⟨hw.1,(hi.state p).symm.trans hstate.1⟩
      · exact .locked (hne _ _) (waiting_point (by simp)) (fun _ _ hw => hw.1)
          (Protocol.Meets.release (hne _ _) (waiting_point List.mem_cons_self) (fun _ _ hw => hw)
            (ihsome e h))

/-- One look of the other schedulers. -/
theorem scan_keeps {k : Thread n} {C : Data n → Prop} [∀ s, Decidable (C s)] (hfifo : policy ≠ .fifo)
    (hC : ∀ s, C s → (s.proc x).state = .runnable)
    (hk : Free policy none false (fun _ => True) k) :
    Free policy none false (fun _ => True) (.acquire (.proc x) (.look fun _ s =>
      if C s then dispatch x else .release (.proc x) k)) := by
  have hne : ∀ (l : Lock) (ls : List Lock), l :: ls ≠ [] := List.cons_ne_nil
  have hF : Capable policy none false (fun _ : World n => True) := idle_capable
  refine fun h => Protocol.Meets.acquire (fun s _ => ?_)
  dsimp only
  split
  · next hstate =>
    refine .locked (hne _ _) (scheduler_point (Protocol.Steady.and
      (fun _ _ _ _ _ hi hh _ _ hm hw => hm.home hi hh hw) (ripe_steady List.mem_cons_self)))
      ?_ dispatch_keeps
    rintro w hi ⟨hw,rfl⟩
    have hwait : Waiting x h w := ⟨hw.1,(hi.state x).symm.trans (hC _ hstate)⟩
    exact ⟨hw.1,hwait.ripe (fun h => absurd h hfifo)⟩
  · exact .locked (hne _ _) hF.firm.point (fun _ _ hw => hw.1)
      (Protocol.Meets.release_free hF.firm (fun _ _ hw => hw) hk)

theorem mlfqBoost_keeps {k : Thread n} (hk : Free policy none false (fun _ => True) k) :
    Free policy none false (fun _ => True) (mlfqBoost k) := by
  have hne : ∀ (l : Lock) (ls : List Lock), l :: ls ≠ [] := List.cons_ne_nil
  have hF : Capable policy none false (fun _ : World n => True) := idle_capable
  have hrelease : ∀ h, Keeps policy none false (.release .ticks k) h [.ticks]
      ((life n policy).At none h (fun _ => True)) :=
    fun h => Protocol.Meets.release_free hF.firm (fun _ _ hw => hw) hk
  refine fun h => Protocol.Meets.acquire (Protocol.Meets.look (hne _ _) hF.firm.point (fun s => ?_))
  split
  · refine Protocol.Meets.act (fun w _ hw => ?_) (hne _ _) hF.firm.point (forProcs_keeps
      (C := fun k => Keeps policy none false k h [.ticks] _) (hrelease h) (fun p k hk => ?_))
    · exact ⟨_,Move.share w.1.nextpid w.1.ticks (hF.active hw.1 trivial) (hF.able hw.2),
        ⟨hw.1.seat,hw.1.cpu,hw.1.running⟩,trivial⟩
    · exact Protocol.Meets.section (hF.touch (fun _ => ⟨⟨rfl,fun h => h⟩,rfl⟩)) (hne _ _)
        hF.firm.point hk
  · exact hrelease h

theorem mlfqScan_keeps (hfifo : policy ≠ .fifo) (l : List (ℕ × Slot)) :
    Free policy none false (fun _ => True) (mlfqScan l : Thread n) := by
  induction l with
  | nil => exact fun h => ⟨⟨rfl,rfl⟩,fun _ _ hw => hw.1⟩
  | cons qp rest ih => exact scan_keeps hfifo (fun _ hC => hC.1) ih

theorem roundRobinScan_keeps (hfifo : policy ≠ .fifo) (l : List Slot) :
    Free policy none false (fun _ => True) (roundRobinScan l : Thread n) := by
  induction l with
  | nil => exact fun h => ⟨⟨rfl,rfl⟩,fun _ _ hw => hw.1⟩
  | cons p rest ih => exact scan_keeps hfifo (fun _ hC => hC) ih

theorem scheduler_keeps : Free policy none false (fun _ => True) (scheduler policy : Thread n) := by
  cases policy with
  | fifo => exact (fifoScan_keeps _).1
  | mlfq => exact mlfqBoost_keeps (mlfqScan_keeps (by decide) _)
  | roundRobin => exact roundRobinScan_keeps (by decide) _

theorem schedReturn_keeps : Keeps policy none false (schedReturn policy p : Thread n) h [.proc p]
    (fun w => w.2.seat h = none) := by
  have hne : ∀ (l : Lock) (ls : List Lock), l :: ls ≠ [] := List.cons_ne_nil
  have hF : Capable policy none false (fun _ : World n => True) := idle_capable
  refine Protocol.Meets.look (hne _ _) (scheduler_point (seat_steady none)) (fun s =>
    Protocol.Meets.act (fun w _ hw => ?_) (hne _ _) hF.firm.point
      (Protocol.Meets.release_free hF.firm (fun _ _ hw => hw) (fun h' => ?_)))
  · exact ⟨_,Move.setCpu none rfl,⟨hw,Function.update_self ..,fun _ hp => by cases hp⟩,trivial⟩
  · split
    · next hrr =>
      exact roundRobinScan_keeps (by rw [hrr]; decide) _ h'
    · exact ⟨⟨rfl,rfl⟩,fun _ _ hw => hw.1⟩

/-! ## Traps -/

/-- Only the first hart advances the clock, and then wakes those who wait for it. -/
theorem clockintr_keeps {T F' : World n → Prop} {k : Thread n}
    (hF : (life n policy).Firm c F) (hT : Posture policy c nested T)
    (hduty : ∀ w, T w → ∀ p, c = some p → nested = false → w.2.duty p = .ticked)
    (hF' : (life n policy).Firm c F')
    (htick : ∀ h w, Home c h w → F w → ∃ g, Move policy ⟨h,c,nested⟩ none [.ticks] w
      ({ w.1 with ticks := w.1.ticks + 1 },g) ∧
      (life n policy).At c h T ({ w.1 with ticks := w.1.ticks + 1 },g))
    (hnext : ∀ w, T w → F' w) (hskip : 1 < n → ∀ w, F w → F' w) (hk : Free policy c nested F' k) :
    Free policy c nested F (clockintr k) := by
  have hne : ([.ticks] : List Lock) ≠ [] := List.cons_ne_nil _ _
  refine fun h => Protocol.Meets.look_free hF (fun s h' => ?_)
  split
  · exact Protocol.Meets.acquire (Protocol.Meets.act (fun w _ hw => htick h' w hw.1 hw.2) hne
      hT.firm.point (wakeupTicks_keeps hT hduty hne
        (Protocol.Meets.release_free hF' (fun w _ hw => ⟨hw.1,hnext w hw.2⟩) hk)))
  · next hhart =>
    have hn : 1 < n := Nat.lt_of_le_of_lt (Nat.one_le_iff_ne_zero.mpr hhart) h.isLt
    exact hk.weaken (hskip hn) h'

theorem kerneltrap_keeps : Free policy c true (Caught c) (kerneltrap : Thread n) := by
  have hF : Capable policy c true (Caught c : World n → Prop) := caught_capable
  refine clockintr_keeps hF.firm hF.toPosture (fun _ _ _ _ hn => by cases hn) hF.firm
    (fun h w hh hw => ?_) (fun _ hw => hw) (fun _ _ hw => hw) (fun h s hs => ?_)
  · exact ⟨_,Move.tick (hF.active hh hw) rfl hh.cpu List.mem_cons_self,
      ⟨hh.seat,hh.cpu,hh.running⟩,hw⟩
  · obtain ⟨w,_,⟨hh,_⟩,rfl⟩ := hs
    refine .free hF.firm (fun _ _ hw => hw.1) ?_
    simp only [hh.cpu]
    cases c with
    | none => exact fun _ hn => by cases hn
    | some p => exact yield_keeps hF (fun hn => by cases hn) (fun _ hn => by cases hn)

/-- The accounts of the waiting processes, one lock at a time. -/
theorem countWaiting_keeps {k : Thread n} (hk : Free policy (some p) false (Poised p rested) k) :
    Free policy (some p) false
      (Poised p (fun dt _ => dt = .counting (others p (List.finRange nproc))))
      (countWaiting p k) := by
  unfold countWaiting forProcs
  induction List.finRange nproc with
  | nil =>
    refine hk.weaken (fun w hw => ⟨hw.1,?_⟩)
    rw [hw.2]
    rfl
  | cons x rest ih =>
    have hP : Posture policy (some p) false (Poised p (fun dt _ => dt = .counting (others p rest)) :
        World n → Prop) := poised_posture (fun _ h => h)
    rw [List.foldr_cons]
    by_cases hxp : x = p
    · rw [if_neg (fun h => h hxp)]
      have hsame : others p (x :: rest) = others p rest := by simp [others,hxp]
      rw [hsame]
      exact ih
    · rw [if_pos hxp]
      have hnext : others p (x :: rest) = x :: others p rest := by simp [others,hxp]
      rw [hnext]
      refine fun h => Protocol.Meets.section_free (fun w _ hw => ?_) hP.firm ih
      obtain ⟨hh,halive,hduty⟩ := hw
      exact ⟨_,Move.countWait p x _ ⟨hh.seat,fun _ _ hn => by cases hn⟩ rfl rfl hduty
        List.mem_cons_self,⟨hh.seat,hh.cpu,hh.running⟩,halive,by simp⟩

theorem mlfqTick_keeps (hfifo : policy ≠ .fifo) :
    Free policy (some p) false (Poised p rested) (mlfqTick p : Thread n) := by
  have hF : Capable policy (some p) false (Poised p rested : World n → Prop) := rested_capable
  have hyield : Free policy (some p) false (Poised p rested) (yield p .done : Thread n) :=
    yield_keeps hF (fun _ => hfifo) done_keeps
  refine fun h => Protocol.Meets.act_free (hF.touch (fun _ => ⟨⟨rfl,fun h => h⟩,rfl⟩)) hF.firm
    (fun h' => Protocol.Meets.look_free hF.firm (fun s h' => ?_))
  split
  · exact Protocol.Meets.act_free (hF.touch (fun _ => ⟨⟨rfl,fun h => h⟩,rfl⟩)) hF.firm hyield
  · split
    · exact hyield h'
    · exact done_keeps h'

theorem preempt_keeps :
    Free policy (some p) false (Poised p rested) (preempt policy p : Thread n) := by
  cases policy with
  | fifo => exact done_keeps
  | mlfq => exact mlfqTick_keeps (by decide)
  | roundRobin => exact yield_keeps rested_capable (fun _ => by decide) done_keeps

/-- Where the timer interrupt has come to after `clockintr`. -/
def clocked (n : ℕ) (dt : Duty) (_ : Bool) : Prop := dt = .ticked ∨ dt = .entered ∧ 1 < n

theorem timer_keeps : Free policy (some p) false (Poised p (fun dt _ => dt = .entered))
    (timer policy p : Thread n) := by
  have hT : Posture policy (some p) false (Poised p (fun dt _ => dt = .ticked) : World n → Prop) :=
    poised_posture (fun _ h => h)
  have hC : Posture policy (some p) false (Poised p (clocked n) : World n → Prop) :=
    poised_posture (fun _ h => h)
  have hR : Capable policy (some p) false (Poised p ready : World n → Prop) := ready_capable
  have hcount : Free policy (some p) false (Poised p (clocked n)) (write p (fun q =>
      { q with rtime := q.rtime + 1 }) (countWaiting p (preempt policy p)) : Thread n) := by
    refine fun h => Protocol.Meets.act_free (fun w _ hw => ?_) (poised_firm (fun _ h => h))
      (countWaiting_keeps preempt_keeps)
    obtain ⟨hh,halive,hduty⟩ := hw
    exact ⟨_,Move.countRun p ⟨hh.seat,fun _ _ hn => by cases hn⟩ rfl rfl (hh.running p rfl) hduty,
      ⟨hh.seat,hh.cpu,hh.running⟩,halive,by simp⟩
  refine clockintr_keeps (poised_firm (fun _ h => h)) hT (fun w hw q hq _ => ?_) hC.firm
    (fun h w hh hw => ?_) (fun w hw => ⟨hw.1,Or.inl hw.2⟩) (fun hn w hw => ⟨hw.1,Or.inr ⟨hw.2,hn⟩⟩)
    (killed_free (G := fun b => if b = true then Poised p ready else Poised p (clocked n))
      (fun b => ?_) (fun w hw => ?_) (fun b => ?_))
  · cases hq
    exact hw.2
  · exact ⟨_,Move.tickTimer p ⟨hh.seat,fun _ _ hn => by cases hn⟩ rfl rfl hh.cpu
      (hh.running p rfl) hw.2 List.mem_cons_self,⟨hh.seat,hh.cpu,hh.running⟩,hw.1,by simp⟩
  · split
    · exact hR.firm
    · exact hC.firm
  · split
    · next hb => exact ⟨hw.1,Or.inr hb⟩
    · exact hw
  · cases b with
    | true => exact kexit_keeps _
    | false => exact hcount

/-! ## System calls -/

theorem pauseLoop_keeps (ticks ticks0 : BitVec 32) :
    Keeps policy (some p) false (pauseLoop policy p ticks ticks0 : Thread n) h [.ticks]
      ((life n policy).At (some p) h (Poised p rested)) := by
  have hF : Capable policy (some p) false (Poised p rested : World n → Prop) := rested_capable
  have hne : ∀ (l : Lock) (ls : List Lock), l :: ls ≠ [] := List.cons_ne_nil
  have hret : ∀ value, Keeps policy (some p) false (.release .ticks (ret p value) : Thread n) h
      [.ticks] ((life n policy).At (some p) h (Poised p rested)) :=
    fun value => Protocol.Meets.release_free hF.firm (fun _ _ hw => hw) (ret_keeps value)
  refine Protocol.Meets.look (hne _ _) hF.firm.point (fun s => ?_)
  split
  · refine killed_keeps hF.firm (hne _ _) (fun b => ?_)
    split
    · exact hret _
    · refine sleepPrepare_keeps hF (hne _ _) _ (Protocol.Meets.release_free hF.firm
        (fun _ _ hw => hw) (sleep_keeps (fun h' => Protocol.Meets.acquire ?_)))
      exact ⟨⟨rfl,rfl⟩,fun _ _ hw => hw⟩
  · exact hret _

theorem run_keeps (call : Syscall) :
    Free policy (some p) false (Poised p rested) (call.run p : Thread n) := by
  have hF : Capable policy (some p) false (Poised p rested : World n → Prop) := rested_capable
  have hne : ∀ (l : Lock) (ls : List Lock), l :: ls ≠ [] := List.cons_ne_nil
  cases call with
  | fork alloc => exact kfork_keeps alloc
  | exit status => exact exit_keeps status
  | wait xstate => exact fun h => Protocol.Meets.acquire ⟨⟨rfl,rfl⟩,fun _ _ hw => hw⟩
  | waitx xstate rtime wtime retime =>
    exact fun h => Protocol.Meets.acquire ⟨⟨rfl,rfl⟩,fun _ _ hw => hw⟩
  | pause ticks =>
    exact fun h => Protocol.Meets.acquire (Protocol.Meets.look (hne _ _) hF.firm.point
      (fun s => ⟨⟨rfl,rfl⟩,fun _ _ hw => hw⟩))
  | kill pid => exact kkill_keeps pid
  | uptime =>
    exact fun h => Protocol.Meets.acquire (Protocol.Meets.look (hne _ _) hF.firm.point
      (fun s => Protocol.Meets.release_free hF.firm (fun _ _ hw => hw) (ret_keeps _)))

theorem syscall_keeps (call : Syscall) :
    Free policy (some p) false (Poised p rested) (syscall p call : Thread n) := by
  refine killed_free (G := fun _ => Poised p rested) (fun _ => poised_firm rested_mono)
    (fun _ hw => hw) (fun b => ?_)
  cases b with
  | true => exact exit_keeps _
  | false => exact run_keeps call

/-! ## The kernel -/

theorem body_keeps {e : Entry} (he : entryFor e c nested) (h : Fin n) :
    (life n policy).Stay Lock.proc c ((life n policy).Meets Lock.proc c nested (body policy e)) h
      (order.holds e) (entryPre e c h) := by
  have hne : ∀ (l : Lock) (ls : List Lock), l :: ls ≠ [] := List.cons_ne_nil
  have hready : ∀ {p} {k : Thread n}, Free policy (some p) false (Poised p rested) k →
      (life n policy).Stay Lock.proc (some p) ((life n policy).Meets Lock.proc (some p) false k) h []
        (fun w => Home (some p) h w ∧ Poised p rested w) :=
    fun hk => .free (poised_firm rested_mono) (fun _ _ hw => hw) hk
  have hlocked : ∀ {p l} {k : Thread n}, Keeps policy (some p) false k h [l]
      ((life n policy).At (some p) h (Poised p rested)) →
      (life n policy).Stay Lock.proc (some p) ((life n policy).Meets Lock.proc (some p) false k) h [l]
        (fun w => Home (some p) h w ∧ Poised p rested w) :=
    fun hk => .locked (hne _ _) (Protocol.Firm.point (poised_firm rested_mono)) (fun _ _ hw => hw) hk
  cases e with
  | kerneltrap =>
    cases he
    exact .free caught_firm (fun _ _ hw => hw) kerneltrap_keeps
  | scheduler =>
    obtain ⟨rfl,rfl⟩ := he
    have hF : Capable policy none false (fun _ : World n => True) := idle_capable
    exact .free hF.firm (fun _ _ hw => ⟨hw,trivial⟩) scheduler_keeps
  | schedReturn p =>
    obtain ⟨rfl,rfl⟩ := he
    exact .locked (hne _ _) (scheduler_point (seat_steady none)) (fun _ _ hw => hw)
      schedReturn_keeps
  | forkret p =>
    obtain ⟨rfl,rfl⟩ := he
    have hF : (life n policy).Firm (some p) (fun w => (w.2.duty p).free = true) :=
      duty_firm (·.free = true)
    refine .locked (hne _ _) hF.point (fun _ _ hw => hw) (Protocol.Meets.release_free hF
      (fun _ _ hw => hw) (fun _ _ => ⟨Option.some_ne_none p,fun w _ hw q hq => ?_⟩))
    cases hq
    exact hw.2
  | syscall p call =>
    obtain ⟨rfl,rfl⟩ := he
    exact hready (syscall_keeps call)
  | waitLoop p call =>
    obtain ⟨rfl,rfl⟩ := he
    exact hlocked (waitScan_keeps call _ false)
  | pauseLoop p ticks ticks0 =>
    obtain ⟨rfl,rfl⟩ := he
    exact hlocked (pauseLoop_keeps ticks ticks0)
  | timer p =>
    obtain ⟨rfl,rfl⟩ := he
    exact .free (poised_firm (fun _ h => h)) (fun _ _ hw => hw) timer_keeps
  | fault p =>
    obtain ⟨rfl,rfl⟩ := he
    exact hready (setkilled_keeps rested_capable userReturn_keeps)

theorem trap_enters {e : Entry} {user : Bool} {w : World n} (he : traps h w.1 user e = true)
    (hh : Home c h w)
    (huser : user = true → c ≠ none ∧ ∀ p, c = some p → (w.2.duty p).free = true) :
    entryFor e c (!user) ∧
      ∃ g, Move policy ⟨h,c,!user⟩ (some e) [] w (w.1,g) ∧ entryPre e c h (w.1,g) := by
  have hproc : ∀ {p : Slot}, (user && w.1.cpu h == some p) = true → user = true ∧ c = some p := by
    intro p hp
    obtain ⟨huser,hcpu⟩ := Bool.and_eq_true_iff.mp hp
    exact ⟨huser,hh.cpu.symm.trans (eq_of_beq hcpu)⟩
  have hactive : ∀ {p}, c = some p → Active (⟨h,c,false⟩ : Agent (Fin n) Slot) w :=
    fun _ => ⟨hh.seat,fun _ _ hn => by cases hn⟩
  have hready : ∀ {p}, c = some p →
      Home c h (w.1,w.2.setDuty p .off) ∧ Poised p rested (w.1,w.2.setDuty p .off) := by
    intro p hp
    refine ⟨⟨hh.seat,hh.cpu,hh.running⟩,?_,?_⟩
    · rw [Ghost.setDuty_phase, hh.running p hp]
      rfl
    · rw [Ghost.setDuty_self]
      rfl
  cases e with
  | syscall p call =>
    obtain ⟨rfl,hc⟩ := hproc he
    exact ⟨⟨hc,rfl⟩,_,Move.enterUser p _ (hactive hc) hc rfl ((huser rfl).2 p hc)
      (Or.inr ⟨call,rfl⟩),hready hc⟩
  | fault p =>
    obtain ⟨rfl,hc⟩ := hproc he
    exact ⟨⟨hc,rfl⟩,_,Move.enterUser p _ (hactive hc) hc rfl ((huser rfl).2 p hc) (Or.inl rfl),hready hc⟩
  | timer p =>
    obtain ⟨rfl,hc⟩ := hproc he
    refine ⟨⟨hc,rfl⟩,_,Move.enterTimer p (hactive hc) hc rfl ((huser rfl).2 p hc),
      ⟨hh.seat,hh.cpu,hh.running⟩,?_,?_⟩
    · rw [Ghost.setDuty_phase, hh.running p hc]
      rfl
    · exact Ghost.setDuty_self _ _ _
  | kerneltrap =>
    cases user with
    | true => cases he
    | false =>
      refine ⟨rfl,_,Move.enterKernel hh.seat rfl,⟨hh.seat,hh.cpu,hh.running⟩,fun p hp => ?_⟩
      simp [Ghost.setTrapped,hp]
  | _ => cases he

/-- Every function of the kernel keeps to the protocol. -/
theorem life_sound (n : ℕ) (policy : Policy) : (life n policy).Sound (code n policy) order :=
  ⟨fun he h => body_keeps he h,fun he _ hh huser => trap_enters he hh huser⟩

/-- The first process waits to be scheduled. -/
def bootGhost (n : ℕ) : Ghost n where
  phase p := if p = 0 then .runnable else .unused
  seat _ := none
  duty _ := .off
  trapped _ := false

theorem boot_inv (n : ℕ) (policy : Policy) : Inv ((boot n policy).data,bootGhost n) := by
  refine ⟨fun x => ?_,fun h => (by cases h),fun h => (by cases h),fun p hp => ?_,fun _ _ => rfl⟩
  · by_cases hx : x = 0
    · simp [boot,bootGhost,hx,Phase.state]
    · simp [boot,bootGhost,hx,Phase.state,freeProc]
  · by_cases hp0 : p = 0
    · simp [bootGhost,hp0,Phase.seated] at hp
    · simp [bootGhost,hp0,Phase.seated] at hp

theorem boot_conforms (n : ℕ) (policy : Policy) : (life n policy).Conforms (code n policy) order
    (boot n policy) ((boot n policy).data,bootGhost n) (fun _ => []) (fun _ => none) := by
  have hF : Capable policy none false (fun _ : World n => True) := idle_capable
  refine ⟨boot_disciplined n policy,rfl,boot_inv n policy,fun h => (by cases h),
    fun h => ⟨?_,trivial⟩,fun t _ => ?_⟩
  · exact .free hF.firm
      (fun _ _ hw => hw ▸ ⟨⟨rfl,rfl,fun _ hp => by cases hp⟩,trivial⟩) scheduler_keeps
  · exact (life_sound n policy).parked (e := .forkret t) ⟨rfl,rfl⟩ rfl (duty_firm (·.free = true))
      rfl (fun _ _ _ hat => hat)

/-! ## Runs -/

/-- A step of a hart is no move or one, and a trap is taken by whom the hart runs. -/
theorem stepped_cases {e : Event (Fin n) Entry} {w w' : World n}
    (h : (life n policy).Stepped e w w') : (∃ _ : Fin n, w' = w) ∨
      ∃ a tr held, Move policy a tr held w w' ∧ ∀ t, tr = some t →
        e = .trap a.processor t ∧ w.1.cpu a.processor = a.thread ∧ w'.1 = w.1 := by
  cases e with
  | run h' =>
    rcases h with heq | ⟨c,nested,held,hm⟩
    · exact Or.inl ⟨h',heq⟩
    · exact Or.inr ⟨_,_,_,hm,fun t ht => by cases ht⟩
  | trap h' t =>
    obtain ⟨c,nested,hhome,hm,hdata⟩ := h
    refine Or.inr ⟨_,_,_,hm,fun t' ht => ?_⟩
    cases ht
    exact ⟨rfl,hhome.cpu,hdata⟩

/-- What the moves of the protocol keep, beside an observer of the process table,
holds along the guarded runs of the kernel. -/
theorem kernel_runs {O : Type*} {note : Data n → Event (Fin n) Entry → Data n → O → O}
    {guard : System n × O → Event (Fin n) Entry → Prop} {I : World n → O → Prop} {o : O}
    {x : System n × O} (hI : I ((boot n policy).data,bootGhost n) o)
    (hstep : ∀ {m m' w w' o e}, Inv w → Inv w' → m.data = w.1 → m'.data = w'.1 → guard (m,o) e →
      step (code n policy) m e = some m' → (life n policy).Stepped e w w' → I w o →
      I w' (note w.1 e w'.1 o))
    (hr : Transition.Runs (Transition.watched (step (code n policy))
      (fun m e m' => note m.data e m'.data)) guard (boot n policy,o) x) :
    ∃ w, w.1 = x.1.data ∧ Inv w ∧ I w x.2 ∧ ∀ {e m'}, step (code n policy) x.1 e = some m' →
      ∃ w', w'.1 = m'.data ∧ Inv w' ∧ (life n policy).Stepped e w w' := by
  obtain ⟨w,held,ctx,hc,hw⟩ := (boot_conforms n policy).runs (order_sound n policy)
    (life_sound n policy) hI hstep hr
  refine ⟨w,hc.data.symm,hc.inv,hw,fun {e m'} he => ?_⟩
  obtain ⟨w',_,_,hc',hs⟩ := hc.step (order_sound n policy) (life_sound n policy) he
  exact ⟨w',hc'.data.symm,hc'.inv,hs⟩

/-- An observer of one process and the clock. -/
def follow {ω : Type*} (p : Slot) (obs : BitVec 32 → Proc → BitVec 32 → Proc → ω → ω) (s : Data n)
    (_ : Event (Fin n) Entry) (s' : Data n) : ω → ω :=
  obs s.ticks (s.proc p) s'.ticks (s'.proc p)

abbrev followStep {ω : Type*} (n : ℕ) (policy : Policy) (p : Slot)
    (obs : BitVec 32 → Proc → BitVec 32 → Proc → ω → ω) :
    System n × ω → Event (Fin n) Entry → Option (System n × ω) :=
  Transition.watched (step (code n policy)) fun m e m' => follow p obs m.data e m'.data

/-- What the life of a process keeps, along runs whose steps all meet a condition on
that process. -/
theorem follow_runs {ω : Type*} {p : Slot} {obs : BitVec 32 → Proc → BitVec 32 → Proc → ω → ω}
    {C : BitVec 32 → Proc → BitVec 32 → Proc → ω → Prop} {J : BitVec 32 → Phase → Proc → ω → Prop}
    {guard : System n × ω → Event (Fin n) Entry → Prop} {o : ω} {x : System n × ω}
    (hcond : ∀ {m m' o e}, guard (m,o) e → step (code n policy) m e = some m' →
      C m.data.ticks (m.data.proc p) m'.data.ticks (m'.data.proc p) o)
    (hboot : J (boot n policy).data.ticks ((bootGhost n).phase p) ((boot n policy).data.proc p) o)
    (hlives : ∀ {a : Agent (Fin n) Slot} {t ph q ph' q' o}, Lives policy a t p ph q ph' q' →
      q'.state = ph'.state → C t q t q' o → J t ph q o → J t ph' q' (obs t q t q' o))
    (htick : ∀ {t ph q o}, q.state = ph.state → C t q (t + 1) q o → J t ph q o →
      J (t + 1) ph q (obs t q (t + 1) q o))
    (hr : Transition.Runs (followStep n policy p obs) guard (boot n policy,o) x) :
    ∃ ph : Phase, (x.1.data.proc p).state = ph.state ∧
      J x.1.data.ticks ph (x.1.data.proc p) x.2 := by
  have hstep : ∀ {m m' : System n} {w w' : World n} {o e}, Inv w → Inv w' → m.data = w.1 →
      m'.data = w'.1 → guard (m,o) e → step (code n policy) m e = some m' →
      (life n policy).Stepped e w w' → J w.1.ticks (w.2.phase p) (w.1.proc p) o →
      J w'.1.ticks (w'.2.phase p) (w'.1.proc p) (follow p obs w.1 e w'.1 o) := by
    intro m m' w w' o e hi hi' hd hd' hg he hs hJ
    have hc := hcond hg he
    rw [hd, hd'] at hc
    unfold follow
    rcases stepped_cases hs with ⟨h,rfl⟩ | ⟨a,tr,held,hm,_⟩
    · exact hlives (Lives.refl policy ⟨h,none,false⟩ _ p _ _) (hi.state p) hc hJ
    · rcases hm.lives hi p with ⟨hticks,hl⟩ | ⟨hticks,_,hph,hq⟩
      · rw [hticks] at hc ⊢
        exact hlives hl (hi'.state p) hc hJ
      · rw [hticks, hq] at hc ⊢
        rw [hph]
        exact htick (hi.state p) hc hJ
  obtain ⟨w,hdata,hi,hJ,_⟩ := kernel_runs
    (I := fun w o => J w.1.ticks (w.2.phase p) (w.1.proc p) o) hboot hstep hr
  rw [← hdata]
  exact ⟨w.2.phase p,hi.state p,hJ⟩

/-- The harts, in the order given, run for some steps and are then trapped. -/
def script (l : List (Fin n × ℕ × Entry)) : List (Event (Fin n) Entry) :=
  l.flatMap fun t => List.replicate t.2.1 (.run t.1) ++ [.trap t.1 t.2.2]

end CShellXv6.Kernel
