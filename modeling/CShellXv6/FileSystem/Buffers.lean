import CShellXv6.FileSystem.Coherence

/-! # Whole calls of the buffer cache

bread and brelse as the log uses them, each taken as one: bread when the lock of
the buffer is free. What such a call leaves as it was, and what it lets the
caller rely on.
-/
namespace CShellXv6.Bio
open Ring Transition
variable {n : ℕ} {P β : Type} [DecidableEq P]

/-- A call of bread that does not have to wait. -/
def bread (s : State n P β) (p : P) (dev blockno : ℕ) : Option (Fin n × State n P β) :=
  (step s (.bget p dev blockno)).bind fun s =>
    match s.task p with
    | .locking b =>
      (step s (.acquiresleep p)).bind fun s => (step s (.bread p)).map fun s => (b,s)
    | _ => none

/-- A call of brelse. -/
def brelse (s : State n P β) (p : P) (b : Fin n) : Option (State n P β) :=
  (step s (.releasesleep p b)).bind fun s => step s (.brelse p)

/-- What a step of a process on one buffer leaves alone. -/
structure Spares (s t : State n P β) (p : P) (b : Fin n) : Prop where
  others : ∀ c, c ≠ b → t.cache.buf c = s.cache.buf c
  tasks : ∀ q, q ≠ p → t.task q = s.task q

omit [DecidableEq P] in
theorem Spares.trans {s t u : State n P β} {p : P} {b : Fin n} (h : Spares s t p b)
    (k : Spares t u p b) : Spares s u p b :=
  ⟨fun c hc => (k.others c hc).trans (h.others c hc),
    fun q hq => (k.tasks q hq).trans (h.tasks q hq)⟩

theorem spares_modify (s : State n P β) (p : P) (b : Fin n) (f : Buf P β → Buf P β) (k : Task n) :
    Spares s ((s.modify b f).setTask p k) p b :=
  ⟨fun _ hc => Bcache.modify_of_ne hc,fun _ hq => Function.update_of_ne hq ..⟩

section Calls
variable [Fintype P] {s t : State n P β} {pins : Fin n → ℕ} {p : P} {b : Fin n} {dev blockno : ℕ}

/-- What a caller of bread has: the buffer of the block, locked, with the contents of the block,
and nothing else changed. A pinned buffer is not recycled. -/
structure Got (s t : State n P β) (pins : Fin n → ℕ) (p : P) (b : Fin n) (dev blockno : ℕ) :
    Prop where
  wf : Wf t pins
  holds : t.Holds p b
  onDev : (t.cache.buf b).dev = dev
  onBlock : (t.cache.buf b).blockno = blockno
  disk : t.disk = s.disk
  view : ∀ d k, d ≠ 0 → t.view d k = s.view d k
  spares : Spares s t p b
  unlocked : (s.cache.buf b).lock = none
  idle : s.task p = .idle
  kept : 0 < pins b → (s.cache.buf b).dev = dev ∧ (s.cache.buf b).blockno = blockno

theorem bread_got (h : Wf s pins) (hd : dev ≠ 0) (hb : bread s p dev blockno = some (b,t)) :
    Got s t pins p b dev blockno := by
  obtain ⟨s1,h1,hrest⟩ := Option.bind_eq_some_iff.mp hb
  obtain ⟨hidle,c,hcase⟩ := step_bget h1
  have htask : s1.task p = .locking c := by
    rcases hcase with ⟨_,rfl⟩ | ⟨_,_,rfl⟩
    · exact Function.update_self ..
    · exact Function.update_self ..
  rw [htask] at hrest
  obtain ⟨s2,h2,hlast⟩ := Option.bind_eq_some_iff.mp hrest
  obtain ⟨s3,h3,heq⟩ := Option.map_eq_some_iff.mp hlast
  obtain ⟨rfl,rfl⟩ := Prod.mk.injEq .. ▸ heq
  have w1 := h.bget hd h1
  have w2 := w1.acquiresleep h2
  have w3 := w2.bread h3
  obtain ⟨c2,hc2,hlock,e2⟩ := step_acquiresleep h2
  obtain rfl := Task.locking.inj (htask.symm.trans hc2)
  obtain ⟨c3,hc3,e3⟩ := step_bread h3
  have ht2 : s2.task p = .reading c := by rw [e2]; exact Function.update_self ..
  obtain rfl := Task.reading.inj (ht2.symm.trans hc3)
  have hb1 : (s1.cache.buf c).dev = dev ∧ (s1.cache.buf c).blockno = blockno ∧
      (s1.cache.buf c).lock = (s.cache.buf c).lock ∧ Spares s s1 p c ∧
      (0 < pins c → (s.cache.buf c).dev = dev ∧ (s.cache.buf c).blockno = blockno) ∧
      s1.disk = s.disk := by
    rcases hcase with ⟨hlook,rfl⟩ | ⟨_,hun,rfl⟩
    · have hkey := (h.lookup_iff hd).mp hlook
      have hself : ((s.modify c Buf.ref).setTask p (.locking c)).cache.buf c =
        (s.cache.buf c).ref :=
        Bcache.modify_self
      rw [hself]
      exact ⟨hkey.1,hkey.2,rfl,spares_modify ..,fun _ => hkey,rfl⟩
    · have hself : ((s.modify c (Buf.recycle dev blockno)).setTask p (.locking c)).cache.buf c =
          (s.cache.buf c).recycle dev blockno := Bcache.modify_self
      rw [hself]
      refine ⟨rfl,rfl,rfl,spares_modify ..,fun hpin => ?_,rfl⟩
      have hzero := (h.unused_some hun).2.2
      omega
  obtain ⟨hdev,hno,hlock1,hsp1,hkept,hdisk1⟩ := hb1
  have hself2 : s2.cache.buf c = (s1.cache.buf c).take p := by rw [e2]; exact Bcache.modify_self
  have hself3 : s3.cache.buf c = (s2.cache.buf c).fill s2.disk := by
    rw [e3]
    exact Bcache.modify_self
  obtain ⟨f1,f2,f3,_,_⟩ := Buf.fill_fields s2.disk (s2.cache.buf c)
  constructor
  case wf => exact w3
  case holds =>
    constructor
    · rw [hself3, f3, hself2]
      rfl
    · rw [e3]
      exact Function.update_self ..
  case onDev =>
    rw [hself3, f1, hself2]
    exact hdev
  case onBlock =>
    rw [hself3, f2, hself2]
    exact hno
  case disk =>
    rw [e3, e2]
    exact hdisk1
  case view =>
    intro d k hdk
    calc s3.view d k = s2.view d k := w2.view_step h3 trivial d k hdk
      _ = s1.view d k := w1.view_step h2 trivial d k hdk
      _ = s.view d k := h.view_step h1 hd d k hdk
  case spares =>
    rw [e3, e2]
    exact (hsp1.trans (spares_modify ..)).trans (spares_modify ..)
  case unlocked => exact hlock1.symm.trans hlock
  case idle => exact hidle
  case kept => exact hkept

omit [DecidableEq P] in
theorem Got.data_eq (h : Got s t pins p b dev blockno) (hd : dev ≠ 0) :
    (t.cache.buf b).data = s.view dev blockno := by
  rw [← h.view dev blockno hd]
  exact ((h.wf.view_iff hd).mpr
    (.inl ⟨b,h.onDev,h.onBlock,h.wf.valid_of_holds h.holds,rfl⟩)).symm

omit [DecidableEq P] in
/-- A process that has got two buffers one after the other holds both. -/
theorem Got.second {u : State n P β} {c : Fin n} {dev' blockno' : ℕ}
    (hb : Got s t pins p b dev blockno) (hc : Got t u pins p c dev' blockno') :
    b ≠ c ∧ u.Holds p b ∧ u.cache.buf b = t.cache.buf b := by
  have hbc : b ≠ c := by
    rintro rfl
    exact absurd (hc.unlocked.symm.trans hb.holds.1) (Option.some_ne_none p).symm
  have hsame := hc.spares.others b hbc
  exact ⟨hbc,⟨by rw [hsame]; exact hb.holds.1,hc.holds.2⟩,hsame⟩

/-- What is left after brelse: the buffer keeps its block and its contents. -/
structure Gave (s t : State n P β) (pins : Fin n → ℕ) (p : P) (b : Fin n) : Prop where
  wf : Wf t pins
  idle : t.task p = .idle
  free : (t.cache.buf b).lock = none
  dev : (t.cache.buf b).dev = (s.cache.buf b).dev
  blockno : (t.cache.buf b).blockno = (s.cache.buf b).blockno
  disk : t.disk = s.disk
  view : ∀ d k, d ≠ 0 → t.view d k = s.view d k
  spares : Spares s t p b

theorem brelse_gave (h : Wf s pins) (hclean : (s.cache.buf b).data =
      s.disk (s.cache.buf b).dev (s.cache.buf b).blockno ∨ 0 < pins b)
    (hb : brelse s p b = some t) : Gave s t pins p b := by
  obtain ⟨s1,h1,h2⟩ := Option.bind_eq_some_iff.mp hb
  have w1 := h.releasesleep h1 hclean
  have w2 := w1.brelse h2
  obtain ⟨hh,e1⟩ := Option.ite_none_right_eq_some.mp h1
  obtain rfl := Option.some.inj e1
  obtain ⟨c,hc,links,e2,_⟩ := step_brelse h2
  have ht1 : ((s.modify b Buf.free).setTask p (.dropping b)).task p = .dropping b :=
    Function.update_self ..
  obtain rfl := Task.dropping.inj (ht1.symm.trans hc)
  have hself : t.cache.buf b = (s.cache.buf b).free.unref := by
    rw [e2]
    exact Bcache.modify_self.trans (congrArg Buf.unref Bcache.modify_self)
  have hsp : Spares ((s.modify b Buf.free).setTask p (.dropping b)) t p b := by
    rw [e2]
    exact ⟨fun _ hc => Bcache.modify_of_ne hc,fun _ hq => Function.update_of_ne hq ..⟩
  constructor
  case wf => exact w2
  case idle => rw [e2]; exact Function.update_self ..
  case free => rw [hself]; rfl
  case dev => rw [hself]; rfl
  case blockno => rw [hself]; rfl
  case disk => rw [e2]; rfl
  case view =>
    intro d k hd
    exact (w1.view_step h2 trivial d k hd).trans (h.view_step h1 hclean d k hd)
  case spares => exact (spares_modify ..).trans hsp

/-- A block is copied into the buffer of another and written. -/
structure Wrote (s t : State n P β) (pins : Fin n → ℕ) (p : P) (b : Fin n) (v : β) : Prop where
  wf : Wf t pins
  holds : ∀ c, s.Holds p c → t.Holds p c
  dev : ∀ c, (t.cache.buf c).dev = (s.cache.buf c).dev
  blockno : ∀ c, (t.cache.buf c).blockno = (s.cache.buf c).blockno
  locks : ∀ c, (t.cache.buf c).lock = (s.cache.buf c).lock
  others : ∀ c, c ≠ b → t.cache.buf c = s.cache.buf c
  stored : (t.cache.buf b).data = v
  disk : t.disk = fun d k => if d = (s.cache.buf b).dev ∧ k = (s.cache.buf b).blockno then v else
    s.disk d k
  view : ∀ d k, d ≠ 0 → t.view d k =
    if d = (s.cache.buf b).dev ∧ k = (s.cache.buf b).blockno then v else s.view d k
  tasks : t.task = s.task

theorem write_wrote (h : Wf s pins) {v : β} {u : State n P β}
    (h1 : step s (.modify p b v) = some u) (h2 : step u (.bwrite p b) = some t) :
    Wrote s t pins p b v := by
  have w1 := h.modify h1
  have w2 := w1.bwrite h2
  have hview1 := h.view_step h1 trivial
  have hview2 := w1.view_step h2 trivial
  obtain ⟨hh,e1⟩ := Option.ite_none_right_eq_some.mp h1
  obtain rfl := Option.some.inj e1
  obtain ⟨_,e2⟩ := Option.ite_none_right_eq_some.mp h2
  obtain rfl := Option.some.inj e2
  have hself : ((s.modify b (Buf.store v)).write b).cache.buf b = (s.cache.buf b).store v :=
    Bcache.modify_self
  have hdev : ∀ c, (((s.modify b (Buf.store v)).write b).cache.buf c).dev = (s.cache.buf c).dev :=
    Bcache.modify_field (·.dev) rfl
  have hno : ∀ c, (((s.modify b (Buf.store v)).write b).cache.buf c).blockno =
      (s.cache.buf c).blockno := Bcache.modify_field (·.blockno) rfl
  have hlock : ∀ c, (((s.modify b (Buf.store v)).write b).cache.buf c).lock =
      (s.cache.buf c).lock := Bcache.modify_field (·.lock) rfl
  constructor
  case wf => exact w2
  case holds => exact fun c hc => ⟨(hlock c).trans hc.1,hc.2⟩
  case dev => exact hdev
  case blockno => exact hno
  case locks => exact hlock
  case others => exact fun c hc => Bcache.modify_of_ne hc
  case stored => rw [hself]; rfl
  case disk =>
    funext d k
    simp only [State.write]
    rw [show (s.modify b (Buf.store v)).cache.buf b = (s.cache.buf b).store v from
      Bcache.modify_self]
    rfl
  case view =>
    intro d k hd
    exact (hview2 d k hd).trans (hview1 d k hd)
  case tasks => rfl

/-- The calls of a process leave the buffers that others have locked as they are, and the blocks of
the pinned ones. -/
structure Apart (s t : State n P β) (pins : Fin n → ℕ) (p : P) : Prop where
  locks : ∀ b q, q ≠ p → (s.cache.buf b).lock = some q → t.cache.buf b = s.cache.buf b
  pinned : ∀ b, 0 < pins b → (t.cache.buf b).dev = (s.cache.buf b).dev ∧
    (t.cache.buf b).blockno = (s.cache.buf b).blockno

omit [DecidableEq P] [Fintype P] in
theorem Apart.trans {u : State n P β} (h : Apart s t pins p) (k : Apart t u pins p) :
    Apart s u pins p := by
  constructor
  · intro b q hq hl
    have hb := h.locks b q hq hl
    exact (k.locks b q hq (by rw [hb]; exact hl)).trans hb
  · intro b hb
    obtain ⟨h1,h2⟩ := h.pinned b hb
    obtain ⟨k1,k2⟩ := k.pinned b hb
    exact ⟨k1.trans h1,k2.trans h2⟩

omit [DecidableEq P]

theorem Got.apart (h : Got s t pins p b dev blockno) : Apart s t pins p := by
  constructor
  · intro c q _ hl
    apply h.spares.others
    rintro rfl
    rw [h.unlocked] at hl
    cases hl
  · intro c hc
    by_cases hcb : c = b
    · subst hcb
      obtain ⟨h1,h2⟩ := h.kept hc
      exact ⟨h.onDev.trans h1.symm,h.onBlock.trans h2.symm⟩
    · rw [h.spares.others c hcb]
      exact ⟨rfl,rfl⟩

theorem Gave.apart (h : Gave s t pins p b) (hb : (s.cache.buf b).lock = some p)
    (pins' : Fin n → ℕ) : Apart s t pins' p := by
  constructor
  · intro c q hq hl
    apply h.spares.others
    rintro rfl
    exact hq (Option.some.inj (hl.symm.trans hb))
  · intro c _
    by_cases hcb : c = b
    · subst hcb
      exact ⟨h.dev,h.blockno⟩
    · rw [h.spares.others c hcb]
      exact ⟨rfl,rfl⟩

theorem Wrote.apart {v : β} (h : Wrote s t pins p b v) (hb : (s.cache.buf b).lock = some p) :
    Apart s t pins p := by
  constructor
  · intro c q hq hl
    apply h.others
    rintro rfl
    exact hq (Option.some.inj (hl.symm.trans hb))
  · exact fun c _ => ⟨h.dev c,h.blockno c⟩

end Calls

end CShellXv6.Bio
