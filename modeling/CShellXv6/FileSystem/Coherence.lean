import CShellXv6.FileSystem.Bio

/-! # What the buffer cache shows of the disk

The cache stands between the callers and the disk without changing what they
see, as long as a change is written or pinned before its buffer is released.
Buffers are recycled in the order of their release.
-/
namespace CShellXv6.Bio
open Ring Transition
variable {n : ℕ} {P β : Type}

/-- What a process finds in the buffer of the block when it calls bread. -/
def State.view (s : State n P β) (dev blockno : ℕ) : β :=
  match s.cache.lookup dev blockno with
  | some b => if (s.cache.buf b).valid then (s.cache.buf b).data else s.disk dev blockno
  | none => s.disk dev blockno

section Views
variable {s t : State n P β} {pins : Fin n → ℕ} {p : P} {b : Fin n}

/-- What `view` reads: a valid buffer of the block, or the disk when there is none. -/
def Shows (s : State n P β) (dev blockno : ℕ) (v : β) : Prop :=
  (∃ b, (s.cache.buf b).dev = dev ∧ (s.cache.buf b).blockno = blockno ∧
    (s.cache.buf b).valid = true ∧ (s.cache.buf b).data = v) ∨
  (s.disk dev blockno = v ∧ ∀ b, (s.cache.buf b).dev = dev → (s.cache.buf b).blockno = blockno →
    (s.cache.buf b).valid = false)

theorem Wf.view_iff [Fintype P] (h : Wf s pins) {dev blockno : ℕ} (hd : dev ≠ 0) {v : β} :
    s.view dev blockno = v ↔ Shows s dev blockno v := by
  cases hlook : s.cache.lookup dev blockno with
  | none =>
    have hnone := h.lookup_none hlook
    rw [State.view, hlook]
    constructor
    · exact fun hv => .inr ⟨hv,fun b h1 h2 => absurd ⟨h1,h2⟩ (hnone b)⟩
    · rintro (⟨b,h1,h2,_⟩ | ⟨hv,_⟩)
      · exact absurd ⟨h1,h2⟩ (hnone b)
      · exact hv
  | some b =>
    obtain ⟨h1,h2⟩ := (h.lookup_iff hd).mp hlook
    have hone : ∀ c, (s.cache.buf c).dev = dev → (s.cache.buf c).blockno = blockno → c = b := by
      intro c hc hc'
      exact Option.some.inj (((h.lookup_iff hd).mpr ⟨hc,hc'⟩).symm.trans hlook)
    rw [State.view, hlook]
    cases hv : (s.cache.buf b).valid with
    | true =>
      constructor
      · exact fun hdata => .inl ⟨b,h1,h2,hv,by simpa [hv] using hdata⟩
      · rintro (⟨c,hc,hc',_,hdata⟩ | ⟨_,hno⟩)
        · rw [hone c hc hc'] at hdata
          simpa [hv] using hdata
        · rw [hno b h1 h2] at hv
          cases hv
    | false =>
      constructor
      · intro hdata
        refine .inr ⟨by simpa [hv] using hdata,fun c hc hc' => ?_⟩
        rw [hone c hc hc']
        exact hv
      · rintro (⟨c,hc,hc',hv',_⟩ | ⟨hdisk,_⟩)
        · rw [hone c hc hc', hv] at hv'
          cases hv'
        · simpa [hv] using hdisk

/-- Nothing is seen of a change of locks, counts and pointers. -/
theorem Shows.of_fields {dev blockno : ℕ} {v : β} (h : Shows s dev blockno v)
    (hdisk : t.disk = s.disk) (hdev : ∀ b, (t.cache.buf b).dev = (s.cache.buf b).dev)
    (hno : ∀ b, (t.cache.buf b).blockno = (s.cache.buf b).blockno)
    (hvalid : ∀ b, (t.cache.buf b).valid = (s.cache.buf b).valid)
    (hdata : ∀ b, (t.cache.buf b).data = (s.cache.buf b).data) : Shows t dev blockno v := by
  simpa only [Shows, hdisk, hdev, hno, hvalid, hdata] using h

theorem Shows.modify {dev blockno : ℕ} {v : β} (h : Shows s dev blockno v) (b : Fin n)
    {f : Buf P β → Buf P β} (hdev : ∀ x, (f x).dev = x.dev) (hno : ∀ x, (f x).blockno = x.blockno)
    (hvalid : ∀ x, (f x).valid = x.valid) (hdata : ∀ x, (f x).data = x.data) :
    Shows (s.modify b f) dev blockno v :=
  h.of_fields rfl (Bcache.modify_field (·.dev) (hdev _)) (Bcache.modify_field (·.blockno) (hno _))
    (Bcache.modify_field (·.valid) (hvalid _)) (Bcache.modify_field (·.data) (hdata _))

theorem Shows.fill {dev blockno : ℕ} {v : β} (hs : Shows s dev blockno v) (b : Fin n) :
    Shows (s.modify b (Buf.fill s.disk)) dev blockno v := by
  have hne : ∀ c, c ≠ b → (s.modify b (Buf.fill s.disk)).cache.buf c = s.cache.buf c :=
    fun c hc => Bcache.modify_of_ne hc
  have hself : (s.modify b (Buf.fill s.disk)).cache.buf b = (s.cache.buf b).fill s.disk :=
    Bcache.modify_self
  cases hb : (s.cache.buf b).valid with
  | true =>
    have hsame : ∀ c, (s.modify b (Buf.fill s.disk)).cache.buf c = s.cache.buf c := by
      intro c
      by_cases hc : c = b
      · rw [hc, hself, Buf.fill, if_pos hb]
      · exact hne c hc
    exact hs.of_fields rfl (fun c => by rw [hsame]) (fun c => by rw [hsame])
      (fun c => by rw [hsame])
      (fun c => by rw [hsame])
  | false =>
    rw [Buf.fill, if_neg (by rw [hb]; exact Bool.false_ne_true)] at hself
    rcases hs with ⟨c,hc1,hc2,hv,hdata⟩ | ⟨hdisk,hno⟩
    · have hcb : c ≠ b := by
        rintro rfl
        rw [hb] at hv
        cases hv
      refine .inl ⟨c,?_⟩
      rw [hne c hcb]
      exact ⟨hc1,hc2,hv,hdata⟩
    · by_cases hkey : (s.cache.buf b).dev = dev ∧ (s.cache.buf b).blockno = blockno
      · obtain ⟨h1,h2⟩ := hkey
        refine .inl ⟨b,?_⟩
        rw [hself]
        refine ⟨h1,h2,rfl,?_⟩
        rw [← hdisk, ← h1, ← h2]
      · refine .inr ⟨hdisk,fun c hc hc' => ?_⟩
        by_cases hcb : c = b
        · rw [hcb, hself] at hc hc'
          exact absurd ⟨hc,hc'⟩ hkey
        · rw [hne c hcb] at hc hc' ⊢
          exact hno c hc hc'

variable [Fintype P]

/-- The contents of the blocks as the calls see them change. -/
def stored (s : State n P β) (content : ℕ → ℕ → β) : Event n P β → ℕ → ℕ → β
  | .modify _ b v => fun dev blockno =>
    if dev = (s.cache.buf b).dev ∧ blockno = (s.cache.buf b).blockno then v else content dev blockno
  | _ => content

/-- The buffer that bget recycles was not needed: what it held is on the disk. -/
theorem Wf.shows_recycle (h : Wf s pins) {dev blockno dev' blockno' : ℕ} {v : β} (hd : dev ≠ 0)
    (hun : s.cache.unused = some b) (hs : Shows s dev blockno v) :
    Shows (s.modify b (Buf.recycle dev' blockno')) dev blockno v := by
  obtain ⟨hlock,_,hpin⟩ := h.unused_some hun
  have hself : (s.modify b (Buf.recycle dev' blockno')).cache.buf b =
      (s.cache.buf b).recycle dev' blockno' := Bcache.modify_self
  have hne : ∀ c, c ≠ b → (s.modify b (Buf.recycle dev' blockno')).cache.buf c = s.cache.buf c :=
    fun c hc => Bcache.modify_of_ne hc
  rcases hs with ⟨c,hc1,hc2,hv,hdata⟩ | ⟨hdisk,hno⟩
  · by_cases hcb : c = b
    · subst c
      have hclean : (s.cache.buf b).data = s.disk dev blockno := by
        rcases h.settled b hv with hd' | hl | hp
        · rw [hd', hc1, hc2]
        · exact absurd hlock hl
        · omega
      refine .inr ⟨hclean.symm.trans hdata,fun c hc hc' => ?_⟩
      by_cases hcb : c = b
      · rw [hcb, hself]
        rfl
      · rw [hne c hcb] at hc hc'
        exact absurd (h.unique c b (hc ▸ hd) (hc.trans hc1.symm) (hc'.trans hc2.symm)) hcb
    · refine .inl ⟨c,?_⟩
      rw [hne c hcb]
      exact ⟨hc1,hc2,hv,hdata⟩
  · refine .inr ⟨hdisk,fun c hc hc' => ?_⟩
    by_cases hcb : c = b
    · rw [hcb, hself]
      rfl
    · rw [hne c hcb] at hc hc' ⊢
      exact hno c hc hc'

theorem Wf.shows_modify (h : Wf s pins) (hh : s.Holds p b) {dev blockno : ℕ} {v w : β}
    (hs : Shows s dev blockno v) :
    Shows (s.modify b (Buf.store w)) dev blockno
      (if dev = (s.cache.buf b).dev ∧ blockno = (s.cache.buf b).blockno then w else v) := by
  have hvalid := h.valid_of_holds hh
  have hself : (s.modify b (Buf.store w)).cache.buf b = (s.cache.buf b).store w :=
    Bcache.modify_self
  have hne : ∀ c, c ≠ b → (s.modify b (Buf.store w)).cache.buf c = s.cache.buf c :=
    fun c hc => Bcache.modify_of_ne hc
  split
  case isTrue hkey =>
    refine .inl ⟨b,?_⟩
    rw [hself]
    exact ⟨hkey.1.symm,hkey.2.symm,hvalid,rfl⟩
  case isFalse hkey =>
    have hcb : ∀ c, (s.cache.buf c).dev = dev → (s.cache.buf c).blockno = blockno → c ≠ b := by
      rintro c rfl rfl rfl
      exact hkey ⟨rfl,rfl⟩
    rcases hs with ⟨c,hc1,hc2,hv,hdata⟩ | ⟨hdisk,hno⟩
    · refine .inl ⟨c,?_⟩
      rw [hne c (hcb c hc1 hc2)]
      exact ⟨hc1,hc2,hv,hdata⟩
    · refine .inr ⟨hdisk,fun c hc hc' => ?_⟩
      by_cases hc0 : c = b
      · rw [hc0, hself] at hc hc'
        exact absurd rfl (hcb b hc hc')
      · rw [hne c hc0] at hc hc' ⊢
        exact hno c hc hc'

theorem Wf.shows_write (h : Wf s pins) (hh : s.Holds p b) {dev blockno : ℕ} {v : β}
    (hs : Shows s dev blockno v) : Shows (s.write b) dev blockno v := by
  have hvalid := h.valid_of_holds hh
  rcases hs with hc | ⟨hdisk,hno⟩
  · exact .inl hc
  · refine .inr ⟨?_,hno⟩
    have hkey : ¬ (dev = (s.cache.buf b).dev ∧ blockno = (s.cache.buf b).blockno) := by
      rintro ⟨h1,h2⟩
      rw [hno b h1.symm h2.symm] at hvalid
      cases hvalid
    exact (if_neg hkey).trans hdisk

variable [DecidableEq P]

/-- Only a store into a buffer changes what is seen of the blocks. -/
theorem Wf.view_step {e : Event n P β} (h : Wf s pins) (he : Bio.step s e = some t)
    (ha : Allowed s pins e) (dev blockno : ℕ) (hd : dev ≠ 0) :
    t.view dev blockno = stored s s.view e dev blockno := by
  have hs : Shows s dev blockno (s.view dev blockno) := (h.view_iff hd).mp rfl
  apply ((h.step ha he).view_iff hd).mpr
  cases e with
  | bget p dev' blockno' =>
    obtain ⟨_,b,⟨_,rfl⟩ | ⟨_,hun,rfl⟩⟩ := step_bget he
    · exact hs.modify b (fun _ => rfl) (fun _ => rfl) (fun _ => rfl) (fun _ => rfl)
    · exact h.shows_recycle hd hun hs
  | acquiresleep p =>
    obtain ⟨b,_,_,rfl⟩ := step_acquiresleep he
    exact hs.modify b (fun _ => rfl) (fun _ => rfl) (fun _ => rfl) (fun _ => rfl)
  | bread p =>
    obtain ⟨b,_,rfl⟩ := step_bread he
    exact hs.fill b
  | modify p b v =>
    obtain ⟨hh,ht⟩ := Option.ite_none_right_eq_some.mp he
    cases ht
    exact h.shows_modify hh hs
  | bwrite p b =>
    obtain ⟨hh,ht⟩ := Option.ite_none_right_eq_some.mp he
    cases ht
    exact h.shows_write hh hs
  | releasesleep p b | bpin p b | bunpin p b =>
    obtain ⟨_,ht⟩ := Option.ite_none_right_eq_some.mp he
    cases ht
    exact hs.modify b (fun _ => rfl) (fun _ => rfl) (fun _ => rfl) (fun _ => rfl)
  | brelse p =>
    obtain ⟨b,_,links,rfl,_⟩ := step_brelse he
    exact hs.modify b (fun _ => rfl) (fun _ => rfl) (fun _ => rfl) (fun _ => rfl)

end Views

instance Allowed.decidable [DecidableEq β] (s : State n P β) (pins : Fin n → ℕ) :
    (e : Event n P β) → Decidable (Allowed s pins e)
  | .bget _ dev _ => inferInstanceAs (Decidable (dev ≠ 0))
  | .releasesleep _ b => inferInstanceAs (Decidable ((s.cache.buf b).data =
      s.disk (s.cache.buf b).dev (s.cache.buf b).blockno ∨ 0 < pins b))
  | .bunpin _ b => inferInstanceAs (Decidable (0 < pins b))
  | .acquiresleep _ => isTrue trivial
  | .bread _ => isTrue trivial
  | .modify _ _ _ => isTrue trivial
  | .bwrite _ _ => isTrue trivial
  | .brelse _ => isTrue trivial
  | .bpin _ _ => isTrue trivial

/-- What an observer keeps: the pins, the contents last stored for each block, and when each buffer
was last released by its last user. -/
structure Record (n : ℕ) (β : Type) where
  pins : Fin n → ℕ
  content : ℕ → ℕ → β
  clock : ℕ
  released : Fin n → ℕ

section Runs
variable [Fintype P] [DecidableEq P]

/-- The buffer that a step of brelse gives back to the cache. -/
def givesBack (s : State n P β) : Event n P β → Option (Fin n)
  | .brelse p =>
    match s.task p with
    | .dropping b => if (s.cache.buf b).refcnt - 1 = 0 then some b else none
    | _ => none
  | _ => none

def Record.note (s : State n P β) (e : Event n P β) (_ : State n P β) (o : Record n β) :
    Record n β where
  pins := pinned o.pins e
  content := stored s o.content e
  clock := o.clock + 1
  released := match givesBack s e with
    | some b => Function.update o.released b (o.clock + 1)
    | none => o.released

/-- Runs of the cache from binit, with any number of processes, under the rules of the callers. -/
def Reaches (zero : β) (disk : ℕ → ℕ → β) : State n P β × Record n β → Prop :=
  Runs (watched step Record.note) (fun x e => Allowed x.1 x.2.pins e)
    (⟨binit zero,disk,fun _ => .idle⟩,⟨fun _ => 0,disk,0,fun _ => 0⟩)

variable {zero : β} {disk : ℕ → ℕ → β} {x : State n P β × Record n β}

/-- In every reachable state the list through `next` and `prev` holds each buffer once, no two
buffers stand for one block, and a reference count is the number of holders, waiters and pins. -/
theorem Reaches.wf (h : Reaches zero disk x) : Wf x.1 x.2.pins := by
  apply Runs.invariant (I := fun x => Wf x.1 x.2.pins) h (wf_binit zero disk)
  rintro y e z hy hg he
  obtain ⟨t,ht,rfl⟩ := Option.map_eq_some_iff.mp he
  exact hy.step hg ht

/-- What a call of bread finds is what was last stored for the block. -/
theorem Reaches.view_eq (h : Reaches zero disk x) {dev blockno : ℕ} (hd : dev ≠ 0) :
    x.1.view dev blockno = x.2.content dev blockno := by
  have hboth : Wf x.1 x.2.pins ∧ ∀ dev blockno, dev ≠ 0 →
      x.1.view dev blockno = x.2.content dev blockno := by
    apply Runs.invariant (I := fun x => Wf x.1 x.2.pins ∧ ∀ dev blockno, dev ≠ 0 →
      x.1.view dev blockno = x.2.content dev blockno) h
    · refine ⟨wf_binit zero disk,fun dev blockno hd => ?_⟩
      apply ((wf_binit zero disk).view_iff hd).mpr
      exact .inr ⟨rfl,fun b _ _ => rfl⟩
    · rintro y e z ⟨hy,hview⟩ hg he
      obtain ⟨t,ht,rfl⟩ := Option.map_eq_some_iff.mp he
      refine ⟨hy.step hg ht,fun dev blockno hd => (hy.view_step ht hg dev blockno hd).trans ?_⟩
      cases e with
      | modify p b v => simp only [Record.note, stored, hview dev blockno hd]
      | _ => exact hview dev blockno hd
  exact hboth.2 dev blockno hd

omit [Fintype P] in
/-- Only a buffer that is given back moves in the list. -/
theorem step_links {s t : State n P β} {e : Event n P β} (he : step s e = some t) :
    t.cache.links = match givesBack s e with
      | some b => (s.cache.links.unlink b).pushFront b
      | none => s.cache.links := by
  cases e with
  | bget p dev blockno =>
    obtain ⟨_,b,⟨_,rfl⟩ | ⟨_,_,rfl⟩⟩ := step_bget he
    · rfl
    · rfl
  | acquiresleep p =>
    obtain ⟨b,_,_,rfl⟩ := step_acquiresleep he
    rfl
  | bread p =>
    obtain ⟨b,_,rfl⟩ := step_bread he
    rfl
  | brelse p =>
    obtain ⟨b,hp,links,rfl,⟨hzero,rfl⟩ | ⟨hzero,rfl⟩⟩ := step_brelse he
    · simp only [givesBack, hp, if_pos hzero]
    · simp only [givesBack, hp, if_neg hzero]
  | modify p b v | bwrite p b | releasesleep p b | bpin p b | bunpin p b =>
    obtain ⟨_,ht⟩ := Option.ite_none_right_eq_some.mp he
    cases ht
    rfl

/-- The list is in the order in which the buffers were given back, the last one first. -/
structure Ordered (links : Links (Fin n)) (o : Record n β) (l : List (Fin n)) : Prop where
  spells : Spells links l
  all : ∀ b, b ∈ l
  sorted : l.Pairwise (fun b c => o.released c ≤ o.released b)
  past : ∀ b, o.released b ≤ o.clock

/-- A buffer that is given back goes to the front and has the latest time. -/
theorem Ordered.front {links : Links (Fin n)} {o o' : Record n β} {l : List (Fin n)}
    (h : Ordered links o l) (b : Fin n)
    (hr : o'.released = Function.update o.released b (o.clock + 1))
    (hc : o'.clock = o.clock + 1) : ∃ l', Ordered ((links.unlink b).pushFront b) o' l' := by
  obtain ⟨k,m,rfl⟩ := List.append_of_mem (h.all b)
  have hnot : b ∉ k ++ m := (List.nodup_cons.mp (List.nodup_middle.mp h.spells.nodup)).1
  have hself : o'.released b = o.clock + 1 := by rw [hr, Function.update_self]
  have hne : ∀ c, c ≠ b → o'.released c = o.released c := by
    intro c hc
    rw [hr, Function.update_of_ne hc]
  have hmem : ∀ c ∈ k ++ m, o'.released c = o.released c :=
    fun c hc => hne c (fun e => hnot (e ▸ hc))
  refine ⟨b :: (k ++ m),h.spells.unlink.pushFront hnot,fun c => ?_,?_,fun c => ?_⟩
  · simpa [or_left_comm] using h.all c
  · refine List.pairwise_cons.mpr ⟨fun c hc => ?_,?_⟩
    · rw [hself, hmem c hc]
      exact Nat.le_succ_of_le (h.past c)
    · have hsub : (k ++ m).Sublist (k ++ b :: m) :=
        (List.Sublist.refl k).append (List.sublist_cons_self b m)
      refine (h.sorted.sublist hsub).imp_of_mem fun hc hd hle => ?_
      rwa [hmem _ hc, hmem _ hd]
  · rw [hc]
    by_cases hcb : c = b
    · rw [hcb, hself]
    · rw [hne c hcb]
      exact Nat.le_succ_of_le (h.past c)

theorem Reaches.ordered (h : Reaches zero disk x) : ∃ l, Ordered x.1.cache.links x.2 l := by
  apply Runs.invariant (I := fun x => ∃ l, Ordered x.1.cache.links x.2 l) h
  · obtain ⟨l,hl,hall⟩ := (wf_binit zero disk (n := n) (P := P)).ring
    exact ⟨l,hl,hall,List.pairwise_of_forall fun _ _ => Nat.le_refl 0,fun _ => Nat.le_refl 0⟩
  · rintro y e z ⟨l,hl⟩ _ he
    obtain ⟨t,ht,rfl⟩ := Option.map_eq_some_iff.mp he
    have hlinks := step_links ht
    cases hg : givesBack y.1 e with
    | some b =>
      rw [hg] at hlinks
      rw [hlinks]
      exact hl.front b (by simp only [Record.note, hg]) rfl
    | none =>
      rw [hg] at hlinks
      have hsame : (Record.note y.1 e t y.2).released = y.2.released := by
        simp only [Record.note, hg]
      rw [hlinks]
      refine ⟨l,hl.spells,hl.all,?_,fun b => ?_⟩
      · rw [hsame]
        exact hl.sorted
      · rw [hsame]
        exact Nat.le_succ_of_le (hl.past b)

omit [Fintype P] [DecidableEq P] in
/-- The last buffer of the list that nobody uses is the one that was given back first. -/
theorem Ordered.unused {c : Bcache n P β} {o : Record n β} {l : List (Fin n)}
    (h : Ordered c.links o l) {b : Fin n} (hb : c.unused = some b) :
    (c.buf b).refcnt = 0 ∧ ∀ d, (c.buf d).refcnt = 0 → o.released b ≤ o.released d := by
  have hlen : l.length ≤ n := by simpa using List.Nodup.length_le_card h.spells.nodup
  rw [Bcache.unused, h.spells.between.seek_prev _ hlen] at hb
  obtain ⟨hzero,as,bs,hsplit,hbefore⟩ := List.find?_eq_some_iff_append.mp hb
  refine ⟨by simpa using hzero,fun d hd => ?_⟩
  have hl : l = bs.reverse ++ b :: as.reverse := by
    rw [← List.reverse_reverse l, hsplit]
    simp
  have hmem := h.all d
  rw [hl] at hmem
  rcases List.mem_append.mp hmem with hfront | hback
  · have hp := h.sorted
    rw [hl] at hp
    exact (List.pairwise_append.mp hp).2.2 d hfront b List.mem_cons_self
  · rcases List.mem_cons.mp hback with rfl | hrest
    · exact Nat.le_refl _
    · have hused := hbefore d (List.mem_reverse.mp hrest)
      simp [hd] at hused

end Runs

/-- One buffer and two processes: the first changes block 5 and writes it, the second makes the
buffer be recycled for block 6, and the first comes back. -/
def recycling : List (Event 1 Bool ℕ) :=
  [.bget true 1 5, .acquiresleep true, .bread true, .modify true ⟨0,Nat.one_pos⟩ 9,
    .bwrite true ⟨0,Nat.one_pos⟩, .releasesleep true ⟨0,Nat.one_pos⟩, .brelse true,
    .bget false 1 6, .acquiresleep false, .bread false, .releasesleep false ⟨0,Nat.one_pos⟩,
    .brelse false, .bget true 1 5, .acquiresleep true, .bread true]

/-- A run from binit over a disk full of sevens. -/
theorem Reaches.of_events {n : ℕ} {x : State n Bool ℕ × Record n ℕ} (es : List (Event n Bool ℕ))
    (h : execute (restrict (watched step Record.note) fun x e => Allowed x.1 x.2.pins e)
      (⟨binit 0,fun _ _ => 7,fun _ => .idle⟩,⟨fun _ => 0,fun _ _ => 7,0,fun _ => 0⟩) es = some x) :
    Reaches 0 (fun _ _ => 7) x := Runs.of_execute es h

section Runs
variable [Fintype P] [DecidableEq P] {zero : β} {disk : ℕ → ℕ → β} {x : State n P β × Record n β}

/-- bget finds the buffer of the block, or recycles, of the buffers that nobody holds, waits for or
has pinned, the one that was given back first, whose contents are on the disk; it panics when
every buffer is in use. -/
theorem Reaches.bget_spec (h : Reaches zero disk x) (dev blockno : ℕ) (hd : dev ≠ 0) :
    match x.1.cache.bget dev blockno with
    | some (b,_) =>
      ((x.1.cache.buf b).dev = dev ∧ (x.1.cache.buf b).blockno = blockno) ∨
      ((∀ c, ¬ ((x.1.cache.buf c).dev = dev ∧ (x.1.cache.buf c).blockno = blockno)) ∧
        (x.1.cache.buf b).lock = none ∧ (∀ p, x.1.task p ≠ .locking b ∧ x.1.task p ≠ .dropping b) ∧
        x.2.pins b = 0 ∧ ((x.1.cache.buf b).valid = true → (x.1.cache.buf b).data =
          x.1.disk (x.1.cache.buf b).dev (x.1.cache.buf b).blockno) ∧
        ∀ c, (x.1.cache.buf c).refcnt = 0 → x.2.released b ≤ x.2.released c)
    | none => (∀ c, ¬ ((x.1.cache.buf c).dev = dev ∧ (x.1.cache.buf c).blockno = blockno)) ∧
        ∀ c, 0 < (x.1.cache.buf c).refcnt := by
  have hw := h.wf
  obtain ⟨l,hl⟩ := h.ordered
  cases hlook : x.1.cache.lookup dev blockno with
  | some b =>
    simp only [Bcache.bget, hlook]
    exact .inl ((hw.lookup_iff hd).mp hlook)
  | none =>
    cases hun : x.1.cache.unused with
    | some b =>
      simp only [Bcache.bget, hlook, hun]
      obtain ⟨hlock,huse,hpin⟩ := hw.unused_some hun
      refine .inr ⟨hw.lookup_none hlook,hlock,fun p => ?_,hpin,fun hv => ?_,(hl.unused hun).2⟩
      · have hzero : (x.1.task p).at b = 0 := by
          have := users_update x.1.task p .idle b
          have hidle : (Task.idle : Task n).at b = 0 := rfl
          omega
        constructor
        · intro ht
          simp [ht, Task.at] at hzero
        · intro ht
          simp [ht, Task.at] at hzero
      · rcases hw.settled b hv with hdisk | hl' | hp
        · exact hdisk
        · exact absurd hlock hl'
        · omega
    | none =>
      simp only [Bcache.bget, hlook, hun]
      refine ⟨hw.lookup_none hlook,fun c => ?_⟩
      obtain ⟨l,hs,hall,hlen⟩ := hw.spelled
      rw [Bcache.unused, hs.between.seek_prev _ hlen] at hun
      have hc := List.find?_eq_none.mp hun c (List.mem_reverse.mpr (hall c))
      exact Nat.pos_of_ne_zero (by simpa using hc)

end Runs

/-- Blocks 5 and 6 are read and given back. -/
def twoReads : List (Event 2 Bool ℕ) :=
  [.bget true 1 5, .acquiresleep true, .bread true, .bget false 1 6, .acquiresleep false,
    .bread false,
    .releasesleep false ⟨1,Nat.one_lt_two⟩, .brelse false, .releasesleep true ⟨0,Nat.two_pos⟩,
    .brelse true]

/-- The buffer of block 6 was given back first, and is recycled for block 8. -/
theorem bget_spec_twoReads : ∃ x : State 2 Bool ℕ × Record 2 ℕ, Reaches 0 (fun _ _ => 7) x ∧
    ∃ c, x.1.cache.bget 1 8 = some (⟨1,Nat.one_lt_two⟩,c) ∧
    ∀ d, (x.1.cache.buf d).refcnt = 0 → x.2.released ⟨1,Nat.one_lt_two⟩ ≤ x.2.released d := by
  have hrun : (execute (restrict (watched step Record.note) fun x e => Allowed x.1 x.2.pins e)
      (⟨binit 0,fun _ _ => 7,fun _ => .idle⟩,⟨fun _ => 0,fun _ _ => 7,0,fun _ => 0⟩) twoReads).map
      (fun x => ((x.1.cache.bget 1 8).map Prod.fst,(x.1.cache.buf ⟨1,Nat.one_lt_two⟩).blockno))
      = some (some ⟨1,Nat.one_lt_two⟩,6) := by decide +kernel
  obtain ⟨x,hx,hfacts⟩ := Option.map_eq_some_iff.mp hrun
  obtain ⟨hget,hno⟩ := Prod.mk.injEq .. ▸ hfacts
  obtain ⟨⟨b,c⟩,hbc,rfl⟩ := Option.map_eq_some_iff.mp hget
  have hreach := Reaches.of_events twoReads hx
  have hspec := hreach.bget_spec 1 8 Nat.one_ne_zero
  rw [hbc] at hspec
  rcases hspec with ⟨_,h8⟩ | ⟨_,_,_,_,_,hold⟩
  · rw [hno] at h8
    cases h8
  · exact ⟨x,hreach,c,hbc,hold⟩

end CShellXv6.Bio
