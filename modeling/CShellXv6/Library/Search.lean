import Mathlib.Data.List.Basic

/-! # The first of a list of candidates

A search goes through a list of candidates and takes the first that names
something. Two searches find the same thing in every world when they try the
same candidates in the same order, repetitions aside, and in no other case.
-/
namespace CShellXv6.Search
variable {α β : Type*}

/-- Two ways to write the candidates that name the same things. -/
theorem findSome?_map_congr {γ : Type*} {name : α → Option β} {f g : γ → α} {l : List γ}
    (h : ∀ c ∈ l, name (f c) = name (g c)) :
    (l.map f).findSome? name = (l.map g).findSome? name := by
  induction l with
  | nil => rfl
  | cons c rest ih =>
    have hrest := ih (fun d hd => h d (List.mem_cons_of_mem _ hd))
    rw [List.map_cons, List.map_cons, List.findSome?_cons, List.findSome?_cons,
      h c List.mem_cons_self, hrest]

theorem length_filter_lt (p : α → Bool) (a : α) (l : List α) :
    (l.filter p).length < (a :: l).length :=
  Nat.lt_succ_of_le (List.length_filter_le p l)

variable [BEq α] [LawfulBEq α]

/-- The world in which a candidate names nothing any more. -/
def forget (name : α → Option β) (a : α) : α → Option β := fun b => if b == a then none else name b

theorem findSome?_forget (name : α → Option β) (a : α) (l : List α) :
    l.findSome? (forget name a) = (l.filter (fun b => !b == a)).findSome? name := by
  induction l with
  | nil => rfl
  | cons b rest ih =>
    rw [List.findSome?_cons, ih]
    by_cases hb : b = a
    · simp [forget,hb]
    · simp [forget,hb,List.findSome?_cons]

/-- A candidate that has been tried once need not be tried again. -/
theorem findSome?_filter (name : α → Option β) (a : α) (l : List α) :
    (a :: l.filter (fun b => !b == a)).findSome? name = (a :: l).findSome? name := by
  rw [List.findSome?_cons, List.findSome?_cons]
  cases ha : name a with
  | some b => rfl
  | none =>
    have hforget : forget name a = name := by
      funext b
      unfold forget
      split
      · next hb => rw [eq_of_beq hb, ha]
      · rfl
    rw [← findSome?_forget, hforget]

theorem findSome?_eraseDups (name : α → Option β) (l : List α) :
    l.eraseDups.findSome? name = l.findSome? name := by
  induction hn : l.length using Nat.strongRecOn generalizing l with
  | ind n ih =>
    cases l with
    | nil => rfl
    | cons a rest =>
      have hrest := ih _ (hn ▸ length_filter_lt (fun b => !b == a) a rest) _ rfl
      rw [List.eraseDups_cons, List.findSome?_cons, hrest, ← List.findSome?_cons,
        findSome?_filter]

/-- The world in which only these two candidates name something. -/
def onlyTwo (a b : α) : α → Option ℕ := fun c =>
  if c == a then some 0 else if c == b then some 1 else none

theorem onlyTwo_left (a b : α) : onlyTwo a b a = some 0 := by simp [onlyTwo]

theorem onlyTwo_right {a b : α} (h : a ≠ b) : onlyTwo a b b = some 1 := by
  simp [onlyTwo,Ne.symm h]

/-- Searches that agree in every world try the same distinct candidates in the
same order. -/
theorem findSome?_eq_iff (l m : List α) :
    (∀ name : α → Option ℕ, l.findSome? name = m.findSome? name) ↔ l.eraseDups = m.eraseDups := by
  constructor
  · intro h
    induction hn : l.length using Nat.strongRecOn generalizing l m with
    | ind n ih =>
      cases l with
      | nil =>
        cases m with
        | nil => rfl
        | cons b rest =>
          have hb := h (onlyTwo b b)
          rw [List.findSome?_cons, onlyTwo_left] at hb
          cases hb
      | cons a l =>
        cases m with
        | nil =>
          have ha := h (onlyTwo a a)
          rw [List.findSome?_cons, onlyTwo_left] at ha
          cases ha
        | cons b m =>
          by_cases hab : a = b
          · subst hab
            have hfilter : ∀ name : α → Option ℕ, (l.filter (fun b => !b == a)).findSome? name =
                (m.filter (fun b => !b == a)).findSome? name := by
              intro name
              -- Where `a` names nothing, both searches go on past it.
              have hname := h (forget name a)
              rw [findSome?_forget, findSome?_forget] at hname
              simpa using hname
            rw [List.eraseDups_cons, List.eraseDups_cons,
              ih _ (hn ▸ length_filter_lt (fun b => !b == a) a l) _ _ hfilter rfl]
          · have hne := h (onlyTwo a b)
            rw [List.findSome?_cons, List.findSome?_cons, onlyTwo_left, onlyTwo_right hab] at hne
            cases hne
  · intro h name
    rw [← findSome?_eraseDups name l, h, findSome?_eraseDups]

/-- The same for searches that give the candidate itself. -/
theorem find?_eq_iff (l m : List α) :
    (∀ p : α → Bool, l.find? p = m.find? p) ↔ l.eraseDups = m.eraseDups := by
  constructor
  · intro h
    apply (findSome?_eq_iff l m).mp
    intro name
    have hbind : ∀ k : List α, k.findSome? name = (k.find? (fun a => (name a).isSome)).bind name := by
      intro k
      induction k with
      | nil => rfl
      | cons a rest ih =>
        rw [List.findSome?_cons, List.find?_cons, ih]
        cases ha : name a with
        | none => rfl
        | some b => exact ha.symm
    rw [hbind l, hbind m, h]
  · intro h p
    have hguard : ∀ k : List α, k.find? p = k.findSome? (Option.guard p) := by
      intro k
      induction k with
      | nil => rfl
      | cons a rest ih =>
        rw [List.findSome?_cons, List.find?_cons, ih, Option.guard]
        cases p a with
        | true => rfl
        | false => rfl
    rw [hguard l, hguard m, ← findSome?_eraseDups, h, findSome?_eraseDups]

omit [BEq α] [LawfulBEq α] in
/-- Candidates made from different things in a way that can be undone. -/
theorem find?_map_eq_iff {γ : Type*} {f : γ → α} {g : α → γ} (hg : ∀ c, g (f c) = c)
    (l m : List γ) : (∀ p : α → Bool, (l.map f).find? p = (m.map f).find? p) ↔
      ∀ q : γ → Bool, l.find? q = m.find? q := by
  constructor
  · intro h q
    have hq := h (q ∘ g)
    have hcomp : (q ∘ g) ∘ f = q := by
      funext c
      exact congrArg q (hg c)
    have hinj : Function.Injective f := fun a b hab => by rw [← hg a, hab, hg]
    rw [List.find?_map, List.find?_map, hcomp] at hq
    exact Option.map_injective hinj hq
  · intro h p
    rw [List.find?_map, List.find?_map, h]

end CShellXv6.Search
