import CShellXv6.Shell.Split
import Mathlib.Data.List.TakeWhile

/-! # How the built-ins read their tokens

Each built-in indexes the token list itself. Only the reads through text
pointers are kept, in the order and under the conditions of the source; a read
through NULL ends the trace, since the process is gone.
-/
namespace CShellXv6.Executor
open Lexer TokenCategory

inductive Builtin
  | hop
  | reveal
  | peek
  | locate
  | activities
  | resume
  | ping
  | spy
  | snoop
  deriving DecidableEq, Repr

def Builtin.name : Builtin → CString
  | hop => "hop".toList
  | reveal => "reveal".toList
  | peek => "peek".toList
  | locate => "locate".toList
  | activities => "activities".toList
  | resume => "resume".toList
  | ping => "ping".toList
  | spy => "spy".toList
  | snoop => "snoop".toList

/-- The chain of `strcmp` calls made by all three dispatchers. -/
def builtinOf (cmdName : CString) : Option Builtin :=
  [Builtin.hop,.reveal,.peek,.locate,.activities,.resume,.ping,.spy,.snoop].find?
    (fun b => b.name == cmdName)

/-- An unconditional read of a token's text, and what follows when it survives. -/
def readText (t : Token) (k : CString → Trace) : Trace :=
  .deref t :: (match t.text with
    | some text => k text
    | none => [])

/-- A read that the source guards with a NULL check. -/
def readChecked (t : Token) (ifNull : Trace) (k : CString → Trace) : Trace :=
  match t.text with
  | some text => .deref t :: k text
  | none => ifNull

/-- `is_all_digits`, `is_non_negative_integer` and `is_non_negative_int` on a
string that is not NULL. -/
def isAllDigits (text : CString) : Bool := !text.isEmpty && text.all Char.isDigit

def isFlag : CString → Bool
  | '-' :: _ :: _ => true
  | _ => false

/-- The text pointers of the words in an argument loop that skips operators. -/
def wordsOf (list : TokenList) : TokenList := list.filter (fun t => t.type == opWord)

def hop (list : TokenList) : Trace :=
  if list.length ≤ 1 then [] else (wordsOf list.tail).map .deref

/-- The argument loop of `reveal`: `target` tells whether a path was seen. -/
def revealLoop : TokenList → Bool → Trace
  | [], _ => []
  | t :: rest, target =>
    if t.type ≠ opWord then revealLoop rest target
    else readText t fun arg =>
      if isFlag arg then
        if arg.tail.all (fun c => c == 'a' || c == 't') then revealLoop rest target else []
      else if target then [] else revealLoop rest true

def reveal (list : TokenList) : Trace := revealLoop list.tail false

/-- The argument loop of `peek`. -/
def peekLoop : TokenList → Trace
  | [] => []
  | t :: rest =>
    if t.type ≠ opWord then peekLoop rest
    else readText t fun arg =>
      if isFlag arg then
        if arg.tail.all (fun c => c == 'n' || c == 'r') then peekLoop rest else []
      else peekLoop rest

def peek (list : TokenList) : Trace := peekLoop list.tail

def locate (list : TokenList) : Trace := (wordsOf list.tail).map .deref

def resumeCmd (list : TokenList) : Trace :=
  match list with
  | _ :: t1 :: t2 :: rest =>
    readChecked t1 [] fun target =>
      if target.head? ≠ some '%' ∨ isAllDigits target.tail = false then []
      else readChecked t2 [] fun mode =>
        if mode = "bg".toList then []
        else if mode = "fg".toList then
          match rest with
          | [t3,t4] => readText t3 fun option =>
            if option ≠ "--timeout".toList then [] else readChecked t4 [] fun _ => []
          | _ => []
        else []
  | _ => []

def pingCmd (list : TokenList) : Trace :=
  match list with
  | [_,t1,t2] =>
    readChecked t2 [] fun sigStr =>
      if isAllDigits sigStr = false then [] else readText t1 fun _ => []
  | _ => []

def spyCmd (list : TokenList) : Trace :=
  match list with
  | [_,t1] => readChecked t1 [] fun _ => []
  | _ => []

/-- `found` tells whether the command search succeeded. `execv` then reads the
copied pointers up to the first NULL, at most 255 of them. -/
def snoopCmd (found : Bool) (list : TokenList) : Trace :=
  match list with
  | _ :: t1 :: rest =>
    readText t1 fun text =>
      if text = "-p".toList then
        match rest with
        | [t2] => readChecked t2 [] fun _ => []
        | _ => []
      else if found then
        (((t1 :: rest).take 255).takeWhile (fun t => t.text.isSome)).map .deref
      else []
  | _ => []

def runBuiltin (found : Bool) : Builtin → TokenList → Trace
  | .hop => hop
  | .reveal => reveal
  | .peek => peek
  | .locate => locate
  | .activities => fun _ => []
  | .resume => resumeCmd
  | .ping => pingCmd
  | .spy => spyCmd
  | .snoop => snoopCmd found

/-! ## Which reads may hit an operator -/

/-- The arguments on which a built-in reads through the text of an operator:
`snoop` before an operator, `ping` with an operator before its signal, `resume`
with an operator in place of its option. -/
def Misreads : Builtin → TokenList → Prop
  | .snoop, _ :: t1 :: _ => t1.type ≠ opWord
  | .ping, [_,t1,t2] => t1.type ≠ opWord ∧ t2.text.any isAllDigits = true
  | .resume, [_,t1,t2,t3,_] => t3.type ≠ opWord ∧ t2.text = some "fg".toList ∧
      t1.text.any (fun target => target.head? == some '%' && isAllDigits target.tail) = true
  | _, _ => False

theorem mem_readText {t : Token} {k : CString → Trace} {a : Action} :
    a ∈ readText t k ↔ a = .deref t ∨ ∃ text, t.text = some text ∧ a ∈ k text := by
  cases h : t.text <;> simp [readText,h]

theorem mem_readChecked {t : Token} {k : CString → Trace} {a : Action} :
    a ∈ readChecked t [] k ↔ ∃ text, t.text = some text ∧ (a = .deref t ∨ a ∈ k text) := by
  cases h : t.text <;> simp [readChecked,h]

/-- A read of a word of the list. -/
def ReadsWord (list : TokenList) (a : Action) : Prop := ∃ t ∈ wordsOf list, a = .deref t

theorem mem_wordsOf {list : TokenList} {t : Token} : t ∈ wordsOf list ↔ t ∈ list ∧ t.type = opWord := by
  simp [wordsOf]

theorem ReadsWord.mono {list list' : TokenList} {a : Action} (h : ReadsWord list a)
    (hsub : ∀ t ∈ list, t ∈ list') : ReadsWord list' a := by
  obtain ⟨t,ht,rfl⟩ := h
  rw [mem_wordsOf] at ht
  exact ⟨t,mem_wordsOf.mpr ⟨hsub t ht.1,ht.2⟩,rfl⟩

theorem readsWord_map {list : TokenList} {a : Action} (ha : a ∈ (wordsOf list).map Action.deref) :
    ReadsWord list a := by
  obtain ⟨t,ht,rfl⟩ := List.mem_map.mp ha
  exact ⟨t,ht,rfl⟩

theorem readsWord_some {list : TokenList} (htag : ∀ t ∈ list, t.Tagged) {t : Token} (ht : t ∈ list)
    {text : CString} (h : t.text = some text) : ReadsWord list (.deref t) :=
  ⟨t,mem_wordsOf.mpr ⟨ht,(htag t ht).mpr (by simp [h])⟩,rfl⟩

/-- One round of an argument loop that skips operators. -/
theorem readsWord_round {t : Token} {rest : TokenList} {k : CString → Trace} {a : Action}
    (hw : t.type = opWord) (hk : ∀ text, a ∈ k text → ReadsWord rest a)
    (ha : a ∈ readText t k) : ReadsWord (t :: rest) a := by
  rcases mem_readText.mp ha with rfl | ⟨text,_,ha⟩
  · exact ⟨t,mem_wordsOf.mpr ⟨List.mem_cons_self,hw⟩,rfl⟩
  · exact (hk text ha).mono (fun u hu => List.mem_cons_of_mem _ hu)

theorem revealLoop_reads {list : TokenList} {target : Bool} {a : Action}
    (ha : a ∈ revealLoop list target) : ReadsWord list a := by
  induction list generalizing target with
  | nil => cases ha
  | cons t rest ih =>
    rw [revealLoop] at ha
    split at ha
    · exact (ih ha).mono (fun u hu => List.mem_cons_of_mem _ hu)
    · next hw =>
      refine readsWord_round (by simpa using hw) (fun text ha => ?_) ha
      split at ha
      · split at ha
        · exact ih ha
        · cases ha
      · split at ha
        · cases ha
        · exact ih ha

theorem peekLoop_reads {list : TokenList} {a : Action} (ha : a ∈ peekLoop list) :
    ReadsWord list a := by
  induction list with
  | nil => cases ha
  | cons t rest ih =>
    rw [peekLoop] at ha
    split at ha
    · exact (ih ha).mono (fun u hu => List.mem_cons_of_mem _ hu)
    · next hw =>
      refine readsWord_round (by simpa using hw) (fun text ha => ?_) ha
      split at ha
      · split at ha
        · exact ih ha
        · cases ha
      · exact ih ha

/-- An unguarded read is a read of a word or hits an operator. -/
theorem readText_cases (list : TokenList) {t : Token} (ht : t ∈ list)
    {k : CString → Trace} {a : Action} (ha : a ∈ readText t k) :
    (t.type ≠ opWord ∧ a = .deref t) ∨ ReadsWord list a ∨
      ∃ text, t.text = some text ∧ a ∈ k text := by
  rcases mem_readText.mp ha with rfl | hk
  · by_cases hw : t.type = opWord
    · exact Or.inr (Or.inl ⟨t,mem_wordsOf.mpr ⟨ht,hw⟩,rfl⟩)
    · exact Or.inl ⟨hw,rfl⟩
  · exact Or.inr (Or.inr hk)

section Tagged
variable {list : TokenList} (htag : ∀ t ∈ list, t.Tagged) {a : Action}
include htag

theorem resumeCmd_cases (ha : a ∈ resumeCmd list) :
    ReadsWord list a ∨ ((∃ t, a = .deref t) ∧ Misreads .resume list) := by
  unfold resumeCmd at ha
  split at ha
  case h_2 => cases ha
  case h_1 t0 t1 t2 rest =>
    obtain ⟨target,htarget,rfl | ha⟩ := mem_readChecked.mp ha
    · exact Or.inl (readsWord_some htag (by simp) htarget)
    split at ha
    · cases ha
    next hvalid =>
    obtain ⟨mode,hmode,rfl | ha⟩ := mem_readChecked.mp ha
    · exact Or.inl (readsWord_some htag (by simp) hmode)
    split at ha
    · cases ha
    split at ha
    case isFalse => cases ha
    next hfg =>
    split at ha
    case h_2 => cases ha
    case h_1 t3 t4 _ _ =>
      rcases readText_cases [t0,t1,t2,t3,t4] (by simp) ha with
        ⟨hop,rfl⟩ | hw | ⟨option,_,ha⟩
      · refine Or.inr ⟨⟨t3,rfl⟩,hop,by rw [hmode, hfg],?_⟩
        simp only [not_or, not_not, Bool.not_eq_false] at hvalid
        simp [htarget,hvalid]
      · exact Or.inl hw
      · split at ha
        · cases ha
        · obtain ⟨timeout,htimeout,rfl | ha⟩ := mem_readChecked.mp ha
          · exact Or.inl (readsWord_some htag (by simp) htimeout)
          · cases ha

theorem pingCmd_cases (ha : a ∈ pingCmd list) :
    ReadsWord list a ∨ ((∃ t, a = .deref t) ∧ Misreads .ping list) := by
  unfold pingCmd at ha
  split at ha
  case h_2 => cases ha
  case h_1 t0 t1 t2 =>
    obtain ⟨sig,hsig,rfl | ha⟩ := mem_readChecked.mp ha
    · exact Or.inl (readsWord_some htag (by simp) hsig)
    split at ha
    · cases ha
    next hdigits =>
    rcases readText_cases [t0,t1,t2] (by simp) ha with ⟨hop,rfl⟩ | hw | ⟨_,_,ha⟩
    · exact Or.inr ⟨⟨t1,rfl⟩,hop,by simpa [hsig] using hdigits⟩
    · exact Or.inl hw
    · cases ha

theorem spyCmd_reads (ha : a ∈ spyCmd list) : ReadsWord list a := by
  unfold spyCmd at ha
  split at ha
  case h_2 => cases ha
  case h_1 t0 t1 =>
    obtain ⟨text,htext,rfl | ha⟩ := mem_readChecked.mp ha
    · exact readsWord_some htag (by simp) htext
    · cases ha

theorem snoopCmd_cases {found : Bool} (ha : a ∈ snoopCmd found list) :
    ReadsWord list a ∨ ((∃ t, a = .deref t) ∧ Misreads .snoop list) := by
  unfold snoopCmd at ha
  split at ha
  case h_2 => cases ha
  case h_1 t0 t1 rest =>
    rcases readText_cases (t0 :: t1 :: rest) (by simp) ha with ⟨hop,rfl⟩ | hw | ⟨text,_,ha⟩
    · exact Or.inr ⟨⟨t1,rfl⟩,hop⟩
    · exact Or.inl hw
    split at ha
    · split at ha
      case h_2 => cases ha
      case h_1 t2 =>
        obtain ⟨pid,hpid,rfl | ha⟩ := mem_readChecked.mp ha
        · exact Or.inl (readsWord_some htag (by simp) hpid)
        · cases ha
    · split at ha
      · obtain ⟨t,ht,rfl⟩ := List.mem_map.mp ha
        have hsome : t.text.isSome = true :=
          List.mem_takeWhile_imp (p := fun t : Token => t.text.isSome) ht
        have hmem := List.mem_of_mem_take ((List.takeWhile_sublist _).subset ht)
        obtain ⟨arg,harg⟩ := Option.isSome_iff_exists.mp hsome
        exact Or.inl (readsWord_some htag (List.mem_cons_of_mem _ hmem) harg)
      · cases ha

/-- A built-in reads words of its list, except on the arguments it misreads. -/
theorem runBuiltin_cases {found : Bool} {b : Builtin} (ha : a ∈ runBuiltin found b list) :
    ReadsWord list a ∨ ((∃ t, a = .deref t) ∧ Misreads b list) := by
  have htail : ∀ t ∈ list.tail, t ∈ list := fun t ht => List.mem_of_mem_tail ht
  cases b with
  | hop =>
    simp only [runBuiltin, hop] at ha
    split at ha
    · cases ha
    · exact Or.inl ((readsWord_map ha).mono htail)
  | reveal => exact Or.inl ((revealLoop_reads ha).mono htail)
  | peek => exact Or.inl ((peekLoop_reads ha).mono htail)
  | locate => exact Or.inl ((readsWord_map ha).mono htail)
  | activities => cases ha
  | resume => exact resumeCmd_cases htag ha
  | ping => exact pingCmd_cases htag ha
  | spy => exact Or.inl (spyCmd_reads htag ha)
  | snoop => exact snoopCmd_cases htag ha

theorem runBuiltin_deref {found : Bool} {b : Builtin} (ha : a ∈ runBuiltin found b list) :
    ∃ t, a = .deref t := by
  rcases runBuiltin_cases htag ha with ⟨t,_,rfl⟩ | ⟨hderef,_⟩
  · exact ⟨t,rfl⟩
  · exact hderef

end Tagged

theorem Misreads.deref {b : Builtin} {list : TokenList} (h : Misreads b list) (found : Bool) :
    ∃ t, t.type ≠ opWord ∧ .deref t ∈ runBuiltin found b list := by
  unfold Misreads at h
  split at h
  case h_1 t0 t1 rest => exact ⟨t1,h,mem_readText.mpr (Or.inl rfl)⟩
  case h_2 t0 t1 t2 =>
    obtain ⟨hop,hdigits⟩ := h
    refine ⟨t1,hop,?_⟩
    cases hsig : t2.text with
    | none => simp [hsig] at hdigits
    | some sig =>
      simp only [hsig, Option.any_some] at hdigits
      simp [runBuiltin,pingCmd,mem_readChecked,mem_readText,hsig,hdigits]
  case h_3 t0 t1 t2 t3 t4 =>
    obtain ⟨hop,hfg,hvalid⟩ := h
    refine ⟨t3,hop,?_⟩
    cases htarget : t1.text with
    | none => simp [htarget] at hvalid
    | some target =>
      simp only [htarget, Option.any_some, Bool.and_eq_true, beq_iff_eq] at hvalid
      refine mem_readChecked.mpr ⟨target,htarget,Or.inr ?_⟩
      rw [if_neg (by simp [hvalid])]
      refine mem_readChecked.mpr ⟨_,hfg,Or.inr ?_⟩
      rw [if_neg (by decide), if_pos rfl]
      exact mem_readText.mpr (Or.inl rfl)
  case h_4 => exact h.elim

end CShellXv6.Executor
