import CShellXv6.Shell.Frecency

/-! # `hop`

`hop` goes through its arguments one by one. Every change of the working directory is made
by `do_chdir`, which keeps the directory it leaves in `OLDPWD` and visits the one it comes
to in the history. The file system does not change during the run.
-/
namespace CShellXv6.Hop
open Lexer History Frecency

variable {Place : Type*}

/-- What the system calls tell of the directories, seen from a working directory: the
absolute path, where a path leads to, and whether `stat` finds a directory there. -/
structure FileSystem (Place : Type*) where
  getcwd : Place → Option CString
  chdir : Place → CString → Option Place
  isDir : Place → CString → Bool

/-- `getcwd` succeeds, and the path it gives leads back to the directory or nowhere. -/
structure FileSystem.Lawful (fs : FileSystem Place) : Prop where
  named : ∀ x, ∃ c path, fs.getcwd x = some (c :: path)
  back : ∀ x y z path, fs.getcwd y = some path → fs.chdir x path = some z → z = y

structure State (Place : Type*) where
  cwd : Place
  oldpwd : Option CString
  db : List Entry
  printed : List CString
  deriving DecidableEq

def State.print (s : State Place) (line : CString) : State Place :=
  { s with printed := s.printed ++ [line] }

def noSuchDirectory : CString := "hop: No such directory".toList

section
variable (fs : FileSystem Place) (home : CString)

/-- The value returned, and the state. -/
def doChdir (now : ℤ) (s : State Place) (target : CString) : Bool × State Place :=
  let prev := (fs.getcwd s.cwd).getD []
  match fs.chdir s.cwd target with
  | none => (false,s)
  | some place =>
    let db := match fs.getcwd place with
      | some landed => updateFrecency now landed s.db
      | none => s.db
    (true,{ s with cwd := place, db, oldpwd := if prev = [] then s.oldpwd else some prev })

/-- `do_chdir` with the message for a failure. -/
def tryChdir (now : ℤ) (s : State Place) (target : CString) : Bool × State Place :=
  let r := doChdir fs now s target
  if r.1 then r else (r.1,r.2.print noSuchDirectory)

/-- The body of the loop for a word, with whether the working directory was changed. -/
def hopArg (now : ℤ) (s : State Place) (arg : CString) : Bool × State Place :=
  if arg = ['~'] then doChdir fs now s home
  else if arg = ['.'] then (false,s)
  else if arg = ['.','.'] then doChdir fs now s ['.','.']
  else if arg = ['-'] then
    match s.oldpwd with
    | some old => tryChdir fs now (s.print old) old
    | none => (false,s)
  else if fs.isDir s.cwd arg then tryChdir fs now s arg
  else
    match frecencyLookup (fs.isDir s.cwd) now s.db arg with
    | some found => tryChdir fs now s found
    | none => (false,s.print noSuchDirectory)

/-- The loop over the tokens, with the clock at the token `i`. -/
def hopLoop (clock : ℕ → ℤ) : ℕ → TokenList → State Place → State Place
  | _, [], s => s
  | i, t :: rest, s =>
    match t with
    | ⟨.opWord,some arg⟩ => hopLoop clock (i + 1) rest (hopArg fs home (clock i) s arg).2
    | _ => hopLoop clock (i + 1) rest s

def hop (clock : ℕ → ℤ) (list : TokenList) (s : State Place) : State Place :=
  if list.length ≤ 1 then (doChdir fs (clock 0) s home).2
  else hopLoop fs home clock 1 list.tail s

/-! ## The directories that are left -/

/-- The directory that a change leaves. -/
def left (s : State Place) (r : Bool × State Place) : List Place := if r.1 then [s.cwd] else []

def loopDepartures (clock : ℕ → ℤ) : ℕ → TokenList → State Place → List Place
  | _, [], _ => []
  | i, t :: rest, s =>
    match t with
    | ⟨.opWord,some arg⟩ =>
      let r := hopArg fs home (clock i) s arg
      left s r ++ loopDepartures clock (i + 1) rest r.2
    | _ => loopDepartures clock (i + 1) rest s

/-- The working directories held just before each successful change of the run. -/
def departures (clock : ℕ → ℤ) (list : TokenList) (s : State Place) : List Place :=
  if list.length ≤ 1 then left s (doChdir fs (clock 0) s home)
  else loopDepartures fs home clock 1 list.tail s

/-- A command changes the working directory. -/
def Succeeds (s : State Place) (command : (ℕ → ℤ) × TokenList) : Prop :=
  departures fs home command.1 command.2 s ≠ []

/-- A sequence of commands. -/
def hops (commands : List ((ℕ → ℤ) × TokenList)) (s : State Place) : State Place :=
  commands.foldl (fun s command => hop fs home command.1 command.2 s) s

/-! ## One argument -/

/-- A step that fails leaves all but the output as it was, and one that succeeds keeps the
directory it comes from. -/
structure Moves (s : State Place) (r : Bool × State Place) : Prop where
  failed : r.1 = false → r.2.cwd = s.cwd ∧ r.2.oldpwd = s.oldpwd ∧ r.2.db = s.db
  succeeded : r.1 = true → r.2.oldpwd = fs.getcwd s.cwd

variable {fs home}

theorem Moves.stay {s t : State Place} (hcwd : t.cwd = s.cwd) (hold : t.oldpwd = s.oldpwd)
    (hdb : t.db = s.db) : Moves fs s (false,t) :=
  ⟨fun _ => ⟨hcwd,hold,hdb⟩,fun h => by cases h⟩

variable (hfs : fs.Lawful)
include hfs

theorem doChdir_moves (now : ℤ) (s : State Place) (target : CString) :
    Moves fs s (doChdir fs now s target) := by
  obtain ⟨c,path,hprev⟩ := hfs.named s.cwd
  unfold doChdir
  cases fs.chdir s.cwd target with
  | none => exact .stay rfl rfl rfl
  | some place =>
    constructor
    · intro h
      cases h
    · intro _
      simp [hprev]

theorem tryChdir_moves (now : ℤ) (s : State Place) (target : CString) :
    Moves fs s (tryChdir fs now s target) := by
  have hmoves := doChdir_moves hfs now s target
  unfold tryChdir
  dsimp only
  split
  · exact hmoves
  · next hfailed =>
    obtain ⟨hcwd,hold,hdb⟩ := hmoves.failed (by simpa using hfailed)
    rw [Bool.not_eq_true] at hfailed
    rw [hfailed]
    exact .stay hcwd hold hdb

theorem hopArg_moves (now : ℤ) (s : State Place) (arg : CString) :
    Moves fs s (hopArg fs home now s arg) := by
  unfold hopArg
  split
  · exact doChdir_moves hfs now s home
  split
  · exact .stay rfl rfl rfl
  split
  · exact doChdir_moves hfs now s _
  split
  · cases s.oldpwd with
    | some old => exact ⟨(tryChdir_moves hfs now (s.print old) old).failed,
        (tryChdir_moves hfs now (s.print old) old).succeeded⟩
    | none => exact .stay rfl rfl rfl
  split
  · exact tryChdir_moves hfs now s arg
  · cases frecencyLookup (fs.isDir s.cwd) now s.db arg with
    | some found => exact tryChdir_moves hfs now s found
    | none => exact .stay rfl rfl rfl

/-! ## All arguments -/

/-- `OLDPWD` has the last directory that was left, or what it had. -/
def Tracks (fs : FileSystem Place) (s : State Place) (places : List Place) (t : State Place) :
    Prop :=
  t.oldpwd = match places.getLast? with
    | some d => fs.getcwd d
    | none => s.oldpwd

omit hfs in
theorem Moves.tracks {s : State Place} {r : Bool × State Place} (h : Moves fs s r) :
    Tracks fs s (left s r) r.2 := by
  unfold Tracks left
  cases hr : r.1 with
  | true => exact h.succeeded hr
  | false => exact (h.failed hr).2.1

omit hfs in
theorem Tracks.trans {s t u : State Place} {places later : List Place} (h : Tracks fs s places t)
    (k : Tracks fs t later u) : Tracks fs s (places ++ later) u := by
  unfold Tracks at h k ⊢
  rw [List.getLast?_append]
  cases hlater : later.getLast? with
  | some d =>
    rw [hlater] at k
    exact k
  | none =>
    rw [hlater] at k
    exact k.trans h

theorem hopLoop_tracks (clock : ℕ → ℤ) (i : ℕ) (list : TokenList) (s : State Place) :
    Tracks fs s (loopDepartures fs home clock i list s) (hopLoop fs home clock i list s) := by
  induction list generalizing i s with
  | nil => rfl
  | cons t rest ih =>
    unfold loopDepartures hopLoop
    split
    · exact (hopArg_moves hfs _ s _).tracks.trans (ih _ _)
    · exact ih _ s

theorem hop_tracks (clock : ℕ → ℤ) (list : TokenList) (s : State Place) :
    Tracks fs s (departures fs home clock list s) (hop fs home clock list s) := by
  unfold departures hop
  split
  · exact (doChdir_moves hfs _ s home).tracks
  · exact hopLoop_tracks hfs clock 1 list.tail s

/-! ## There and back -/

/-- `OLDPWD` is the path of a directory. -/
def Known (fs : FileSystem Place) (s : State Place) : Prop := ∃ y, s.oldpwd = fs.getcwd y

omit hfs in
theorem Tracks.known {s t : State Place} {places : List Place} (h : Tracks fs s places t)
    (hs : Known fs s ∨ places ≠ []) : Known fs t := by
  unfold Tracks at h
  cases hlast : places.getLast? with
  | some d =>
    rw [hlast] at h
    exact ⟨d,h⟩
  | none =>
    rw [hlast] at h
    rcases hs with ⟨y,hy⟩ | hne
    · exact ⟨y,h.trans hy⟩
    · exact absurd (List.getLast?_eq_none_iff.mp hlast) hne

theorem hops_known (commands : List ((ℕ → ℤ) × TokenList)) {s : State Place}
    (hs : Known fs s) : Known fs (hops fs home commands s) := by
  induction commands generalizing s with
  | nil => exact hs
  | cons command rest ih => exact ih ((hop_tracks hfs command.1 command.2 s).known (Or.inl hs))

omit hfs in
/-- The directory that a successful `do_chdir` comes to. -/
theorem doChdir_cwd {now : ℤ} {s : State Place} {target : CString}
    (h : (doChdir fs now s target).1 = true) :
    fs.chdir s.cwd target = some (doChdir fs now s target).2.cwd := by
  unfold doChdir at h ⊢
  cases hchdir : fs.chdir s.cwd target with
  | none =>
    rw [hchdir] at h
    cases h
  | some place => rfl

omit hfs in
theorem hopArg_minus {now : ℤ} {s : State Place} {old : CString} (h : s.oldpwd = some old) :
    hopArg fs home now s ['-'] = tryChdir fs now (s.print old) old := by
  simp [hopArg, h]

/-- A successful `-` goes to the directory whose path was in `OLDPWD`. -/
theorem minus_cwd {now : ℤ} {s : State Place} {y : Place} (hy : s.oldpwd = fs.getcwd y)
    (h : (hopArg fs home now s ['-']).1 = true) : (hopArg fs home now s ['-']).2.cwd = y := by
  obtain ⟨c,path,hpath⟩ := hfs.named y
  rw [hopArg_minus (hy.trans hpath)] at h ⊢
  have hdone : (doChdir fs now (s.print (c :: path)) (c :: path)).1 = true := by
    unfold tryChdir at h
    dsimp only at h
    split at h
    · exact h
    · exact h
  rw [tryChdir, if_pos hdone]
  exact hfs.back _ _ _ _ hpath (doChdir_cwd hdone)

theorem minus_twice {now later : ℤ} {s : State Place} (hs : Known fs s)
    (hfirst : (hopArg fs home now s ['-']).1 = true)
    (hsecond : (hopArg fs home later (hopArg fs home now s ['-']).2 ['-']).1 = true) :
    (hopArg fs home later (hopArg fs home now s ['-']).2 ['-']).2.cwd = s.cwd ∧
      (hopArg fs home later (hopArg fs home now s ['-']).2 ['-']).2.oldpwd = s.oldpwd := by
  obtain ⟨y,hy⟩ := hs
  have hmoves : ∀ now s, Moves fs s (hopArg fs home now s ['-']) :=
    fun now s => hopArg_moves hfs now s ['-']
  have hleft := (hmoves now s).succeeded hfirst
  have hthere := minus_cwd hfs hy hfirst
  constructor
  · exact minus_cwd hfs hleft hsecond
  · rw [(hmoves later _).succeeded hsecond, hthere, hy]

/-- `OLDPWD` follows the successful changes and nothing else changes it, an argument that
fails changes nothing, and two `-` that succeed lead back. -/
theorem hop_oldpwd (s : State Place) :
    (∀ clock list, (hop fs home clock list s).oldpwd =
        match (departures fs home clock list s).getLast? with
        | some d => fs.getcwd d
        | none => s.oldpwd) ∧
      (∀ now arg, (hopArg fs home now s arg).1 = false →
        (hopArg fs home now s arg).2.cwd = s.cwd ∧
          (hopArg fs home now s arg).2.oldpwd = s.oldpwd ∧
            (hopArg fs home now s arg).2.db = s.db) ∧
      ∀ command commands, Succeeds fs home s command →
        ∀ t, t = hops fs home (command :: commands) s → ∀ now later,
          (hopArg fs home now t ['-']).1 = true →
            (hopArg fs home later (hopArg fs home now t ['-']).2 ['-']).1 = true →
              (hopArg fs home later (hopArg fs home now t ['-']).2 ['-']).2.cwd = t.cwd ∧
                (hopArg fs home later (hopArg fs home now t ['-']).2 ['-']).2.oldpwd =
                  t.oldpwd := by
  refine ⟨fun clock list => ?_,fun now arg h => ?_,?_⟩
  · exact hop_tracks hfs clock list s
  · exact (hopArg_moves hfs now s arg).failed h
  · rintro command commands hsucceeds t rfl now later hfirst hsecond
    have hset := (hop_tracks hfs command.1 command.2 s).known (Or.inr hsucceeds)
    exact minus_twice hfs (hops_known hfs commands hset) hfirst hsecond

end

/-- Two directories that can be reached from each other by their paths. -/
def twoDirs : FileSystem Bool where
  getcwd place := some (if place then "/a".toList else "/b".toList)
  chdir _ path :=
    if path = "/a".toList then some true else if path = "/b".toList then some false else none
  isDir _ path := path = "/a".toList || path = "/b".toList

theorem twoDirs_lawful : twoDirs.Lawful where
  named place := by
    cases place with
    | true => exact ⟨'/',['a'],rfl⟩
    | false => exact ⟨'/',['b'],rfl⟩
  back x y z path hpath hchdir := by
    cases y with
    | true =>
      cases hpath
      cases hchdir
      rfl
    | false =>
      cases hpath
      cases hchdir
      rfl

def atA : State Bool := ⟨true,none,[],[]⟩

/-- `hop /b`, and then two times `-`. -/
theorem hop_oldpwd_twoDirs :
    hop twoDirs "/a".toList (fun _ => 0) [.word "hop".toList,.word "/b".toList] atA =
        ⟨false,some "/a".toList,[⟨"/b".toList,1,0⟩],[]⟩ ∧
      (hopArg twoDirs "/a".toList 2 (hopArg twoDirs "/a".toList 1
        (hops twoDirs "/a".toList
          [(fun _ => 0,[.word "hop".toList,.word "/b".toList])] atA) ['-']).2 ['-']).2.cwd =
        (hops twoDirs "/a".toList
          [(fun _ => 0,[.word "hop".toList,.word "/b".toList])] atA).cwd := by
  refine ⟨by decide +kernel,?_⟩
  have htwice := (@hop_oldpwd Bool twoDirs "/a".toList twoDirs_lawful atA).2.2
  exact (htwice (fun _ => 0,[.word "hop".toList,.word "/b".toList]) []
    (by unfold Succeeds; decide +kernel) _ rfl 1 2 (by decide +kernel) (by decide +kernel)).1

end CShellXv6.Hop
