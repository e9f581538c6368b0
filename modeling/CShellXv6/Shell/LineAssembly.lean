import CShellXv6.Shell.MainLoop
import Mathlib.Data.List.TakeWhile

/-! # Lines of the input

`fgets` hands over the input in pieces: up to a newline, up to the end-of-file
key of a terminal, or as much as the buffer holds. The shell puts the pieces
together again in `accum_line`, whose size is that of the buffer.
-/
namespace CShellXv6.MainLoop
open Lexer Transition
open Jobs (Os)

/-! ## The lines of a text -/

/-- The complete lines of a text, and what follows the last newline. -/
structure Text where
  lines : List CString
  rest : CString
  deriving DecidableEq

def Text.add (x : Text) (c : Char) : Text :=
  if c = '\n' then ⟨x.lines ++ [x.rest],[]⟩ else { x with rest := x.rest ++ [c] }

def textOf (input : List Char) : Text := input.foldl Text.add ⟨[],[]⟩

theorem textOf_append_plain (input : List Char) {chunk : List Char} (h : '\n' ∉ chunk) :
    textOf (input ++ chunk) =
      { textOf input with rest := (textOf input).rest ++ chunk } := by
  unfold textOf
  rw [List.foldl_append]
  generalize List.foldl Text.add ⟨[],[]⟩ input = x
  induction chunk generalizing x with
  | nil => simp
  | cons c rest ih =>
    simp only [List.mem_cons, not_or] at h
    obtain ⟨hc,hrest⟩ := h
    rw [List.foldl_cons, ih hrest]
    simp [Text.add,Ne.symm hc]

theorem textOf_append_line (input : List Char) {chunk : List Char} (h : '\n' ∉ chunk) :
    textOf (input ++ (chunk ++ ['\n'])) =
      ⟨(textOf input).lines ++ [(textOf input).rest ++ chunk],[]⟩ := by
  rw [← List.append_assoc]
  have hplain := textOf_append_plain input h
  unfold textOf at hplain ⊢
  rw [List.foldl_append, hplain]
  simp [Text.add]

/-- What `lex_line` is to get. -/
def Text.commands (x : Text) (tty : Bool) : List CString :=
  if tty = false ∧ x.rest ≠ [] then x.lines ++ [x.rest] else x.lines

/-- The lines with their newlines, and a part at the end that the shell does not
wait to be completed, fit the buffer. -/
def Text.Fits (x : Text) (tty : Bool) : Prop :=
  (∀ l ∈ x.lines, l.length + 1 ≤ maxInputLen) ∧ (tty = false → x.rest.length ≤ maxInputLen)

/-! ## The chunks -/

/-- A chunk that `fgets` can deliver. -/
structure Chunk (buffer : List Char) : Prop where
  nonempty : buffer ≠ []
  length : buffer.length ≤ maxInputLen
  nul : Char.ofNat 0 ∉ buffer
  newline : '\n' ∉ buffer.dropLast

theorem Chunk.cases {buffer : List Char} (h : Chunk buffer) :
    (∃ line, '\n' ∉ line ∧ buffer = line ++ ['\n']) ∨ '\n' ∉ buffer := by
  have hsplit := List.dropLast_append_getLast h.nonempty
  by_cases hlast : buffer.getLast h.nonempty = '\n'
  · exact Or.inl ⟨buffer.dropLast,h.newline,by rw [← hlast, hsplit]⟩
  · refine Or.inr fun hmem => ?_
    rw [← hsplit] at hmem
    rcases List.mem_append.mp hmem with hmem | hmem
    · exact h.newline hmem
    · exact hlast (List.mem_singleton.mp hmem).symm

theorem Chunk.cstring {buffer : List Char} (h : Chunk buffer) : cstring buffer = buffer := by
  refine List.takeWhile_eq_self_iff.mpr fun c hc => ?_
  have hne : c ≠ Char.ofNat 0 := fun heq => h.nul (heq ▸ hc)
  simpa using hne

def Fgets.bytes : Fgets → List Char
  | .chunk buffer => buffer
  | _ => []

/-- The loop together with the input that it has been given. -/
structure Reading where
  main : Main
  input : List Char

def Reading.start : Reading := ⟨.start,[]⟩

def feed {σ : Type*} (os : Os σ) (tty : Bool) (r : Reading) (t : Turn σ) : Option Reading :=
  (step os tty r.main t).map fun m => ⟨m,r.input ++ t.outcome.bytes⟩

/-- No signal interrupts the read, and away from a terminal a chunk is cut short
only by the end of the file. -/
def Delivers {σ : Type*} (tty : Bool) (r : Reading) (t : Turn σ) : Prop :=
  t.signalled = false ∧
  match t.outcome with
  | .chunk buffer => Chunk buffer ∧ (tty = false → r.main.line = [] ∨
      r.main.line.getLast? = some '\n' ∨ r.main.line.length = maxInputLen)
  | .failed _ => False
  | .eof => True

/-- The strings handed to `lex_line`. -/
def Main.lexed (m : Main) : List CString :=
  m.acts.filterMap fun
    | .lex line => some line
    | _ => none

@[simp] theorem reply_lexed (line : CString) : (reply line).filterMap (fun
    | .lex line => some line
    | _ => none) = [] := by
  unfold reply
  split
  · rfl
  split
  · split <;> rfl
  · rfl

@[simp] theorem Main.command_lexed (m : Main) (line : CString) :
    (m.command line).lexed = m.lexed ++ [line] := by
  simp [Main.lexed,Main.command]

/-! ## One chunk -/

section Assemble
variable {m : Main} {chunk : CString}

theorem Main.assemble_newline (tty : Bool) (hline : m.line = chunk ++ ['\n'])
    (hfit : m.accum.length + m.line.length ≤ maxInputLen) :
    m.assemble tty = m.command (m.accum ++ chunk) := by
  have happend : m.append = { m with accum := m.accum ++ (chunk ++ ['\n']) } := by
    have hne : m.line ≠ [] := by simp [hline]
    unfold Main.append
    rw [if_pos ⟨hne,by omega⟩, hline]
  unfold Main.assemble
  rw [happend, ← List.append_assoc]
  simp [Main.command]

theorem Main.append_plain (haccum : '\n' ∉ m.accum) (hline : '\n' ∉ m.line) :
    '\n' ∉ m.append.accum := by
  unfold Main.append
  split
  · simp [haccum,hline]
  · exact haccum

theorem getLast?_ne_newline {l : CString} (h : '\n' ∉ l) : l.getLast? ≠ some '\n' :=
  fun hlast => h (List.mem_of_getLast? hlast)

theorem Main.assemble_tty (haccum : '\n' ∉ m.accum) (hline : '\n' ∉ m.line) :
    m.assemble true = m.append := by
  have hlast := getLast?_ne_newline (Main.append_plain haccum hline)
  simp [Main.assemble,hlast]

theorem Main.assemble_batch (haccum : m.accum = []) (hline : '\n' ∉ m.line) (hne : m.line ≠ [])
    (hfit : m.line.length ≤ maxInputLen) : m.assemble false = m.command m.line := by
  have happend : m.append = { m with accum := m.line } := by
    unfold Main.append
    rw [if_pos ⟨hne,by simp [haccum]; omega⟩, haccum, List.nil_append]
  have hlast := getLast?_ne_newline hline
  simp [Main.assemble,happend,hne,hlast,Main.command]

end Assemble

section Ready
variable {σ : Type*} (m : Main) (t : Turn σ)

@[simp] theorem Main.ready_accum : (m.ready t).accum = m.accum := by
  unfold Main.ready
  dsimp only
  split <;> rfl

@[simp] theorem Main.ready_line : (m.ready t).line = m.line := by
  unfold Main.ready
  dsimp only
  split <;> rfl

@[simp] theorem Main.ready_promptInterrupted :
    (m.ready t).promptInterrupted = (m.promptInterrupted || t.signalled) := by
  unfold Main.ready
  dsimp only
  split <;> rfl

@[simp] theorem Main.ready_lexed : (m.ready t).lexed = m.lexed := by
  unfold Main.ready Main.lexed
  dsimp only
  split
  · simp
  · rfl

end Ready

/-! ## The invariant -/

/-- Until a line is complete, the shell keeps what it has read of it, as long as
that fits. -/
structure Kept (tty : Bool) (m : Main) (input : List Char) : Prop where
  plain : '\n' ∉ m.accum
  batch : tty = false → m.accum = []
  rest : tty = true → (textOf input).Fits tty → (textOf input).rest.length ≤ maxInputLen →
    m.accum = (textOf input).rest
  lexed : (textOf input).Fits tty → m.lexed = (textOf input).commands tty

/-- The buffer holds the last chunk of the input. -/
structure Assembled (tty : Bool) (r : Reading) : Prop where
  quiet : r.main.promptInterrupted = false
  line : r.main.line <:+ r.input
  fresh : r.main.line = [] → r.input = []
  chunk : r.main.line = [] ∨ Chunk r.main.line
  kept : Kept tty r.main r.input

theorem textOf_rest_suffix {input chunk : List Char} (h : chunk <:+ input) (hplain : '\n' ∉ chunk) :
    chunk.length ≤ (textOf input).rest.length := by
  obtain ⟨before,rfl⟩ := h
  rw [textOf_append_plain before hplain]
  simp

theorem textOf_rest_nil {input : List Char} (h : input.getLast? = some '\n') :
    (textOf input).rest = [] := by
  obtain ⟨before,rfl⟩ := List.getLast?_eq_some_iff.mp h
  have hline := textOf_append_line before (List.not_mem_nil (a := '\n'))
  rw [List.nil_append] at hline
  rw [hline]

/-- A text that fits the buffer did so before. -/
theorem Text.Fits.before {tty : Bool} {input buffer : List Char} (hbuffer : Chunk buffer)
    (h : (textOf (input ++ buffer)).Fits tty) : (textOf input).Fits tty := by
  rcases hbuffer.cases with ⟨line,hline,rfl⟩ | hplain
  · rw [textOf_append_line input hline] at h
    refine ⟨fun l hl => h.1 l (List.mem_append_left _ hl),fun _ => ?_⟩
    have hlast := h.1 _ (List.mem_append_right _ (List.mem_singleton_self _))
    simp only [List.length_append] at hlast
    omega
  · rw [textOf_append_plain input hplain] at h
    refine ⟨h.1,fun htty => ?_⟩
    have hrest := h.2 htty
    simp only [List.length_append] at hrest
    omega

/-- A chunk that completes a line finds the room for it. -/
theorem Text.Fits.line {tty : Bool} {input line : List Char} (hline : '\n' ∉ line)
    (h : (textOf (input ++ (line ++ ['\n']))).Fits tty) :
    (textOf input).rest.length + (line.length + 1) ≤ maxInputLen := by
  rw [textOf_append_line input hline] at h
  have hlast := h.1 _ (List.mem_append_right _ (List.mem_singleton_self _))
  simp only [List.length_append] at hlast
  omega

/-- A chunk that fills the buffer leaves no room for more of its line. -/
theorem Text.Fits.not_full {input buffer : List Char} (hbuffer : Chunk buffer)
    (h : (textOf (input ++ buffer)).Fits false) : (textOf input).rest.length < maxInputLen := by
  rcases hbuffer.cases with ⟨line,hline,rfl⟩ | hplain
  · have hroom := h.line hline
    omega
  · have hrest := h.2 rfl
    rw [textOf_append_plain input hplain] at hrest
    have hpos := List.length_pos_of_ne_nil hbuffer.nonempty
    simp only [List.length_append] at hrest
    omega

/-- Away from a terminal a chunk begins a line. -/
theorem Assembled.batch_rest {r : Reading} (hr : Assembled false r) {buffer : List Char}
    (hbuffer : Chunk buffer) (hfits : (textOf (r.input ++ buffer)).Fits false)
    (hprevious : r.main.line = [] ∨ r.main.line.getLast? = some '\n' ∨
      r.main.line.length = maxInputLen) : (textOf r.input).rest = [] := by
  have hcomplete : r.main.line.getLast? = some '\n' → (textOf r.input).rest = [] := by
    intro hlast
    obtain ⟨before,hbefore⟩ := hr.line
    refine textOf_rest_nil ?_
    rw [← hbefore]
    simp [List.getLast?_append,hlast]
  rcases hprevious with hnil | hlast | hfull
  · rw [hr.fresh hnil]
    rfl
  · exact hcomplete hlast
  · rcases hr.chunk with hnil | hchunk
    · simp [hnil,maxInputLen] at hfull
    · rcases hchunk.cases with ⟨line,_,heq⟩ | hplain
      · exact hcomplete (by simp [heq])
      · have hroom := hfits.not_full hbuffer
        have hrest := textOf_rest_suffix hr.line hplain
        omega

theorem Main.append_lexed (m : Main) : m.append.lexed = m.lexed := by
  unfold Main.append
  split <;> rfl

/-- A command line leaves nothing behind. -/
theorem Kept.command {tty : Bool} {m : Main} {input : List Char} {line : CString}
    (hrest : tty = true → (textOf input).rest = [])
    (hlexed : (textOf input).Fits tty → m.lexed ++ [line] = (textOf input).commands tty) :
    Kept tty (m.command line) input :=
  ⟨by simp [Main.command],fun _ => rfl,fun htty _ _ => (hrest htty).symm,
    fun hfits => (Main.command_lexed m line).trans (hlexed hfits)⟩

section Kept
variable {m : Main} {input : List Char} (hchunk : Chunk m.line)
include hchunk

theorem Kept.tty_line (h : Kept true m input) {line : List Char} (hline : '\n' ∉ line)
    (hm : m.line = line ++ ['\n']) : Kept true (m.assemble true) (input ++ m.line) := by
  have htext : textOf (input ++ m.line) =
      ⟨(textOf input).lines ++ [(textOf input).rest ++ line],[]⟩ := by
    rw [hm, textOf_append_line input hline]
  have hfit : (textOf (input ++ m.line)).Fits true → m.accum = (textOf input).rest ∧
      m.accum.length + m.line.length ≤ maxInputLen := by
    intro hfits
    have hbefore := hfits.before hchunk
    rw [hm] at hfits
    have hroom := hfits.line hline
    have haccum := h.rest rfl hbefore (by omega)
    refine ⟨haccum,?_⟩
    rw [haccum, hm]
    simpa using hroom
  by_cases hroom : m.accum.length + m.line.length ≤ maxInputLen
  · rw [Main.assemble_newline true hm hroom]
    refine Kept.command (fun _ => by rw [htext]) fun hfits => ?_
    rw [(hfit hfits).1, h.lexed (hfits.before hchunk), htext]
    simp [Text.commands]
  · -- a line that does not fit is not among those considered
    have hnot : ¬ (textOf (input ++ m.line)).Fits true := fun hfits => hroom (hfit hfits).2
    have happend : m.append = m := by
      unfold Main.append
      rw [if_neg]
      omega
    have hassemble : m.assemble true = m := by
      have hlast := getLast?_ne_newline h.plain
      simp [Main.assemble,happend,hlast]
    rw [hassemble]
    exact ⟨h.plain,fun htty => absurd htty (by simp),fun _ hfits => absurd hfits hnot,
      fun hfits => absurd hfits hnot⟩

theorem Kept.tty_plain (h : Kept true m input) (hline : '\n' ∉ m.line) :
    Kept true (m.assemble true) (input ++ m.line) := by
  have htext := textOf_append_plain input hline
  rw [Main.assemble_tty h.plain hline]
  refine ⟨Main.append_plain h.plain hline,fun htty => absurd htty (by simp),fun _ hfits hrest => ?_,
    fun hfits => ?_⟩
  · have hroom : (textOf input).rest.length + m.line.length ≤ maxInputLen := by
      rw [htext] at hrest
      simpa using hrest
    have haccum := h.rest rfl (hfits.before hchunk) (by omega)
    rw [htext, Main.append, if_pos ⟨hchunk.nonempty,by rw [haccum]; omega⟩, haccum]
  · rw [Main.append_lexed, h.lexed (hfits.before hchunk), htext]
    simp [Text.commands]

theorem Kept.batch_chunk (h : Kept false m input)
    (hrest : (textOf (input ++ m.line)).Fits false → (textOf input).rest = []) :
    Kept false (m.assemble false) (input ++ m.line) := by
  have haccum := h.batch rfl
  have hlexed : (textOf (input ++ m.line)).Fits false → m.lexed = (textOf input).lines := by
    intro hfits
    rw [h.lexed (hfits.before hchunk)]
    simp [Text.commands,hrest hfits]
  rcases hchunk.cases with ⟨line,hline,hm⟩ | hline
  · have hroom : m.accum.length + m.line.length ≤ maxInputLen := by
      rw [haccum]
      simpa using hchunk.length
    rw [Main.assemble_newline false hm hroom]
    refine Kept.command (fun htty => absurd htty (by simp)) fun hfits => ?_
    have hnil := hrest hfits
    rw [hlexed hfits, haccum, hm, textOf_append_line input hline]
    simp [Text.commands,hnil]
  · rw [Main.assemble_batch haccum hline hchunk.nonempty hchunk.length]
    refine Kept.command (fun htty => absurd htty (by simp)) fun hfits => ?_
    have hnil := hrest hfits
    rw [hlexed hfits, textOf_append_plain input hline]
    simp [Text.commands,hnil,hchunk.nonempty]

end Kept

/-! ## Runs -/

theorem Kept.congr {tty : Bool} {m m' : Main} {input : List Char} (h : Kept tty m input)
    (haccum : m'.accum = m.accum) (hlexed : m'.lexed = m.lexed) : Kept tty m' input :=
  ⟨haccum ▸ h.plain,fun htty => haccum.trans (h.batch htty),
    fun htty hfits hrest => haccum.trans (h.rest htty hfits hrest),
    fun hfits => hlexed.trans (h.lexed hfits)⟩

theorem Main.assemble_keeps (m : Main) (tty : Bool) :
    (m.assemble tty).line = m.line ∧ (m.assemble tty).promptInterrupted = m.promptInterrupted := by
  have happend : m.append.line = m.line ∧ m.append.promptInterrupted = m.promptInterrupted := by
    unfold Main.append
    split <;> exact ⟨rfl,rfl⟩
  unfold Main.assemble
  dsimp only
  split
  · exact happend
  split
  · exact happend
  split
  · exact happend
  · exact happend

theorem Main.read_chunk {σ : Type*} (os : Os σ) (tty : Bool) (m : Main) {t : Turn σ}
    {buffer : List Char} (ht : t.outcome = .chunk buffer) (hbuffer : Chunk buffer) :
    m.read os tty t = { m with line := buffer }.assemble tty := by
  simp only [Main.read, ht, hbuffer.cstring]

/-- Without signals and with nothing left to complete, the end of the input only
warns or leaves. -/
theorem Main.read_eof {σ : Type*} (os : Os σ) {tty : Bool} {m : Main} {t : Turn σ}
    (ht : t.outcome = .eof) (hquiet : m.promptInterrupted = false)
    (hbatch : tty = false → m.accum = []) :
    (m.read os tty t).line = m.line ∧ (m.read os tty t).promptInterrupted = false ∧
      (m.read os tty t).accum = m.accum ∧ (m.read os tty t).lexed = m.lexed := by
  unfold Main.read
  rw [ht]
  dsimp only
  split
  · simp [Main.interrupted,hquiet]
  unfold Main.endOfInput
  split
  · next haccum =>
    have htty : tty = true := by
      by_contra hnot
      exact haccum (hbatch (by simpa using hnot))
    simp [htty,hquiet]
  split
  · simp [hquiet,Main.lexed]
  · simp [hquiet,Main.lexed]

theorem Assembled.feed {σ : Type*} {os : Os σ} {tty : Bool} {r r' : Reading} {t : Turn σ}
    (hr : Assembled tty r) (hdelivers : Delivers tty r t) (h : feed os tty r t = some r') :
    Assembled tty r' := by
  obtain ⟨m,hstep,rfl⟩ := Option.map_eq_some_iff.mp h
  obtain ⟨_,hpass⟩ := Option.ite_none_right_eq_some.mp hstep
  cases hpass
  obtain ⟨hsignal,houtcome⟩ := hdelivers
  have hquiet : (r.main.ready t).promptInterrupted = false := by simp [hr.quiet,hsignal]
  have hready : Kept tty (r.main.ready t) r.input := hr.kept.congr (by simp) (by simp)
  cases ht : t.outcome with
  | chunk buffer =>
    rw [ht] at houtcome
    obtain ⟨hbuffer,hprevious⟩ := houtcome
    have hread := (r.main.ready t).read_chunk os tty ht hbuffer
    obtain ⟨hline,hprompt⟩ := Main.assemble_keeps { r.main.ready t with line := buffer } tty
    have hkept : Kept tty ({ r.main.ready t with line := buffer }.assemble tty)
        (r.input ++ buffer) := by
      cases tty with
      | false =>
        refine Kept.batch_chunk (m := { r.main.ready t with line := buffer }) hbuffer
          (hready.congr rfl rfl) ?_
        exact fun hfits => hr.batch_rest hbuffer hfits (hprevious rfl)
      | true =>
        rcases hbuffer.cases with ⟨line,hplain,heq⟩ | hplain
        · exact Kept.tty_line (m := { r.main.ready t with line := buffer }) hbuffer
            (hready.congr rfl rfl) hplain heq
        · exact Kept.tty_plain (m := { r.main.ready t with line := buffer }) hbuffer
            (hready.congr rfl rfl) hplain
    unfold Main.pass
    rw [hread]
    refine ⟨hprompt.trans hquiet,?_,fun hnil => ?_,Or.inr ?_,hkept.congr rfl rfl⟩
    · exact hline ▸ List.suffix_append r.input buffer
    · exact absurd (hline.symm.trans hnil) hbuffer.nonempty
    · exact hline.symm ▸ hbuffer
  | failed errno =>
    rw [ht] at houtcome
    exact houtcome.elim
  | eof =>
    obtain ⟨hline,hprompt,haccum,hlexed⟩ := Main.read_eof os ht hquiet hready.batch
    rw [Main.ready_line] at hline
    unfold Main.pass
    simp only [Fgets.bytes, List.append_nil]
    refine ⟨hprompt,?_,fun hnil => ?_,?_,hready.congr haccum hlexed⟩
    · exact hline.symm ▸ hr.line
    · exact hr.fresh (hline.symm.trans hnil)
    · exact hline.symm ▸ hr.chunk

theorem start_assembled (tty : Bool) : Assembled tty .start :=
  ⟨rfl,List.suffix_rfl,fun _ => rfl,Or.inl rfl,by simp [Reading.start,Main.start],fun _ => rfl,
    fun _ _ _ => rfl,fun _ => by simp [Reading.start,Text.commands,textOf,Main.lexed,Main.start]⟩

/-- Lines that fit the buffer reach `lex_line` one by one and unchanged. -/
theorem lines_assembled {σ : Type*} {os : Os σ} {tty : Bool} {r : Reading}
    (hr : Runs (feed os tty) (Delivers tty) .start r) (hfits : (textOf r.input).Fits tty) :
    r.main.lexed = (textOf r.input).commands tty ∧
      (r.input.getLast? = some '\n' → r.main.accum = []) := by
  have hassembled : Assembled tty r :=
    hr.invariant (start_assembled tty) fun _ _ _ h hdelivers hfeed => h.feed hdelivers hfeed
  refine ⟨hassembled.kept.lexed hfits,fun hlast => ?_⟩
  cases tty with
  | false => exact hassembled.kept.batch rfl
  | true =>
    have hrest := textOf_rest_nil hlast
    rw [hassembled.kept.rest rfl hfits (by simp [hrest]), hrest]

/-- A pass that reads a chunk. -/
def Reading.deliver (r : Reading) (tty : Bool) (buffer : List Char) : Reading :=
  ⟨r.main.pass noChildren tty (quiet (.chunk buffer)),r.input ++ buffer⟩

theorem Reading.deliver_run (r : Reading) (tty : Bool) {buffer : List Char}
    (hrunning : r.main.running = true) (hbuffer : Chunk buffer)
    (hprevious : tty = false → r.main.line = [] ∨ r.main.line.getLast? = some '\n' ∨
      r.main.line.length = maxInputLen) :
    Runs (feed noChildren tty) (Delivers tty) r (r.deliver tty buffer) := by
  have hfeed : feed noChildren tty r (quiet (.chunk buffer)) = some (r.deliver tty buffer) := by
    simp [feed,step,hrunning,Reading.deliver,quiet,Fgets.bytes]
  have hdelivers : Delivers tty r (quiet (.chunk buffer)) := ⟨rfl,hbuffer,hprevious⟩
  exact Runs.single hdelivers hfeed

theorem newline_chunk : Chunk ['\n'] := ⟨by simp,by simp [maxInputLen],by decide,by simp⟩

theorem lines_assembled_ls :
    ∃ r, Runs (feed noChildren true) (Delivers true) .start r ∧ r.main.lexed = [['l','s']] ∧
      r.main.accum = [] := by
  have hls : Chunk ['l','s'] := ⟨by simp,by simp [maxInputLen],by decide,by decide⟩
  have hr := (Reading.deliver_run .start true rfl hls (by simp)).trans
    (Reading.deliver_run _ true rfl newline_chunk (by simp))
  have htext : textOf ([] ++ ['l','s'] ++ ['\n']) = ⟨[['l','s']],[]⟩ := by simp [textOf,Text.add]
  obtain ⟨hlexed,haccum⟩ := lines_assembled hr (by
    refine htext ▸ ⟨?_,by simp⟩
    simp [maxInputLen])
  exact ⟨_,hr,hlexed.trans (htext ▸ rfl),haccum rfl⟩

/-- What a chunk does when nothing is left to complete. -/
theorem Reading.deliver_main (r : Reading) (line : CString) {buffer : List Char}
    (hbuffer : Chunk buffer) (hrunning : r.main.running = true) (haccum : r.main.accum = [])
    (hassemble : ∀ m : Main, m.line = buffer → m.accum = [] → m.assemble false = m.command line) :
    (r.deliver false buffer).main.lexed = r.main.lexed ++ [line] ∧
      (r.deliver false buffer).main.accum = [] ∧ (r.deliver false buffer).main.line = buffer ∧
      (r.deliver false buffer).main.running = true := by
  have hread := (r.main.ready (quiet (.chunk buffer))).read_chunk noChildren false
    (t := quiet (.chunk buffer)) rfl hbuffer
  rw [hassemble _ rfl (by simpa using haccum)] at hread
  unfold Reading.deliver Main.pass
  rw [hread]
  refine ⟨?_,rfl,rfl,?_⟩
  · simpa [Main.lexed,Main.command] using r.main.ready_lexed (quiet (.chunk buffer))
  · simpa [Main.command,Main.ready,haccum] using hrunning

/-- A line that fills the buffer is taken for a command before its newline is read. -/
theorem full_line_split {line : CString} (hline : Chunk line) (hplain : '\n' ∉ line)
    (hlength : line.length = maxInputLen) :
    ∃ r, Runs (feed noChildren false) (Delivers false) .start r ∧ r.input = line ++ ['\n'] ∧
      r.main.lexed = [line,[]] := by
  obtain ⟨hlexed₁,haccum₁,hline₁,hrunning₁⟩ :=
    Reading.deliver_main .start line hline rfl rfl fun m hm haccum => by
      rw [Main.assemble_batch haccum (hm ▸ hplain) (hm ▸ hline.nonempty) (hm ▸ hline.length), hm]
  have hrun₁ := Reading.deliver_run .start false rfl hline (fun _ => Or.inl rfl)
  generalize hr : Reading.deliver .start false line = r at *
  obtain ⟨hlexed₂,_,_,_⟩ :=
    Reading.deliver_main r [] newline_chunk hrunning₁ haccum₁
      fun m hm haccum => by
        have hline : m.line = [] ++ ['\n'] := hm
        rw [Main.assemble_newline false hline (by simp [hm,haccum,maxInputLen]), haccum]
        rfl
  have hrun₂ := Reading.deliver_run r false hrunning₁ newline_chunk
    (fun _ => Or.inr (Or.inr (hline₁ ▸ hlength)))
  refine ⟨_,hrun₁.trans hrun₂,?_,?_⟩
  · rw [← hr]
    rfl
  · rw [hlexed₂, hlexed₁]
    rfl

theorem long_line_split :
    ∃ r, Runs (feed noChildren false) (Delivers false) .start r ∧
      r.main.lexed ≠ (textOf r.input).commands false := by
  have honly : ∀ c ∈ List.replicate maxInputLen 'a', c = 'a' :=
    fun c hc => (List.mem_replicate.mp hc).2
  have hlength : (List.replicate maxInputLen 'a').length = maxInputLen := List.length_replicate
  generalize List.replicate maxInputLen 'a' = line at honly hlength
  have hplain : '\n' ∉ line := fun h => absurd (honly _ h) (by decide)
  have hnul : Char.ofNat 0 ∉ line := fun h => absurd (honly _ h) (by decide)
  have hne : line ≠ [] := by
    rintro rfl
    cases hlength
  have hline : Chunk line := ⟨hne,hlength.le,hnul,fun h => hplain (List.dropLast_subset _ h)⟩
  obtain ⟨r,hrun,hinput,hlexed⟩ := full_line_split hline hplain hlength
  have htext : textOf (line ++ ['\n']) = ⟨[line],[]⟩ := textOf_append_line [] hplain
  refine ⟨r,hrun,?_⟩
  rw [hlexed, hinput, htext]
  simp [Text.commands]

end CShellXv6.MainLoop
