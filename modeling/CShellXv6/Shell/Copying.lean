import CShellXv6.Shell.Tee

/-! # The copy loops of redirections

The feeder copies the input files to a pipe and the writer copies a pipe to the
output files, both through a buffer and with a write loop of their own for what
a `write` leaves over. Here these loops are written as they stand, with whatever
numbers of bytes the operating system answers. If the numbers are positive while
there is something to transfer, nothing is lost. The same loops stand in
`execute_cmd_internal` and in `execute_stage_child`.
-/
namespace CShellXv6.Copying
open Feeder (Byte Code executeCmdInternalFeeder)

/-- The answers of `open`, `read` and `write`. A read of a file or pipe with these bytes
left and a write of this many bytes to an output never transfer more than there is. -/
structure Io (σ : Type*) (code : Code) where
  openFile : σ → ℕ → Bool × σ
  read : σ → List Byte → ℤ × σ
  write : σ → ℕ → ℕ → ℤ × σ
  read_le : ∀ s rest, (read s rest).1 ≤ min code.bufSize rest.length
  write_le : ∀ s fd count, (write s fd count).1 ≤ count

/-- Every file can be opened and every call transfers something while it can. -/
structure Io.Positive {σ : Type*} {code : Code} (io : Io σ code) : Prop where
  opened : ∀ s i, (io.openFile s i).1 = true
  read_pos : ∀ s rest, rest ≠ [] → 0 < (io.read s rest).1
  write_pos : ∀ s fd count, 0 < count → 0 < (io.write s fd count).1

section
variable {σ : Type*} {code : Code} (io : Io σ code)

/-- The loop that writes the bytes of a buffer from the offset `written` on. -/
def writeLoop (fd : ℕ) (buf : List Byte) (written : ℕ) (s : σ) (out : List Byte) :
    σ × List Byte :=
  if _hmore : written < buf.length then
    if _hstop : (io.write s fd (buf.length - written)).1 ≤ 0 then
      ((io.write s fd (buf.length - written)).2,out)
    else
      let w := (io.write s fd (buf.length - written)).1.toNat
      writeLoop fd buf (written + w) (io.write s fd (buf.length - written)).2
        (out ++ (buf.drop written).take w)
  else (s,out)
termination_by buf.length - written

/-- The loop over the chunks of one input file. -/
def copyFile (rest : List Byte) (s : σ) (out : List Byte) : σ × List Byte :=
  if _hmore : 0 < (io.read s rest).1 then
    let bytes := (io.read s rest).1.toNat
    let r := writeLoop io 0 (rest.take bytes) 0 (io.read s rest).2 out
    copyFile (rest.drop bytes) r.1 r.2
  else ((io.read s rest).2,out)
termination_by rest.length
decreasing_by
  have hle := io.read_le s rest
  rw [List.length_drop]
  omega

/-- The loop of the feeder, from the input file `i` on. -/
def feederLoop : ℕ → List (List Byte) → σ → List Byte → σ × List Byte
  | _, [], s, out => (s,out)
  | i, file :: files, s, out =>
    let f := io.openFile s i
    if f.1 then
      let r := copyFile io file f.2 out
      feederLoop (i + 1) files r.1 r.2
    else feederLoop (i + 1) files f.2 out

/-- The loop over the outputs for one chunk, from the output `i` on. -/
def writeOutputs (chunk : List Byte) : ℕ → List (List Byte) → σ → σ × List (List Byte)
  | _, [], s => (s,[])
  | i, out :: outs, s =>
    let w := writeLoop io i chunk 0 s out
    let r := writeOutputs chunk (i + 1) outs w.1
    (r.1,w.2 :: r.2)

/-- The loop of the writer over the chunks of the pipe. -/
def writerLoop (rest : List Byte) (s : σ) (outs : List (List Byte)) : σ × List (List Byte) :=
  if _hmore : 0 < (io.read s rest).1 then
    let bytes := (io.read s rest).1.toNat
    let r := writeOutputs io (rest.take bytes) 0 outs (io.read s rest).2
    writerLoop (rest.drop bytes) r.1 r.2
  else ((io.read s rest).2,outs)
termination_by rest.length
decreasing_by
  have hle := io.read_le s rest
  rw [List.length_drop]
  omega

variable {io} (h : io.Positive)
include h

/-- The offset moves by what was written, so the rest of the buffer follows in order. -/
theorem writeLoop_eq (fd : ℕ) (buf : List Byte) (written : ℕ) (s : σ) (out : List Byte) :
    (writeLoop io fd buf written s out).2 = out ++ buf.drop written := by
  fun_induction writeLoop io fd buf written s out with
  | case1 written s out hmore hstop =>
    have hpos := h.write_pos s fd (buf.length - written) (by omega)
    omega
  | case2 written s out hmore hgo w ih =>
    rw [ih, List.append_assoc, ← List.drop_drop, List.take_append_drop]
  | case3 written s out hend =>
    rw [List.drop_eq_nil_of_le (Nat.le_of_not_lt hend), List.append_nil]

theorem read_ends {rest : List Byte} {s : σ} (hend : ¬0 < (io.read s rest).1) : rest = [] := by
  by_contra hne
  exact hend (h.read_pos s rest hne)

theorem copyFile_eq (rest : List Byte) (s : σ) (out : List Byte) :
    (copyFile io rest s out).2 = out ++ rest := by
  fun_induction copyFile io rest s out with
  | case1 rest s out hmore bytes r ih =>
    rw [ih, writeLoop_eq h, List.drop_zero, List.append_assoc, List.take_append_drop]
  | case2 rest s out hend => rw [read_ends h hend, List.append_nil]

theorem feederLoop_eq (i : ℕ) (files : List (List Byte)) (s : σ) (out : List Byte) :
    (feederLoop io i files s out).2 = out ++ files.flatten := by
  induction files generalizing i s out with
  | nil => rw [feederLoop, List.flatten_nil, List.append_nil]
  | cons file files ih =>
    rw [feederLoop, if_pos (h.opened s i), ih, copyFile_eq h, List.append_assoc,
      List.flatten_cons]

theorem writeOutputs_eq (chunk : List Byte) (i : ℕ) (outs : List (List Byte)) (s : σ) :
    (writeOutputs io chunk i outs s).2 = outs.map (· ++ chunk) := by
  induction outs generalizing i s with
  | nil => rfl
  | cons out outs ih => rw [writeOutputs, ih, writeLoop_eq h, List.drop_zero, List.map_cons]

theorem writerLoop_eq (rest : List Byte) (s : σ) (outs : List (List Byte)) :
    (writerLoop io rest s outs).2 = outs.map (· ++ rest) := by
  fun_induction writerLoop io rest s outs with
  | case1 rest s outs hmore bytes r ih =>
    have hchunk : (fun out : List Byte => out ++ rest) =
        (fun out => out ++ rest.drop bytes) ∘ (fun out => out ++ rest.take bytes) := by
      funext out
      simp
    rw [ih, writeOutputs_eq h, List.map_map, hchunk]
  | case2 rest s outs hend =>
    rw [read_ends h hend]
    simp

/-- Whatever positive numbers of bytes the calls transfer, the feeder writes all its files
in order to the pipe, and the writer writes the whole stream to each of its outputs. -/
theorem copies_lossless :
    (∀ (files : List (List Byte)) (s : σ), (feederLoop io 0 files s []).2 = files.flatten) ∧
      ∀ (stream : List Byte) (s : σ) (outs : List (List Byte)),
        (writerLoop io stream s outs).2 = outs.map (· ++ stream) := by
  constructor
  · intro files s
    rw [feederLoop_eq h, List.nil_append]
  · intro stream s outs
    exact writerLoop_eq h stream s outs

end

/-- Reads of up to three bytes and writes of one byte. -/
def sparing : Io Unit executeCmdInternalFeeder where
  openFile s _ := (true,s)
  read s rest := ((min 3 rest.length : ℕ),s)
  write s _ count := ((min 1 count : ℕ),s)
  read_le s rest := by
    have hsize : executeCmdInternalFeeder.bufSize = 4096 := rfl
    dsimp only
    omega
  write_le s fd count := by
    dsimp only
    omega

theorem copies_lossless_sparing :
    (feederLoop sparing 0 [[1,2,3,4],[5]] () []).2 = [1,2,3,4,5] ∧
      (writerLoop sparing [1,2,3,4] () [[],[9]]).2 = [[1,2,3,4],[9,1,2,3,4]] := by
  have hpositive : sparing.Positive := by
    constructor
    · intro s i
      rfl
    · intro s rest hne
      have hlen := List.length_pos_iff.mpr hne
      dsimp only [sparing]
      omega
    · intro s fd count hcount
      dsimp only [sparing]
      omega
  have hcopies := copies_lossless hpositive
  exact ⟨hcopies.1 _ _,hcopies.2 _ _ _⟩

end CShellXv6.Copying
