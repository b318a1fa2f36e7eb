import Mathlib.Data.List.TakeWhile
import Csup.Base.Clib

/-!
# The fields of a protocol line: `proto.c`

A line is a command letter and fields, one blank between them. `strsep` moves a
`char *` that is `NULL` behind the last field, so a pointer into a line is an
`Option`: the bytes up to the NUL, or `none`.

`Field` is what a field of a well-formed line is, `fieldLine` the line made of
a letter and fields, and `protoGetAscii_rest` says that the fields are read one
by one.
-/

namespace Csup.Proto

/-- `proto_unescape`. A backslash at the end is dropped: the NUL behind it takes
its place. -/
def protoUnescape : List Byte → List Byte
  | 92 :: c :: s =>
    (if c = 95 then 32 else if c = 116 then 9 else if c = 114 then 13
      else if c = 110 then 10 else c) :: protoUnescape s
  | [92] => []
  | c :: s => c :: protoUnescape s
  | [] => []

/-- `strsep(s, " ")` -/
def strsep : Option (List Byte) → Option (List Byte) × Option (List Byte)
  | none => (none, none)
  | some s =>
    (some (s.takeWhile (· ≠ 32)),
      match s.dropWhile (· ≠ 32) with
      | [] => none
      | _ :: rest => some rest)

/-- `proto_get_ascii`: a field and the rest of the line. An empty field is an
error. -/
def protoGetAscii (s : Option (List Byte)) : Option (List Byte) × Option (List Byte) :=
  match strsep s with
  | (none, rest) => (none, rest)
  | (some [], _) => (none, none)
  | (some ret, rest) => (some (protoUnescape ret), rest)

/-- `proto_get_char`: the letter is `none` where the source returns -1. -/
def protoGetChar (s : Option (List Byte)) : Option Byte × Option (List Byte) :=
  match protoGetAscii s with
  | (none, rest) => (none, rest)
  | (some [], rest) => (some 0, rest)   -- a backslash alone
  | (some [c], rest) => (some c, rest)
  | (some _, _) => (none, none)

/-! ## Well-formed lines -/

/-- A field as it is sent. -/
structure Field where
  val : List Byte
  ne_nil : val ≠ []
  no_blank : 32 ∉ val
  no_nul : 0 ∉ val
  no_nl : nl ∉ val

/-- What a field says. -/
def Field.text (f : Field) : List Byte := protoUnescape f.val

/-- Fields, each behind a blank. -/
def blanked (fs : List Field) : List Byte := fs.flatMap fun f => 32 :: f.val

/-- The line of a command. -/
def fieldLine (cmd : Byte) (fs : List Field) : List Byte := cmd :: blanked fs ++ [nl]

/-- The pointer into the line when `fs` are still to be read. -/
def restOf (fs : List Field) : Option (List Byte) :=
  match fs with
  | [] => none
  | f :: fs => some (f.val ++ blanked fs)

theorem zero_notMem_blanked (fs : List Field) : (0 : Byte) ∉ blanked fs := by
  intro h
  obtain ⟨f, -, hf⟩ := List.mem_flatMap.mp h
  rcases List.mem_cons.mp hf with h0 | h0
  · cases h0
  · exact f.no_nul h0

theorem nl_notMem_blanked (fs : List Field) : nl ∉ blanked fs := by
  intro h
  obtain ⟨f, -, hf⟩ := List.mem_flatMap.mp h
  rcases List.mem_cons.mp hf with h0 | h0
  · cases h0
  · exact f.no_nl h0

theorem zero_notMem_cstr (s : List Byte) : 0 ∉ cstr s := fun h => by
  simpa using List.mem_takeWhile_imp h

theorem cstr_of_notMem {s : List Byte} (h : 0 ∉ s) : cstr s = s := by
  have hpos : ∀ b ∈ s, decide (b ≠ 0) = true := fun b hb => by
    have : b ≠ 0 := fun h0 => h (h0 ▸ hb)
    simpa using this
  rw [cstr, ← List.append_nil s, List.takeWhile_append_of_pos hpos]
  rfl

/-- Reading a line takes its newline off. -/
theorem cline_append_nl {s : List Byte} (h : 0 ∉ s) : cline (s ++ [nl]) = s := by
  rw [cline, List.getLast?_append, List.dropLast_concat]
  exact cstr_of_notMem h

theorem cline_fieldLine {cmd : Byte} (h : cmd ≠ 0) (fs : List Field) :
    cline (fieldLine cmd fs) = cmd :: blanked fs := by
  refine cline_append_nl fun h0 => ?_
  rcases List.mem_cons.mp h0 with h0 | h0
  · exact h h0.symm
  · exact zero_notMem_blanked fs h0

theorem strsep_append {s : List Byte} (h : 32 ∉ s) (fs : List Field) :
    strsep (some (s ++ blanked fs)) = (some s, restOf fs) := by
  have hpos : ∀ b ∈ s, decide (b ≠ 32) = true := fun b hb => by
    have : b ≠ 32 := fun h0 => h (h0 ▸ hb)
    simpa using this
  rw [strsep, List.takeWhile_append_of_pos hpos, List.dropWhile_append_of_pos hpos]
  cases fs with
  | nil => simp [blanked, restOf]
  | cons f fs => simp [blanked, restOf]

@[simp] theorem protoGetAscii_nil : protoGetAscii (restOf []) = (none, none) := rfl

@[simp] theorem protoGetAscii_none : protoGetAscii none = (none, none) := rfl

/-- The fields of a line are read one by one. -/
@[simp] theorem protoGetAscii_rest (f : Field) (fs : List Field) :
    protoGetAscii (restOf (f :: fs)) = (some f.text, restOf fs) := by
  rw [protoGetAscii, restOf, strsep_append f.no_blank]
  cases hf : f.val with
  | nil => exact absurd hf f.ne_nil
  | cons c s => simp [Field.text, hf]

/-- The letter of a line is read before its fields. -/
theorem protoGetChar_fieldLine {cmd : Byte} (h0 : cmd ≠ 0) (h32 : cmd ≠ 32) (h92 : cmd ≠ 92)
    (fs : List Field) :
    protoGetChar (some (cline (fieldLine cmd fs))) = (some cmd, restOf fs) := by
  have h : strsep (some (cmd :: blanked fs)) = (some [cmd], restOf fs) :=
    strsep_append (s := [cmd]) (by simpa using h32.symm) fs
  have hu : protoUnescape [cmd] = [cmd] := by
    rw [protoUnescape]
    · rfl
    · exact fun _ _ h _ => h92 h
    · simpa using h92
  rw [cline_fieldLine h0, protoGetChar, protoGetAscii, h]
  simp [hu]

end Csup.Proto
