import Csup.Framework.LineReads
import Csup.Pathcomp.Defs
import Csup.Proto.Codec
import Csup.Status.Defs

/-!
# Status files: `status.c`

The reading and the writing of records: `status_rdraw` reads the type and the name,
`statusrec_cook` the other fields, `status_wr` writes a record and the directories
around it, `status_wrraw` copies a line whose name has been read.

A `State` has what these functions look at: the file that is read, as the bytes
that are left of it, and what has been written. Reads and writes do not fail.
-/

namespace Csup

/-- A `char` as a number. -/
def schar (c : Byte) : Int := c.toBitVec.toInt

/-- The loop of `pathcmp`: a slash is less than any other byte of a name. -/
def pathcmp : List Byte → List Byte → Int
  | [], [] => 0
  | [], d :: _ => - schar (if d = 47 then 1 else d)
  | c :: _, [] => schar (if c = 47 then 1 else c)
  | c :: s, d :: t =>
    let c1 := if c = 47 then 1 else c
    let c2 := if d = 47 then 1 else d
    if c1 = c2 then pathcmp s t else schar c1 - schar c2

end Csup

namespace Csup.Status

open Csup.Attrs
open Csup.Framework
open Csup.Pathcomp (PcType Event)
open Csup.Proto

/-- The attributes that the platform has, and the names of ids. -/
structure Env where
  fflags : Bool
  ids : Ids

/-- `STATUS_ERR_PARSE` and so on. -/
inductive StatusErr
  | trunc | parse | unsorted | bogusDirup
  | badType (cmd : Option Byte)
  deriving DecidableEq

inductive Fault
  | assertion
  | pathcomp (f : Pathcomp.Fault)

/-- `struct status` -/
structure State where
  rd : Option (List Byte)
  wr : Option (List Byte)
  pc : Pathcomp.State
  previous : Option StatusRec
  eof : Bool
  linenum : Nat
  depth : Nat
  error : Option StatusErr

/-! ## Reading -/

/-- `statusrec_cmp` -/
def statusrecCmp (a b : StatusRec) : Int :=
  let lena := a.file.length
  let lenb := b.file.length
  if a.type = .dirup ∧ (lena < lenb ∧ b.file[lena]? = some 47 ∨ lena = lenb) ∧
      a.file = b.file.take lena then 1
  else if b.type = .dirup ∧ (lenb < lena ∧ a.file[lenb]? = some 47 ∨ lenb = lena) ∧
      a.file.take lenb = b.file then -1
  else pathcmp a.file b.file

/-- The record with the type and the name only. -/
def rawRec (type : SrType) (file : List Byte) : StatusRec :=
  ⟨type, file, none, none, none, none, none, none⟩

/-- The type of a line. -/
def typeOf : Option Byte → Option SrType
  | some 65 => some .filelive
  | some 68 => some .dirdown
  | some 67 => some .checkoutlive
  | some 99 => some .checkoutdead
  | some 85 => some .dirup
  | some 86 => some .filelive
  | some 118 => some .filedead
  | _ => none

/-- `stream_getln` -/
def streamGetln (rd : List Byte) : Option (List Byte × List Byte) :=
  if rd = [] then none else some (cline (lineOf nl rd), behindLine nl rd)

/-- The directories that are open behind a record. -/
def depthAfter (type : SrType) (depth : Nat) : Nat :=
  match type with
  | .dirdown => depth + 1
  | .dirup => depth - 1
  | _ => depth

/-- `status_rdraw`: the status, the record, and what is left of its line. -/
def statusRdraw (st : State) : State × Option (StatusRec × Option (List Byte)) :=
  match st.rd with
  | none => (st, none)
  | some rd =>
    if st.eof then (st, none)
    else
      match streamGetln rd with
      | none =>
        if st.depth ≠ 0 then ({ st with error := some .trunc }, none)
        else ({ st with eof := true }, none)
      | some (line, rd) =>
        let st := { st with rd := some rd, linenum := st.linenum + 1 }
        let (cmd, line) := protoGetChar (some line)
        let (file, line) := protoGetAscii line
        match file with
        | none => ({ st with error := some .parse }, none)
        | some file =>
          match typeOf cmd with
          | none => ({ st with error := some (.badType cmd) }, none)
          | some type =>
            if type = .dirup ∧ st.depth = 0 then ({ st with error := some .bogusDirup }, none)
            else
              let st := { st with depth := depthAfter type st.depth }
              let sr := rawRec type file
              if st.previous.any (fun p => 0 ≤ statusrecCmp p sr) then
                ({ st with error := some .unsorted }, none)
              else ({ st with previous := some sr }, some (sr, line))

/-- `fattr_decode`, `NULL` when it fails. -/
def decoded (env : Env) (attr : List Byte) : Option Fattr :=
  match fattrDecode env.fflags env.ids attr with
  | .ok fa => some fa
  | .error _ => none

/-- `statusrec_cook`: the record with its fields; `none` where it returns -1. -/
def statusrecCook (env : Env) (sr : StatusRec) (line : Option (List Byte)) : Option StatusRec :=
  match sr.type with
  | .filedead | .filelive | .dirup =>
    match protoGetAscii line with
    | (some clientattr, none) =>
      (decoded env clientattr).map fun fa => { sr with clientattr := some fa }
    | _ => none
  | .dirdown => if line = none then some sr else none
  | .checkoutlive =>
    let (tag, line) := protoGetAscii line
    let (date, line) := protoGetAscii line
    let (serverattr, line) := protoGetAscii line
    let (revnum, line) := protoGetAscii line
    let (revdate, line) := protoGetAscii line
    let (clientattr, line) := protoGetAscii line
    match serverattr, clientattr, line with
    | some serverattr, some clientattr, none =>
      match decoded env serverattr, decoded env clientattr with
      | some sa, some ca =>
        some { sr with tag, date, revnum, revdate, serverattr := some sa, clientattr := some ca }
      | _, _ => none
    | _, _, _ => none
  | .checkoutdead =>
    let (tag, line) := protoGetAscii line
    let (date, line) := protoGetAscii line
    let (serverattr, line) := protoGetAscii line
    match serverattr, line with
    | some serverattr, none =>
      (decoded env serverattr).map fun sa => { sr with tag, date, serverattr := some sa }
    | _, _ => none

/-- `status_rd` -/
def statusRd (env : Env) (st : State) : State × Option StatusRec :=
  match statusRdraw st with
  | (st, none) => (st, none)
  | (st, some (sr, line)) =>
    match statusrecCook env sr line with
    | none => ({ st with error := some .parse }, none)
    | some sr => ({ st with previous := some sr }, some sr)

/-! ## Writing -/

/-- `proto_printf`; a string that is `NULL` fails an assertion. -/
def printf (fmt : List Char) (args : List (Option Arg)) : Except Fault (List Byte) :=
  match args.mapM id with
  | none => .error .assertion
  | some args =>
    match protoPrintf (bytes fmt) args with
    | none => .error .assertion
    | some out => .ok out

/-- What `fattr_encode` makes of attributes. -/
def attrText (env : Env) (fa : Fattr) : List Byte := cstr (fattrEncode env.ids fa none 0)

/-- An argument for `%a`. -/
def attrArg (env : Env) (fa : Option Fattr) : Option Arg := fa.map fun fa => .attr (attrText env fa)

/-- `fattr_bogus` -/
def fattrBogus : Fattr :=
  ⟨maskOf [.modtime, .size, .mode], .unknown, 1, 0, [], 0, 0, 0, 0, 0, 0, 0, 0⟩

def pcType : SrType → PcType
  | .dirdown => .dirDown
  | .dirup => .dirUp
  | _ => .file

/-- `pathcomp_put` of a record, and `pathcomp_get` until it returns 0. -/
def putRecord (pc : Pathcomp.State) (sr : StatusRec) : Except Fault (List Event × Pathcomp.State) :=
  let path := sr.file ++ [0]
  match Pathcomp.pathcompPut pc (pcType sr.type) path with
  | .error f => .error (.pathcomp f)
  | .ok (pc, _) =>
    match Pathcomp.drain (pc.curlen + pc.targetlen + 1) pc path with
    | .error f => .error (.pathcomp f)
    | .ok (events, pc, _) => .ok (events, pc)

/-- The lines of the directories that are opened and closed. `clientattr` is for the
first that is closed, when it is set. -/
def dirLines (env : Env) (clientattr : Option (Option Fattr)) :
    List Event → Except Fault (List Byte)
  | [] => .ok []
  | (.dirDown, name) :: events => do
    let line ← printf "D %s\n".toList [some (.str name)]
    let rest ← dirLines env clientattr events
    return line ++ rest
  | (.dirUp, name) :: events => do
    let fa := clientattr.getD (some fattrBogus)
    let line ← printf "U %s %a\n".toList [some (.str name), attrArg env fa]
    let rest ← dirLines env none events
    return line ++ rest
  | (.file, _) :: events => dirLines env clientattr events

/-- The line of a record that is no directory. -/
def recordLine (env : Env) (sr : StatusRec) : Except Fault (List Byte) :=
  let str (s : Option (List Byte)) : Option Arg := s.map .str
  match sr.type with
  | .dirdown | .dirup => .ok []
  | .checkoutlive => printf "C %s %s %s %a %s %s %a\n".toList
      [some (.str sr.file), str sr.tag, str sr.date, attrArg env sr.serverattr, str sr.revnum,
        str sr.revdate, attrArg env sr.clientattr]
  | .checkoutdead => printf "c %s %s %s %a\n".toList
      [some (.str sr.file), str sr.tag, str sr.date, attrArg env sr.serverattr]
  | .filelive => printf "V %s %a\n".toList [some (.str sr.file), attrArg env sr.clientattr]
  | .filedead => printf "v %s %a\n".toList [some (.str sr.file), attrArg env sr.clientattr]

/-- What is written is added to the file. -/
def State.add (st : State) (out : List Byte) : State := { st with wr := st.wr.map (· ++ out) }

/-- `status_wr` -/
def statusWr (env : Env) (st : State) (sr : StatusRec) : Except Fault State := do
  let (events, pc) ← putRecord st.pc sr
  let dirs ← dirLines env (if sr.type = .dirup then some sr.clientattr else none) events
  let line ← recordLine env sr
  return { st with pc }.add (dirs ++ line)

/-- The letter of a type. -/
def cmdOf : SrType → Byte
  | .dirdown => 68
  | .dirup => 85
  | .checkoutlive => 67
  | .checkoutdead => 99
  | .filelive => 86
  | .filedead => 118

/-- What the path compressor returns when it is in sync. -/
def inSync (sr : StatusRec) : List Event → Bool
  | [] => sr.type ≠ .dirdown ∧ sr.type ≠ .dirup
  | [(type, _)] => sr.type = .dirdown ∧ type = .dirDown ∨ sr.type = .dirup ∧ type = .dirUp
  | _ => false

/-- `status_wrraw` -/
def statusWrraw (st : State) (sr : StatusRec) (line : Option (List Byte)) :
    Except Fault State := do
  if st.wr.isNone then return st
  let (events, pc) ← putRecord st.pc sr
  if inSync sr events then
    let cmd := some (.char (cmdOf sr.type))
    let out ←
      if sr.type = .dirdown then printf "%c %S\n".toList [cmd, some (.str sr.file)]
      else printf "%c %s %S\n".toList [cmd, some (.str sr.file), line.map .str]
    return { st with pc }.add out
  else throw .assertion

end Csup.Status
