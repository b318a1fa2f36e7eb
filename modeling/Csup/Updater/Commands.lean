import Csup.Base.Radix
import Csup.Framework.LineReads
import Csup.Updater.Diff
import Csup.Updater.RcsEdit

/-!
# What `updater_docoll` reads

The readers of the updater, without what is done with the things they read: the
line of a command and its fields, the text of a checked-out file, the chunks of
`updater_rsync`, the bytes of a file, the line of a checksum; and the loops of
`updater_diff` and `updater_rcsedit`, with what their callers need of them.
-/

namespace Csup.Updater

open Csup.Diff (Line File)
open Csup.Framework (oneLine)
open Csup.Keyword (Expand)
open Csup.Proto

/-! ## Commands -/

/-- A command of the server with its fields. -/
inductive Command
  | setattrs (name tag date revnum revdate attr : List Byte)
  | dead (update : Bool) (name tag date attr : List Byte)
  | diff (name tag date expand attr wantmd5 : List Byte)
  | checkout (isfixup : Bool) (name tag date revnum revdate attr : List Byte)
  | delete (name : List Byte)
  | addfile (attic isfixup : Bool) (name attr : List Byte)
  | rsync (name attr blocksize wantmd5 : List Byte)
  | dirdown (name : List Byte)
  | rmdown (name : List Byte)
  | dirup (name attr : List Byte)
  | rmup (name : List Byte)
  | record (attic : Bool) (name attr : List Byte)
  | node (attic : Bool) (name attr : List Byte)
  | rcsedit (attic : Bool) (name attr rcsopt wantmd5 : List Byte)
  | append (name attr pos : List Byte)
  | warning (msg : List Byte)

/-- The cases of the switch in `updater_docoll` up to the check of the last
field. -/
def commandOf (cmd : Byte) (line : Option (List Byte)) : Option Command :=
  match Char.ofNat cmd.toNat with
  | 'T' => match getFields 6 line with
    | some [name, tag, date, revnum, revdate, attr] =>
      some (.setattrs name tag date revnum revdate attr)
    | _ => none
  | 'c' => match getFields 4 line with
    | some [name, tag, date, attr] => some (.dead false name tag date attr)
    | _ => none
  | 'U' => match getFields 9 line with
    -- the old revision, the attic and the log lines are not looked at
    | some [name, tag, date, _, _, _, expand, attr, wantmd5] =>
      some (.diff name tag date expand attr wantmd5)
    | _ => none
  | 'u' => match getFields 4 line with
    | some [name, tag, date, attr] => some (.dead true name tag date attr)
    | _ => none
  | 'C' => match getFields 6 line with
    | some [name, tag, date, revnum, revdate, attr] =>
      some (.checkout false name tag date revnum revdate attr)
    | _ => none
  | 'Y' => match getFields 6 line with
    | some [name, tag, date, revnum, revdate, attr] =>
      some (.checkout true name tag date revnum revdate attr)
    | _ => none
  | 'D' => match getFields 1 line with
    | some [name] => some (.delete name)
    | _ => none
  | 'A' => match getFields 2 line with
    | some [name, attr] => some (.addfile false false name attr)
    | _ => none
  | 'a' => match getFields 2 line with
    | some [name, attr] => some (.addfile true false name attr)
    | _ => none
  | 'R' => match getFields 2 line with
    | some [name, attr] => some (.addfile false false name attr)
    | _ => none
  | 'r' => match getFields 4 line with
    | some [name, attr, blocksize, wantmd5] => some (.rsync name attr blocksize wantmd5)
    | _ => none
  | 'I' => match getFields 1 line with
    | some [name] => some (.dirdown name)
    | _ => none
  | 'i' => match getFields 1 line with
    | some [name] => some (.rmdown name)
    | _ => none
  | 'J' => match getFields 2 line with
    | some [name, attr] => some (.dirup name attr)
    | _ => none
  | 'j' => match getFields 1 line with
    | some [name] => some (.rmup name)
    | _ => none
  | 'L' => match getFields 2 line with
    | some [name, attr] => some (.record false name attr)
    | _ => none
  | 'l' => match getFields 2 line with
    | some [name, attr] => some (.record true name attr)
    | _ => none
  | 'N' => match getFields 2 line with
    | some [name, attr] => some (.node false name attr)
    | _ => none
  | 'n' => match getFields 2 line with
    | some [name, attr] => some (.node true name attr)
    | _ => none
  | 'V' => match getFields 4 line with
    | some [name, attr, rcsopt, wantmd5] => some (.rcsedit false name attr rcsopt wantmd5)
    | _ => none
  | 'v' => match getFields 4 line with
    | some [name, attr, rcsopt, wantmd5] => some (.rcsedit true name attr rcsopt wantmd5)
    | _ => none
  | 'X' => match getFields 2 line with
    | some [name, attr] => some (.addfile false true name attr)
    | _ => none
  | 'x' => match getFields 2 line with
    | some [name, attr] => some (.addfile true true name attr)
    | _ => none
  | 'Z' => match getFields 3 line with
    | some [name, attr, pos] => some (.append name attr pos)
    | _ => none
  | _ => none

/-- The line of a command; `none` is the `.` behind the last one. A `!` without
a blank makes `proto_get_rest` unescape `NULL`. -/
def parseCommand (line : Line) : Except Halt (Option Command) :=
  match protoGetChar (some (cline line)) with
  | (none, _) => .error (.err .proto)
  | (some cmd, line) =>
    if cmd = 46 ∧ line = none then .ok none
    else if cmd = 33 then
      match line with
      | none => .error (.err .undefined)
      | some msg => .ok (some (.warning (protoUnescape msg)))
    else match commandOf cmd line with
      | none => .error (.err .proto)
      | some c => .ok (some c)

/-- A command from the stream. -/
def readCommand : List Line → Except Halt (Option Command × List Line) :=
  oneLine (.err .read) parseCommand

/-! ## The contents of files -/

/-- The loop of `updater_read_checkout`, and of `updater_checkout`; `first` says
that no line was written yet. -/
def textLoop : Bool → List Byte → List Line → Except Halt (List Byte × List Line)
  | _, _, [] => .error (.err .read)
  | first, text, l :: ls =>
    let line := if l.getLast? = some nl then l.dropLast else l
    if line = [46] then .ok (text ++ [nl], ls)
    else if line = [46, 43] then .ok (text, ls)
    else
      let line := if line.take 2 = [46, 46] then line.tail else line
      textLoop false (text ++ (if first then [] else [nl]) ++ line) ls

/-- `updater_read_checkout` -/
def readCheckout (rd : List Line) : Except Halt (List Byte × List Line) := textLoop true [] rd

/-- `proto_get_sizet` in base ten. -/
def protoGetSizet (line : Option (List Byte)) : Option (Nat × Option (List Byte)) :=
  match protoGetAscii line with
  | (none, _) => none
  | (some cp, line) =>
    match strtoll 10 cp with
    | (tmp, [], false) => some ((tmp % 2 ^ 64).toNat, line)
    | _ => none

/-- The two numbers of a chunk; what is behind them is not looked at. -/
def parseChunk (line : Line) : Except Halt (Nat × Nat) :=
  match protoGetSizet (some (cline line)) with
  | none => .error (.err .proto)
  | some (blockstart, line) =>
    match protoGetSizet line with
    | none => .error (.err .proto)
    | some (blockcount, _) => .ok (blockstart, blockcount)

/-- The blocks of a chunk, and the offset behind them. An offset that is no
`off_t` leaves the old one; `read` stops at the end of the file. -/
def readBlocks (orig : List Byte) (off blocksize blockstart blockcount : Nat) : List Byte × Nat :=
  let start := blocksize * blockstart % 2 ^ 64
  let off := if start < 2 ^ 63 then start else off
  let blocks := (orig.drop off).take (blocksize * blockcount)
  (blocks, off + blocks.length)

/-- The loop of `updater_rsync` over the chunks. The end of the stream ends it
like a `.`; the second component says that this was so. It takes a line at least
each time round. -/
def chunkLoop (orig : List Byte) (blocksize : Nat) :
    Nat → List Byte → Nat → List Line → Except Halt ((List Byte × Bool) × List Line)
  | _, text, _, [] => .ok ((text, true), [])
  | 0, _, _, _ :: _ => .error (.err .read)
  | fuel + 1, text, off, l :: ls =>
    if cline l = [46] then .ok ((text, false), ls)
    else do
      let (blockstart, blockcount) ← parseChunk l
      let (blocks, off) := readBlocks orig off blocksize blockstart blockcount
      let (more, ls) ← readCheckout ls
      chunkLoop orig blocksize fuel (text ++ blocks ++ more) off ls

/-- What `updater_rsync` writes, `orig` being the file it updates, and whether
it came to the end of the stream. No buffer of a negative size is to be had. -/
def readRsync (orig : List Byte) (blocksize : Int) (rd : List Line) :
    Except Halt ((List Byte × Bool) × List Line) := do
  let (text, ls) ← readCheckout rd
  if blocksize < 0 then .error .exit
  else chunkLoop orig blocksize.toNat ls.length text 0 ls

/-- The bytes of a file that is sent as it is. The size is an `off_t`; a
negative one is a large `size_t` to `stream_read`, whatever the buffer holds. -/
def readBytes (size : Int) (p : List Byte) : Except Halt (List Byte × List Byte) :=
  if p = [] then .error (.err .proto)
  else if size < 0 then .error (.err .undefined)
  else if p.length < size.toNat then .error (.err .proto)
  else .ok (p.take size.toNat, p.drop size.toNat)

/-- The line behind the bytes of a file. The check of it always passes. -/
def readMarker : List Line → Except Halt (Unit × List Line) :=
  oneLine (.err .proto) fun _ => .ok ()

/-- The line of a checksum. -/
def parseChecksum (line : Line) : Except Halt (List Byte) :=
  let (cmd, line) := protoGetChar (some (cline line))
  match protoGetAscii line with
  | (some wantmd5, none) => if cmd = some 53 then .ok wantmd5 else .error (.err .proto)
  | _ => .error (.err .proto)

/-- A checksum from the stream. -/
def readChecksum (eof : Halt) : List Line → Except Halt (List Byte × List Line) :=
  oneLine eof parseChecksum

/-! ## Deltas -/

/-- The loop of `updater_diff` with the last delta, which is recorded. -/
def deltaLoop (env : DiffEnv) (file : Option (List Byte)) :
    Nat → Option (File × DeltaInfo) → List Line →
      Except Halt (Option (File × DeltaInfo) × List Line)
  | _, _, [] => .error (.err .read)
  | 0, _, _ :: _ => .error (.err .read)
  | fuel + 1, last, l :: rd =>
    match protoGetChar (some (cline l)) with
    | (none, _) => .error (.err .proto)
    | (some cmd, line) =>
      if cmd = 46 ∧ line = none then .ok (last, rd)
      else if cmd ≠ 68 then .error (.err .proto)
      else do
        let delta ← getDelta line
        match last.elim file fun last => some last.1.data with
        | none => .error (.err .msg)
        | some orig => do
          let (dest, rd) ← updaterDiffBatch env delta orig .empty rd
          deltaLoop env file fuel (some (dest, delta)) rd

/-- The deltas of `updater_diff` from the stream. -/
def readDeltas (env : DiffEnv) (file : Option (List Byte)) (rd : List Line) :
    Except Halt (Option (File × DeltaInfo) × List Line) :=
  deltaLoop env file rd.length none rd

/-- What a line is to the loop of `updater_rcsedit`: a command, or its end. -/
def editKind (line : Line) : Except Err Bool :=
  match protoGetChar (some (cline line)) with
  | (none, _) => .error .proto
  | (some cmd, line) =>
    if cmd = 46 ∧ line = none then .ok false
    else if (parseCmd cmd line).isSome then .ok true
    else .error .proto

/-- What the commands of `updater_rcsedit` leave. -/
inductive EditEnd (F : Type)
  | done (rf : Option F)
  | invalid

section

variable {F D : Type} (api : RcsApi F D)

/-- The loop of `updater_rcsedit` up to its end, or to the command for which the
file could not be opened. -/
def editCommands (openrcs : Option F) :
    Nat → Option F → List Line → Except Err (EditEnd F × List Line)
  | _, _, [] => .error .read
  | 0, _, _ :: _ => .error .read
  | fuel + 1, rf, l :: ls =>
    match protoGetChar (some (cline l)) with
    | (none, _) => .error .proto
    | (some cmd, line) =>
      if cmd = 46 ∧ line = none then .ok (.done rf, ls)
      else match parseCmd cmd line with
        | none => .error .proto
        | some c =>
          match rf.orElse fun _ => openrcs with
          | none => .ok (.invalid, ls)
          | some f => do
            let (f, ls) ← runCmd api f ls c
            editCommands openrcs fuel (some f) ls

/-- The commands of `updater_rcsedit` from the stream. -/
def readEdits (openrcs : Option F) (rd : List Line) : Except Err (EditEnd F × List Line) :=
  editCommands api openrcs rd.length none rd

/-- The lines that are read to stay in sync when the file is invalid. -/
def readSkipped (rd : List Line) : Except Halt (Unit × List Line) :=
  match skipLines rd with
  | none => .error (.err .read)
  | some rest => .ok ((), rest)

end

end Csup.Updater
