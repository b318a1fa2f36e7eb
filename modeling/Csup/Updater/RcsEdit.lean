import Csup.Proto.Fields
import Csup.Rcs.Defs
import Csup.Updater.Files

/-!
# Editing an RCS file: `updater_rcsedit`

The commands the server sends for one RCS file, from the lines of the stream.

The functions of `rcsfile.h` are a parameter (`RcsApi`), as are the checksum
and the outcome of the system calls: what is shown of `rcsedit` does not depend
on them. `rcsfile` is the parameter for the RCS files of this development.
-/

namespace Csup.Updater

open Csup.Diff (Line)
open Csup.Keyword (Expand keywordDecodeExpand)
open Csup.Proto
open Csup.Rcs (Fail)

/-- The internal error codes, and undefined behaviour. -/
inductive Err
  | proto | msg | read | undefined
  deriving DecidableEq

/-- What the updater calls of `rcsfile.h`; `F` is the type of RCS files, `D` that
of deltas. -/
structure RcsApi (F D : Type) where
  /-- `rcsfile_frompath` -/
  frompath : Files → Path → Option F
  /-- `rcsfile_setval` of `RCSFILE_BRANCH` -/
  setbranch : Option (List Byte) → F → F
  /-- `rcsfile_setexpand`; `none` is the -1 of an unknown mode. -/
  setexpand : Option Expand → F → F
  addtag : List Byte → List Byte → F → F
  deletetag : List Byte → List Byte → F → F
  deleterev : F → List Byte → Except Fail F
  /-- Revision, date, author and diffbase. -/
  addelta : F → List Byte → List Byte → List Byte → List Byte → Except Fail (F × Option D)
  setstate : F → D → List Byte → Except Fail F
  appendlog : F → D → Line → F
  appendtext : F → D → Line → F
  truncatelog : F → D → Except Fail F
  truncatetext : F → D → Except Fail F
  write : F → Except Fail (List Byte)

/-- How a failure of `rcsfile.c` shows in the updater. -/
def orErr {α : Type} (e : Err) : Except Fail α → Except Err α
  | .ok a => .ok a
  | .error .error => .error e
  | .error _ => .error .undefined

/-! ## `updater_addelta` -/

/-- The two parts of a delta that are lines of text. -/
inductive Part
  | log | text
  deriving DecidableEq

section

variable {F D : Type} (api : RcsApi F D)

def RcsApi.append : Part → F → D → Line → F
  | .log => api.appendlog
  | .text => api.appendtext

def RcsApi.truncate : Part → F → D → Except Fail F
  | .log => api.truncatelog
  | .text => api.truncatetext

/-- The loop of `updater_addelta` and, while `part` is there, the loop over the
lines of that part. `cmd` is the last command. -/
def addeltaLoop (d : D) : Option Part → Option Byte → F → List Line → Except Err (F × List Line)
  | none, cmd, f, [] => if cmd = some 46 then .ok (f, []) else .error .read
  | some _, _, _, [] => .error .read
  | none, _, f, l :: ls =>
    match protoGetChar (some (cline l)) with
    | (none, _) => .error .proto
    | (some cmd, line) =>
      if cmd = 46 ∧ line = none then .ok (f, ls)
      else if cmd = 76 then addeltaLoop d (some .log) (some cmd) f ls
      else if cmd = 83 then
        match (protoGetAscii line).1 with
        | none => .error .proto
        | some state => do
          let f ← orErr .proto (api.setstate f d state)
          addeltaLoop d none (some cmd) f ls
      else if cmd = 84 then addeltaLoop d (some .text) (some cmd) f ls
      else addeltaLoop d none (some cmd) f ls
  | some part, cmd, f, l :: ls =>
    if l.length = 2 ∧ l.head? = some 46 then addeltaLoop d none cmd f ls
    else if l.length = 3 ∧ l.take 2 = [46, 43] then do
      let f ← orErr .proto (api.truncate part f d)
      addeltaLoop d none cmd f ls
    else if 3 ≤ l.length ∧ l.take 2 = [46, 46] then
      addeltaLoop d (some part) cmd (api.append part f d l.tail) ls
    else addeltaLoop d (some part) cmd (api.append part f d l) ls

/-- `updater_addelta` -/
def updaterAddelta (f : F) (revnum diffbase revdate author : List Byte) (lines : List Line) :
    Except Err (F × List Line) := do
  match ← orErr .read (api.addelta f revnum revdate author diffbase) with
  | (_, none) => .error .read
  | (f, some d) => addeltaLoop api d none none f lines

/-! ## The commands -/

/-- A command with its fields. -/
inductive Cmd
  | branch (branch : List Byte)
  | clearbranch
  | delta (revnum diffbase revdate author : List Byte)
  | delete (revnum : List Byte)
  | expand (expandtxt : List Byte)
  | tag (tag revnum : List Byte)
  | untag (tag revnum : List Byte)

/-- The next `n` fields, which must be there and be all. -/
def getFields : Nat → Option (List Byte) → Option (List (List Byte))
  | 0, none => some []
  | 0, some _ => none
  | n + 1, line =>
    match protoGetAscii line with
    | (none, _) => none
    | (some field, line) => (getFields n line).map (field :: ·)

/-- The cases of the switch in `updater_rcsedit`, up to `updater_openrcs`. -/
def parseCmd (cmd : Byte) (line : Option (List Byte)) : Option Cmd :=
  if cmd = 66 then
    match getFields 1 line with
    | some [branch] => some (.branch branch)
    | _ => none
  else if cmd = 98 then some .clearbranch   -- looks at no field
  else if cmd = 68 then
    match getFields 4 line with
    | some [revnum, diffbase, revdate, author] => some (.delta revnum diffbase revdate author)
    | _ => none
  else if cmd = 100 then
    match getFields 1 line with
    | some [revnum] => some (.delete revnum)
    | _ => none
  else if cmd = 69 then
    match getFields 1 line with
    | some [expandtxt] => some (.expand expandtxt)
    | _ => none
  else if cmd = 84 then
    match getFields 2 line with
    | some [tag, revnum] => some (.tag tag revnum)
    | _ => none
  else if cmd = 116 then
    match getFields 2 line with
    | some [tag, revnum] => some (.untag tag revnum)
    | _ => none
  else none

/-- The cases from `updater_openrcs` on. -/
def runCmd (f : F) (lines : List Line) : Cmd → Except Err (F × List Line)
  | .branch branch => .ok (api.setbranch (some branch) f, lines)
  | .clearbranch => .ok (api.setbranch none f, lines)
  | .delta revnum diffbase revdate author =>
    updaterAddelta api f revnum diffbase revdate author lines
  | .delete revnum => do
    let f ← orErr .undefined (api.deleterev f revnum)
    return (f, lines)
  | .expand expandtxt => .ok (api.setexpand (keywordDecodeExpand expandtxt) f, lines)
  | .tag tag revnum => .ok (api.addtag tag revnum f, lines)
  | .untag tag revnum => .ok (api.deletetag tag revnum f, lines)

/-- What the loop of `updater_rcsedit` ends with: the file when a command opened
it, or that it is invalid and a fixup is wanted; and the lines left. -/
inductive Edited (F : Type)
  | done (rf : Option F) (rest : List Line)
  | invalid (rest : List Line)

/-- The lines behind the next `.`. -/
def skipLines : List Line → Option (List Line)
  | [] => none
  | l :: ls => if cline l = [46] then some ls else skipLines ls

/-- The loop of `updater_rcsedit`; `openrcs` is what `updater_openrcs` gives. It
takes a line at least each time round. -/
def editLoop (openrcs : Option F) (exactrcs : Bool) :
    Nat → Option F → List Line → Except Err (Edited F)
  | _, _, [] => .error .read
  | 0, _, _ :: _ => .error .read
  | fuel + 1, rf, l :: ls =>
    match protoGetChar (some (cline l)) with
    | (none, _) => .error .proto
    | (some cmd, line) =>
      if cmd = 46 ∧ line = none then .ok (.done rf ls)
      else match parseCmd cmd line with
        | none => .error .proto
        | some c =>
          match rf.orElse fun _ => openrcs with
          | none =>
            if !exactrcs then .error .msg
            else match skipLines ls with
              | none => .error .read
              | some rest => .ok (.invalid rest)
          | some f => do
            let (f, ls) ← runCmd api f ls c
            editLoop openrcs exactrcs fuel (some f) ls

/-! ## `updater_rcsedit` -/

/-- The options of the collection. -/
structure Coll where
  exactrcs : Bool
  keepbadfiles : Bool

/-- When `updater_rcsedit` returns 0: the files, the lines left in the stream,
and whether a fixup was queued. -/
structure Out where
  files : Files
  rest : List Line
  fixup : Bool

variable (md5 : List Byte → List Byte) (sys : Sys) (coll : Coll) (fup : FileUpdate)

/-- `updater_needfixup` -/
def needfixup (fs : Files) : Files × Bool :=
  (if coll.keepbadfiles then fs else fattrDelete sys fup.temppath fs, !fup.isfixup)

/-- `updater_updatefile`: the files and whether a fixup was queued. -/
def updatefile (clientattr : Fattr) (sum : List Byte) (fs : Files) : Except Err (Files × Bool) :=
  if fup.wantmd5 ≠ sum then .ok (needfixup sys coll fup fs)
  else match fattrInstall sys clientattr fup.destpath fup.temppath fs with
    | none => .error .msg
    | some fs =>
      if (fattrFrompath fs fup.destpath).isNone || !sys.statusPut then .error .msg
      else .ok (fs, false)

/-- The end of `updater_rcsedit`: the old path is removed. -/
def finish (fs : Files) : Files :=
  match fup.origpath with
  | none => fs
  | some o => fattrDelete sys o fs

/-- `updater_rcsedit` from behind its loop, when no command was sent. -/
def touch (serverattr : Fattr) (fs : Files) : Except Err Files :=
  let fs := fattrInstallInplace sys serverattr fup.destpath fs
  if (fattrFrompath fs fup.path).isNone || !sys.statusPut then .error .msg
  else .ok (finish sys fup fs)

/-- `updater_rcsedit` from behind its loop, when the file was edited. -/
def install (serverattr : Fattr) (f : F) (fs : Files) : Except Err (Files × Bool) :=
  if !sys.create then .error .msg
  else do
    let dest ← orErr .msg (api.write f)
    let fs := Function.update fs fup.temppath (some (.file dest))
    if (fattrFrompath fs fup.path).isNone then .error .msg
    else
      -- `fattr_override` with `FA_MASK` takes the type too
      let (fs, fixup) ← updatefile sys coll fup serverattr (md5 dest) fs
      return (finish sys fup fs, fixup)

/-- `updater_rcsedit` -/
def rcsedit (fs : Files) (lines : List Line) : Except Err Out :=
  if fup.origpath.isSome && !sys.mkdirhier then .error .msg
  else match fattrFrompath fs fup.path with
    | none => .error .msg
    | some oldfattr => do
      let serverattr := fup.serverattr.merge oldfattr
      match ← editLoop api (api.frompath fs fup.path) coll.exactrcs lines.length none lines with
      | .invalid rest =>
        let (fs, fixup) := needfixup sys coll fup fs
        return ⟨fs, rest, fixup⟩
      | .done none rest =>
        let fs ← touch sys fup serverattr fs
        return ⟨fs, rest, false⟩
      | .done (some f) rest =>
        let (fs, fixup) ← install api md5 sys coll fup serverattr f fs
        return ⟨fs, rest, fixup⟩

end

end Csup.Updater
