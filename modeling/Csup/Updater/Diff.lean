import Csup.Diff.Stream
import Csup.Keyword.Scan
import Csup.Updater.Block

/-!
# Updating a checked-out file by deltas: `updater_diff`

`updater_diff` up to the end of its loop, where the temporary file is complete.
The first delta is applied to the checked-out file, each later one to the file
the one before it left: `dest` is that file, `orig` what is to be read of the
original.

`tag_expand` ends the program at a date it cannot read; here `updaterDiffApply`
ends it (`Halt.exit`) whether or not a keyword is found.
-/

namespace Csup.Updater

open Csup.Diff (Line Expander File diffApplyOn)
open Csup.Keyword
open Csup.Misc (rcsdatetotm)
open Csup.Proto

/-- How `updater_diff` ends before its time. -/
inductive Halt
  | err (e : Err)
  | exit
  deriving DecidableEq

/-- What stays the same while a file is updated. -/
structure DiffEnv where
  keyword : Keywords
  cvsroot : Option (List Byte)
  rcsfile : List Byte
  tag : Option (List Byte)
  expand : Expand

/-- The delta that is read. -/
structure DeltaInfo where
  revnum : List Byte
  revdate : List Byte
  author : List Byte

/-- The `struct diffinfo` of `updater_diff_apply`, when the date is one. -/
def diffinfo (env : DiffEnv) (delta : DeltaInfo) (state : Option (List Byte)) : Option Diffinfo :=
  if h : (rcsdatetotm delta.revdate).isSome then
    some ⟨env.rcsfile, env.cvsroot, delta.revnum, delta.revdate, delta.author, env.tag, state,
      env.expand, h⟩
  else none

/-- What `diff_write` asks about a line. -/
def expander (kw : Keywords) (di : Diffinfo) : Expander := keywordExpand (keywordScan kw di) di.expand

/-- `updater_diff_apply` -/
def updaterDiffApply (env : DiffEnv) (delta : DeltaInfo) (state : Option (List Byte))
    (orig : List Byte) (dest : File) (rd : List Line) : Except Halt (File × List Line) :=
  match diffinfo env delta state with
  | none => .error .exit
  | some di =>
    match diffApplyOn (expander env.keyword di) true rd orig dest with
    | none => .error (.err .msg)
    | some r => .ok r

/-- The lines behind the `.` or `.+` that ends a log. -/
def skipLog : List Line → Option (List Line)
  | [] => none
  | l :: rd => if cline l = [46] ∨ cline l = [46, 43] then some rd else skipLog rd

/-- The loop of `updater_diff_batch`. A text part reads the original to its end.
It takes a line at least each time round. -/
def batchLoop (env : DiffEnv) (delta : DeltaInfo) :
    Nat → Option (List Byte) → List Byte → File → List Line → Except Halt (File × List Line)
  | _, _, _, _, [] => .error (.err .read)
  | 0, _, _, _, _ :: _ => .error (.err .read)
  | fuel + 1, state, orig, dest, l :: rd =>
    match protoGetChar (some (cline l)) with
    | (none, _) => .error (.err .proto)
    | (some cmd, line) =>
      if cmd = 46 ∧ line = none then .ok (dest, rd)
      else if cmd = 76 then
        match skipLog rd with
        | none => .error (.err .read)
        | some rd => batchLoop env delta fuel state orig dest rd
      else if cmd = 83 then
        match protoGetAscii line with
        | (some tok, none) => batchLoop env delta fuel (some tok) orig dest rd
        | _ => .error (.err .proto)
      else if cmd = 84 then do
        let (dest, rd) ← updaterDiffApply env delta state orig dest rd
        batchLoop env delta fuel state [] dest rd
      else .error (.err .proto)

/-- `updater_diff_batch` -/
def updaterDiffBatch (env : DiffEnv) (delta : DeltaInfo) (orig : List Byte) (dest : File)
    (rd : List Line) : Except Halt (File × List Line) :=
  batchLoop env delta rd.length none orig dest rd

/-- The fields of a `D` line. Those in front of the last may be `NULL`, and are
copied as strings. -/
def getDelta (line : Option (List Byte)) : Except Halt DeltaInfo :=
  let (revnum, line) := protoGetAscii line
  let (_, line) := protoGetAscii line   -- the diffbase
  let (revdate, line) := protoGetAscii line
  let (author, line) := protoGetAscii line
  match author, line with
  | some author, none =>
    match revnum, revdate with
    | some revnum, some revdate => .ok ⟨revnum, revdate, author⟩
    | _, _ => .error (.err .undefined)
  | _, _ => .error (.err .proto)

/-- The loop of `updater_diff`; `dest` is the temporary file, when there is one. -/
def diffLoop (env : DiffEnv) (file : Option (List Byte)) :
    Nat → Option File → List Line → Except Halt (Option File × List Line)
  | _, _, [] => .error (.err .read)
  | 0, _, _ :: _ => .error (.err .read)
  | fuel + 1, dest, l :: rd =>
    match protoGetChar (some (cline l)) with
    | (none, _) => .error (.err .proto)
    | (some cmd, line) =>
      if cmd = 46 ∧ line = none then .ok (dest, rd)
      else if cmd ≠ 68 then .error (.err .proto)
      else do
        let delta ← getDelta line
        -- the file that was written is rewound
        match dest.elim file fun dest => some dest.data with
        | none => .error (.err .msg)
        | some orig => do
          let (dest, rd) ← updaterDiffBatch env delta orig .empty rd
          diffLoop env file fuel (some dest) rd

/-- `updater_diff` up to the end of its loop, on a file that holds `file`, if it
can be opened: the temporary file and the lines left. -/
def updaterDiff (env : DiffEnv) (file : Option (List Byte)) (rd : List Line) :
    Except Halt (Option File × List Line) :=
  diffLoop env file rd.length none rd

end Csup.Updater
