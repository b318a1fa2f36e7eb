import Csup.Framework.Lines
import Csup.Keyword.Expand

/-!
# Edit scripts: `diff.c`

`diff_apply` and `diff_reverse`, on streams that are lists of lines. The
`struct editcmd` of the source is split in two: `EditCmd` is what the command
line says and what `diff_reverse` computes from it, `Cursor` is the original
file, the destination and the number of original lines read (`editline`).

A `long` is an `Int`; `offset`, an `int` in the source, is reduced to 32 bits
at each assignment (`wrapInt`). A function that returns -1 returns `none`, or a
Boolean where its caller goes on with what it had done so far.
-/

namespace Csup.Diff

open Csup.Framework Csup.Keyword

abbrev Line := List Byte

/-- What `diff_write` asks `keyword_expand` about a line. -/
abbrev Expander := Line → Option Line

/-- `keyword_expand` with `di_expand` set to `EXPAND_OLD`. -/
def expandOld (scan : Line → Option Line) : Expander := keywordExpand scan .old

inductive Ec
  | add | del
  deriving DecidableEq

structure EditCmd where
  cmd : Ec
  key : Int
  havetext : Bool
  offset : Int
  whereLine : Int
  count : Int
  lasta : Int
  lastd : Int
  deriving DecidableEq

/-- The structure after its `memset`; `EC_ADD` is 0. -/
def EditCmd.zero : EditCmd := ⟨.add, 0, false, 0, 0, 0, 0, 0⟩

/-- `MAXKEY` -/
def maxKey : Int := longMax

/-- The value an `int` holds after it was assigned `x`. -/
def wrapInt (x : Int) : Int := (x + 2147483648) % 4294967296 - 2147483648

/-- `diff_geteditcmd`: an editing command from the script. -/
def diffGeteditcmd (ec : EditCmd) (line : Line) : Option EditCmd :=
  let kind : Option (Ec × Line) := match line with
    | 97 :: t => some (.add, t)
    | 100 :: t => some (.del, t)
    | _ => none
  match kind with
  | none => none
  | some (cmd, t) =>
    let (whereLine, e, errno) := strtol t
    if errno = true ∨ whereLine < 0 ∨ e.head? ≠ some 32 then none
    else
      let (count, e, errno) := strtol e.tail
      if errno = true ∨ count ≤ 0 ∨ e ≠ [] then none
      else match cmd with
        | .add =>
          if whereLine < ec.lasta then none
          else some { ec with cmd, whereLine, count, lasta := whereLine + 1 }
        | .del =>
          if whereLine < ec.lasta ∨ whereLine < ec.lastd then none
          else some { ec with cmd, whereLine, count, lasta := whereLine, lastd := whereLine + count }

structure Cursor where
  orig : List Line
  dest : List Byte
  editline : Int

/-- `diff_write` -/
def diffWrite (exp : Expander) (dest : List Byte) (line : Line) : List Byte :=
  dest ++ (exp line).getD line

/-- The loop of `diff_copyln` when `n` lines are missing. -/
def copyLines (exp : Expander) : Nat → Cursor → Cursor × Bool
  | 0, c => (c, true)
  | n + 1, c => match c.orig with
    | [] => (c, false)
    | l :: orig => copyLines exp n ⟨orig, diffWrite exp c.dest l, c.editline + 1⟩

/-- `diff_copyln`: copy lines of the original up to line `dst`. -/
def diffCopyln (exp : Expander) (c : Cursor) (dst : Int) : Cursor × Bool :=
  copyLines exp (dst - c.editline).toNat c

/-- The loop of `diff_ignoreln`, and that of `diff_apply` over the lines a `d`
command deletes. -/
def ignoreLines : Nat → Cursor → Cursor × Bool
  | 0, c => (c, true)
  | n + 1, c => match c.orig with
    | [] => (c, false)
    | _ :: orig => ignoreLines n { c with orig, editline := c.editline + 1 }

/-- `diff_ignoreln`: ignore lines of the original up to line `dst`. -/
def diffIgnoreln (c : Cursor) (dst : Int) : Cursor × Bool :=
  ignoreLines (dst - c.editline).toNat c

/-! ## `diff_apply` -/

/-- An added line as it is written: in `comode` a leading dot is dropped. -/
def addedLine (comode : Bool) (l : Line) : Line :=
  if comode = true ∧ l.head? = some 46 then l.tail else l

structure ApplySt where
  ec : EditCmd
  cur : Cursor
  empty : Bool

/-- The `while` loop of `diff_apply` over the lines of the script, the first
`pending` of which belong to the `a` command read last. It ends with the line
that ended it and the state, or with `none` where the source returns -1. -/
def applyLoop (exp : Expander) (comode : Bool) :
    List Line → Nat → ApplySt → Option (Option Line × ApplySt)
  | [], 0, st => some (none, st)
  | [], _ + 1, _ => none
  | l :: rd, pending + 1, st =>
    applyLoop exp comode rd pending
      { st with cur := { st.cur with dest := diffWrite exp st.cur.dest (addedLine comode l) } }
  | l :: rd, 0, st =>
    let line := cline l
    if line = [46] ∨ line = [46, 43] then some (some line, st)
    else if line = [] then
      -- The server sends an empty line and `.+` for a forced commit.
      if st.empty then none else applyLoop exp comode rd 0 { st with empty := true }
    else match diffGeteditcmd st.ec line with
      | none => none
      | some ec => match ec.cmd with
        | .add =>
          match diffCopyln exp st.cur ec.whereLine with
          | (_, false) => none
          | (cur, true) => applyLoop exp comode rd ec.count.toNat { st with ec, cur }
        | .del =>
          match diffCopyln exp st.cur (ec.whereLine - 1) with
          | (_, false) => none
          | (cur, true) => match ignoreLines ec.count.toNat cur with
            | (_, false) => none
            | (cur, true) => applyLoop exp comode rd 0 { st with ec, cur }

/-- `diff_apply`: the destination, or `none` for -1. -/
def diffApply (exp : Expander) (comode : Bool) (rd orig : List Byte) : Option (List Byte) :=
  match applyLoop exp comode (splitLines nl rd) 0 ⟨.zero, ⟨splitLines nl orig, [], 0⟩, false⟩ with
  | none => none
  | some (line, st) =>
    if comode = true ∧ line = none then none
    else
      let dest := st.cur.orig.foldl (diffWrite exp) st.cur.dest
      if comode = true ∧ line = some [46, 43] ∧ st.empty = false then
        -- `stream_truncate_rel` by -1 fails on an empty file
        if dest = [] then none else some dest.dropLast
      else some dest

/-! ## `diff_reverse` -/

/-- `diff_insert_edit`: insertion sort on the key. -/
def diffInsertEdit : List EditCmd → EditCmd → List EditCmd
  | [], ec => [ec]
  | cur :: ds, ec => if ec.key < cur.key then ec :: cur :: ds else cur :: diffInsertEdit ds ec

/-- `diff_insert_edit` of a command that may be `NULL`. -/
def diffInsertEdit? (ds : List EditCmd) : Option EditCmd → List EditCmd
  | none => ds
  | some ec => diffInsertEdit ds ec

structure ReverseSt where
  ec : EditCmd
  delec : Option EditCmd
  offset : Int
  ds : List EditCmd

/-- The branch of `diff_reverse` for an `a` command, the added lines apart. -/
def ReverseSt.add (st : ReverseSt) (ec : EditCmd) : ReverseSt :=
  let addec := { ec with havetext := true, key := ec.whereLine + ec.count - st.offset }
  let ds := match st.delec with
    | some delec =>
      if delec.key = addec.key - addec.count then
        diffInsertEdit st.ds
          { delec with key := addec.key, havetext := addec.havetext, count := addec.count }
      else diffInsertEdit (diffInsertEdit st.ds delec) { addec with offset := st.offset }
    | none => diffInsertEdit st.ds { addec with offset := st.offset }
  ⟨ec, none, wrapInt (st.offset - ec.count), ds⟩

/-- The branch of `diff_reverse` for a `d` command. -/
def ReverseSt.del (st : ReverseSt) (ec : EditCmd) : ReverseSt :=
  let delec := { ec with
    key := ec.whereLine - 1 - st.offset, offset := st.offset, count := 0, havetext := false }
  ⟨ec, some delec, wrapInt (st.offset + ec.count), diffInsertEdit? st.ds st.delec⟩

/-- The first loop of `diff_reverse`, over the lines of the script, the first
`pending` of which belong to the `a` command read last. A line that is no
command ends it; the rest of the script is read and dropped. -/
def reverseLoop : List Line → Nat → ReverseSt → Option ReverseSt
  | [], 0, st => some st
  | [], _ + 1, _ => none
  | _ :: rd, pending + 1, st => reverseLoop rd pending st
  | l :: rd, 0, st =>
    match diffGeteditcmd st.ec (cline l) with
    | none => some st
    | some ec => match ec.cmd with
      | .add => reverseLoop rd ec.count.toNat (st.add ec)
      | .del => reverseLoop rd 0 (st.del ec)

/-- An editing command as `stream_printf` writes it. -/
def printCmd (c : Byte) (whereLine count : Int) : Line :=
  c :: printLong whereLine ++ 32 :: printLong count ++ [nl]

/-- `diff_write_reverse` -/
def diffWriteReverse (exp : Expander) : List EditCmd → Cursor → Cursor
  | ec :: nextec :: ds, c =>
    let numDeleted := if ec.havetext then ec.count else 0
    let numAdded := numDeleted + nextec.offset - ec.offset
    let c := if 0 < numDeleted then
        { c with dest := c.dest ++ printCmd 100 (ec.key - numDeleted + 1) numDeleted }
      else c
    let c := if 0 < numAdded then
        let c := { c with dest := c.dest ++ printCmd 97 ec.key numAdded }
        let startline := ec.key - numDeleted + 1 + ec.offset
        let endline := startline + numAdded - 1
        (diffCopyln exp (diffIgnoreln c (startline - 1)).1 endline).1
      else c
    diffWriteReverse exp (nextec :: ds) c
  | _, c => c

/-- The entry `diff_reverse` puts at the end of the list. -/
def sentinel (offset : Int) : EditCmd :=
  { EditCmd.zero with key := maxKey, offset := offset }

/-- `diff_reverse`: the reverse script, or `none` for -1. -/
def diffReverse (exp : Expander) (rd orig : List Byte) : Option (List Byte) :=
  match reverseLoop (splitLines nl rd) 0 ⟨.zero, none, 0, []⟩ with
  | none => none
  | some st =>
    let ds := diffInsertEdit (diffInsertEdit? st.ds st.delec) (sentinel st.offset)
    some (diffWriteReverse exp ds ⟨splitLines nl orig, [], 0⟩).dest

end Csup.Diff
