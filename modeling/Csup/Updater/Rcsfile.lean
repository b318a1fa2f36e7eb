import Csup.Updater.RcsEdit

/-!
# The RCS files the updater edits

The functions the updater calls, for the RCS files of `Csup.Rcs.Defs` with the
part of the admin section that the commands of a block change. What text a file
is parsed from and printed to is a parameter.
-/

namespace Csup.Updater

open Csup.Keyword (Expand)
open Csup.Rcs (Fail Ptr RcsDoc)

/-- A `struct rcsfile`. -/
structure Rcsfile where
  branch : Option (List Byte)
  expand : Option Expand
  taglist : List (List Byte × List Byte)
  deltas : Rcs.RcsFile

namespace Rcsfile

/-- `rcsfile_deletetag` -/
def deletetag (tag revnum : List Byte) (rf : Rcsfile) : Rcsfile :=
  { rf with taglist := rf.taglist.erase (tag, revnum) }

/-- `rcsdelta_setstate`: an old state is not freed, the new one is, which points
into the line it was read from. -/
def setstate (rf : Rcsfile) (d : Ptr) (state : List Byte) : Except Fail Rcsfile := do
  let dd ← rf.deltas.deref d
  if dd.state.isSome then .error .undefined
  else return { rf with deltas := rf.deltas.setstate d (some state) }

/-- `stream_truncate_buf` with the offset -1, of a buffer that is written to: the length of an
empty one would be that of all the memory. -/
def truncateBuf (s : List Byte) : Except Fail (List Byte) :=
  if s = [] then .error .undefined else .ok s.dropLast

/-- `rcsdelta_truncatelog` -/
def truncatelog (rf : Rcsfile) (d : Ptr) : Except Fail Rcsfile := do
  let dd ← rf.deltas.deref d
  let log ← truncateBuf dd.log
  return { rf with deltas := rf.deltas.modify d fun dd => { dd with log } }

/-- `rcsdelta_truncatetext` -/
def truncatetext (rf : Rcsfile) (d : Ptr) : Except Fail Rcsfile := do
  let dd ← rf.deltas.deref d
  let text ← truncateBuf dd.text
  return { rf with deltas := rf.deltas.modify d fun dd => { dd with text } }

end Rcsfile

/-- The functions of `rcsfile.h`. -/
def rcsfile (parse : Files → Path → Option Rcsfile) (print : Rcsfile → RcsDoc → List Byte) :
    RcsApi Rcsfile Ptr where
  frompath := parse
  setbranch branch rf := { rf with branch }
  setexpand expand rf := { rf with expand }
  addtag tag revnum rf := { rf with taglist := (tag, revnum) :: rf.taglist }
  deletetag := Rcsfile.deletetag
  deleterev rf revnum := do
    let deltas ← rf.deltas.deleterev revnum
    return { rf with deltas }
  addelta rf revnum revdate author diffbase := do
    let (deltas, d) ← rf.deltas.addelta revnum revdate author diffbase
    return ({ rf with deltas }, d)
  setstate := Rcsfile.setstate
  appendlog rf d line := { rf with deltas := rf.deltas.appendlog d line }
  appendtext rf d line := { rf with deltas := rf.deltas.appendtext d line }
  truncatelog := Rcsfile.truncatelog
  truncatetext := Rcsfile.truncatetext
  write rf := do
    let doc ← rf.deltas.write
    return print rf doc

end Csup.Updater
