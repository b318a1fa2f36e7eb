import Csup.Fattr.Equal
import Csup.Status.File
import Csup.Updater.Docoll

/-!
# The list of a collection: `lister.c`

`lister_coll` over the records of a status file, with the functions for the records of each
type. What the system says while a record is handled stands beside it (`Item`). Assertions are
left out; what they exclude is undefined.
-/

namespace Csup.Lister

open Csup.Attrs
open Csup.Docoll (checkoutpath isrcs)
open Csup.Status (StatusRec SrType fattrBogus)
open Csup.Updater (Path cvspath pathlast)

/-- The fields of `struct coll` that the lister reads. -/
structure Coll where
  pre : Path
  tag : List Byte
  date : List Byte
  umask : BitVec 32
  checkoutmode : Bool
  truststatusfile : Bool
  norcs : Bool
  strictcheckrcs : Bool

structure Env where
  coll : Coll
  fflags : Bool
  /-- `globtree_test` of `co_dirfilter` and of `co_filefilter` -/
  dirfilter : List Byte → Bool
  filefilter : List Byte → Bool

/-- A record. -/
structure Item where
  sr : StatusRec
  /-- `fattr_frompath` with `FATTR_NOFOLLOW` and with `FATTR_FOLLOW` -/
  nofollow : Path → Option Fattr
  follow : Path → Option Fattr
  /-- Whether `proto_printf` succeeds. -/
  printf : Bool

/-- `LISTER_ERR_WRITE` and `LISTER_ERR_STATUS`, and undefined behaviour. -/
inductive Err
  | write | status | undefined
  deriving DecidableEq

/-- A line to the server. -/
inductive Line
  | dirdown (name : List Byte)
  | dirup (attr : Fattr)
  | file (cmd : Byte) (name : List Byte) (attr : Fattr)
  | dot

def deref {α : Type} : Option α → Except Err α
  | some a => .ok a
  | none => .error .undefined

def Item.print (it : Item) (line : Line) : Except Err Line :=
  if it.printf then .ok line else .error .write

/-- The name in a line. -/
def Item.name (it : Item) : List Byte := (pathlast it.sr.file).2

section

variable (env : Env) (it : Item)

/-! ## Directories -/

/-- The attributes of a directory; a symbolic link to one is one. -/
def dirAttr : Option Fattr :=
  if env.coll.truststatusfile then some (fattrNewOf env.fflags .directory none)
  else
    let path := env.coll.pre ++ 47 :: it.sr.file
    (it.nofollow path).map fun fa =>
      if fa.type = .symlink then
        match it.follow path with
        | some fa2 => if fa2.type = .directory then fa2 else fa
        | none => fa
      else fa

/-- `lister_dodirdown`: what is printed, and what is put on the stack. With nothing put there,
it returns 1. -/
def listerDodirdown : Except Err (Option Line × Option Fattr) :=
  if !env.dirfilter it.sr.file then .ok (none, none)
  else
    match dirAttr env it with
    | none => .ok (none, none)
    | some fa =>
      if fa.type ≠ .directory then do
        let line ← it.print (.file 70 it.name fattrBogus)
        return (some line, none)
      else do
        let line ← it.print (.dirdown it.name)
        return (some line, some fa)

/-- `lister_dodirup`: what is printed, and what is left on the stack. -/
def listerDodirup : List Fattr → Except Err (Line × List Fattr)
  | [] => .error .undefined
  | popped :: as => do
    let fa2 ← deref it.sr.clientattr
    let fa := if env.coll.truststatusfile then fa2 else popped
    let line ← it.print (.dirup (if fattrEqual fa fa2 then fa else fattrBogus))
    return (line, as)

/-! ## Files -/

/-- What `lister_dofile` sends of a file with the attributes `fa`. -/
def liveAttr (fa : Fattr) : Except Err Fattr := do
  let clientattr ← deref it.sr.clientattr
  let serverattr ← deref it.sr.serverattr
  let tag ← deref it.sr.tag
  let date ← deref it.sr.date
  let fa2 := fattrForcheckout env.fflags serverattr env.coll.umask
  return if !fattrEqual fa clientattr || !fattrEqual fa fa2 || env.coll.tag ≠ tag || env.coll.date ≠ date
    then fattrBogus else serverattr

/-- `lister_dofile` behind its filter -/
def dofileAttr : Except Err Fattr :=
  if env.coll.truststatusfile then do
    let fa ← deref it.sr.clientattr
    liveAttr env it fa
  else
    match checkoutpath env.coll.pre it.sr.file with
    | none => .error .status
    | some path =>
      match it.nofollow path with
      | none => .ok fattrBogus
      | some fa => liveAttr env it fa

/-- The attributes of a file that is dead. -/
def deadAttr : Except Err Fattr := do
  let tag ← deref it.sr.tag
  let date ← deref it.sr.date
  if env.coll.tag ≠ tag || env.coll.date ≠ date then return fattrBogus
  else deref it.sr.serverattr

/-- `lister_dodead` behind its filter -/
def dodeadLine : Except Err Line :=
  if env.coll.truststatusfile then return .file 102 it.name (← deadAttr env it)
  else
    match checkoutpath env.coll.pre it.sr.file with
    | none => .error .status
    | some path =>
      match it.nofollow path with
      | some fa =>
        if fa.type ≠ .directory then .ok (.file 70 it.name fattrBogus)
        else return .file 102 it.name (← deadAttr env it)
      | none => return .file 102 it.name (← deadAttr env it)

/-- The attributes of an RCS file, whose size does not count unless it is to be exact. -/
def rcsAttr (fa : Fattr) : Except Err Fattr := do
  let clientattr ← deref it.sr.clientattr
  if fattrEqual fa clientattr then
    return if isrcs it.sr.file && !env.coll.norcs && !env.coll.strictcheckrcs
      then fattrMaskout fa (maskOf [.size]) else fa
  else return fattrBogus

/-- `lister_dorcs` behind its filter; `cvspath` never fails. -/
def dorcsLine (isdead : Bool) : Except Err Line :=
  let sendcmd : Byte := if isdead then 102 else 70
  if env.coll.truststatusfile then do
    let fa ← deref it.sr.clientattr
    return .file sendcmd it.name (← rcsAttr env it fa)
  else
    match it.nofollow (cvspath env.coll.pre it.sr.file isdead) with
    | none => .ok (.file 70 it.name fattrBogus)
    | some fa => return .file sendcmd it.name (← rcsAttr env it fa)

/-- A line for a file that passes the filter. -/
def filtered (line : Except Err Line) : Except Err (Option Line) :=
  if !env.filefilter it.sr.file then .ok none
  else do
    let line ← line
    return some (← it.print line)

def listerDofile : Except Err (Option Line) :=
  filtered env it (return .file 70 it.name (← dofileAttr env it))

def listerDodead : Except Err (Option Line) := filtered env it (dodeadLine env it)

def listerDorcs (isdead : Bool) : Except Err (Option Line) := filtered env it (dorcsLine env it isdead)

/-! ## `lister_coll` -/

def intMax : Int := 2147483647

structure St where
  depth : Int
  prunedepth : Int
  /-- the attribute stack -/
  as : List Fattr
  lines : List Line

def St.init : St := ⟨0, intMax, [], []⟩

/-- A file where nothing is pruned. -/
def St.add (st : St) (line : Option Line) : St := { st with lines := st.lines ++ line.toList }

/-- The switch of `lister_coll`. -/
def collStep (st : St) : Except Err St :=
  match it.sr.type with
  | .dirdown =>
    if st.depth = intMax then .error .undefined
    else
      let st := { st with depth := st.depth + 1 }
      if st.depth < st.prunedepth then do
        match ← listerDodirdown env it with
        | (line, some fa) => return { st.add line with as := fa :: st.as }
        | (line, none) => return { st.add line with prunedepth := st.depth }
      else .ok st
  | .dirup =>
    if st.depth = -intMax - 1 then .error .undefined
    else if st.depth < st.prunedepth then do
      let (line, as) ← listerDodirup env it st.as
      return { st.add (some line) with as, depth := st.depth - 1 }
    else if st.depth = st.prunedepth then
      .ok { st with prunedepth := intMax, depth := st.depth - 1 }
    else .ok { st with depth := st.depth - 1 }
  | .checkoutlive =>
    if st.depth < st.prunedepth then do return st.add (← listerDofile env it) else .ok st
  | .checkoutdead =>
    if st.depth < st.prunedepth then do return st.add (← listerDodead env it) else .ok st
  | .filelive | .filedead =>
    if st.depth < st.prunedepth then
      if env.coll.checkoutmode then .ok st
      else do return st.add (← listerDorcs env it (it.sr.type = .filedead))
    else .ok st

end

/-- The loop of `lister_coll`. -/
def collLoop (env : Env) (st : St) (its : List Item) : Except Err St :=
  its.foldlM (fun st it => collStep env it st) st

/-- `lister_coll`; `eof` is whether `status_get` ends with 0, and `printf` whether the last line
can be printed. -/
def listerColl (env : Env) (its : List Item) (eof printf : Bool) : Except Err (List Line) := do
  let st ← collLoop env .init its
  if !eof then .error .status
  else if !printf then .error .write
  else return st.lines ++ [.dot]

/-- The loop that frees the stack, whose size is read again each time round. -/
def freeStack (i : Nat) (as : List Fattr) : Option (List Fattr) :=
  if i < as.length then
    match as with
    | [] => none
    | _ :: as => freeStack (i + 1) as
  else some as
termination_by as.length

end Csup.Lister
