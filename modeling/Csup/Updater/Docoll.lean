import Csup.Framework.Cutoff
import Csup.Status.Defs
import Csup.Updater.Commands

/-!
# One collection: `updater_docoll`

The commands of the server for one collection, from the bytes of the stream, with
what the updater does for each.

The system and the other modules are a parameter (`Host`): functions on a world
of which nothing is known. What is done to a file that the server names, or to
the status file, is logged (`Action`); temporary files and the list of fixups
are changed without.

A file is written when all of it has been read; the source writes what it has as
it goes, and removes nothing when it fails.
-/

namespace Csup.Docoll

open Csup.Attrs (fattrDecode fattrForcheckout fattrMaskout fattrMerge fattrMergedefault fattrNewOf
  fattrOverride fattrUmask faCoignore faMask dropInode maskOf Ids Mask)
open Csup.Diff (Line)
open Csup.Framework (Prog Work lastLine onLines)
open Csup.Keyword (Keywords keywordDecodeExpand)
open Csup.Misc (Tm rcsdatetotm)
open Csup.Proto
open Csup.Status (SrType StatusRec)
open Csup.Updater

/-! ## The system -/

/-- What `fattr_install` returns: -1, 0 or 1. -/
inductive Installed
  | failed | unchanged | changed
  deriving DecidableEq

/-- The functions the updater calls, on a world `W`. A Boolean says that the call
succeeded. -/
structure Host (W : Type) where
  access : Path → W → Bool
  /-- `fattr_frompath` with `FATTR_NOFOLLOW` -/
  frompath : Path → W → Option Attrs.Fattr
  /-- `fattr_frompath` with `FATTR_FOLLOW` -/
  frompathFollow : Path → W → Option Attrs.Fattr
  /-- The bytes of a file that can be opened. -/
  read : Path → W → Option (List Byte)
  /-- The files, for `rcsfile_frompath`. -/
  files : W → Files
  /-- `fattr_delete`; a failure is a warning. -/
  delete : Path → W → W
  rmdir : Path → W → Bool × W
  mkdirhier : Path → W → Bool × W
  makenode : Attrs.Fattr → Path → W → Bool × W
  install : Attrs.Fattr → Path → Option Path → W → Installed × W
  statusPut : StatusRec → W → Bool × W
  statusDelete : List Byte → Bool → W → Bool × W
  fixupsPut : List Byte → W → W
  tempname : Path → W → Path × W
  /-- `stream_open_file` with `O_CREAT` and `O_TRUNC` -/
  create : Path → W → Bool × W
  write : Path → List Byte → W → Bool × W

/-- What is done to the files of the collection and to the status file. -/
inductive Action
  | delete (path : Path)
  | rmdir (path : Path)
  | mkdirhier (path : Path)
  | makenode (fa : Attrs.Fattr) (path : Path)
  | install (fa : Attrs.Fattr) (topath : Path) (frompath : Option Path)
  | statusPut (sr : StatusRec)
  | statusDelete (name : List Byte) (isdirup : Bool)

/-- How `updater_docoll` ends before its time. -/
inductive Stop
  | halt (h : Halt)
  | deletelim
  deriving DecidableEq

/-- `struct coll` -/
structure Collection extends Coll where
  pre : Path
  checkoutmode : Bool
  delete : Bool
  umask : BitVec 32
  cvsroot : Option (List Byte)
  keyword : Keywords

/-- What stays the same while a collection is updated. -/
structure Env (W F D : Type) where
  host : Host W
  api : RcsApi F D
  md5 : List Byte → List Byte
  /-- The checksum of `STREAM_FILTER_MD5RCS`. -/
  md5rcs : List Byte → List Byte
  /-- `timegm`; `none` is -1. -/
  timegm : Tm → Option (BitVec 64)
  fflags : Bool
  ids : Ids
  deletelim : Int
  coll : Collection

/-- What the reads say that have come to the end of the stream: the line that was
the last and lacks its newline, or that there was none. -/
inductive Note
  | command (line : Line)
  | deltas (line : Line)
  | edits (line : Line)
  | chunks (line : Line)
  | chunksEof (wantmd5 sum : List Byte)
  | checksum (line : Line) (wantmd5 sum : List Byte)

section

variable {W F D : Type}

abbrev Task (W α : Type) := Work Stop W Action α

/-- `none` is a loop that has run out of rounds. -/
abbrev Session (W α : Type) := Prog (Option Stop) W Action Note α

def errProto : Stop := .halt (.err .proto)

def errMsg : Stop := .halt (.err .msg)

def errUndefined : Stop := .halt (.err .undefined)

/-- The value that must be there. -/
def need {α : Type} (e : Stop) : Option α → Task W α
  | some a => Work.pure a
  | none => Work.fail e

def check (e : Stop) (b : Bool) : Task W Unit := if b then Work.pure () else Work.fail e

def must {α : Type} (e : Err → Stop) : Except Err α → Task W α
  | .ok a => Work.pure a
  | .error h => Work.fail (e h)

/-- A part of the program that does not read. -/
def run {α : Type} (t : Task W α) : Session W α := Prog.work some t

/-! ## Paths -/

/-- The check of `isrcs` for `..`; `prev` is the byte before, if there is one. -/
def noDotdot : Option Byte → List Byte → Bool
  | prev, 46 :: 46 :: s =>
    if prev = none ∨ s = [] ∨ (prev = some 47 ∧ s.head? = some 47) then false
    else noDotdot (some 46) s
  | _, c :: s => noDotdot (some c) s
  | _, [] => true

/-- `isrcs` -/
def isrcs (file : List Byte) : Bool :=
  file.head? ≠ some 47 && noDotdot none file && file.drop (file.length - 2) = [44, 118]

/-- `checkoutpath` -/
def checkoutpath (pre file : Path) : Option Path :=
  if isrcs file then some (pre ++ 47 :: printPrec (BitVec.ofNat 32 file.length - 2) file) else none

/-- The paths of a `struct file_update`. -/
structure Fup where
  destpath : Path
  origpath : Option Path

variable (env : Env W F D)

/-- `fup_prepare`; `e` is what becomes of -1. -/
def prepare (e : Stop) (name : List Byte) (attic : Bool) : Task W Fup :=
  if env.coll.checkoutmode then
    need e ((checkoutpath env.coll.pre name).map fun destpath => ⟨destpath, none⟩)
  else
    Work.ask fun w =>
      let (destpath, origpath) := fupPrepare (fun p => env.host.access p w) env.coll.pre name attic
      ⟨destpath, origpath⟩

def tempname (path : Path) : Task W Path := Work.tell (env.host.tempname path)

/-! ## Attributes -/

/-- `fattr_decode`, where `NULL` is a protocol error. -/
def decode (attr : List Byte) : Task W Attrs.Fattr :=
  match fattrDecode env.fflags env.ids attr with
  | .ok fa => Work.pure fa
  | .error .bad => Work.fail errProto
  | .error .undefined => Work.fail errUndefined

def frompath (path : Path) : Task W (Option Attrs.Fattr) := Work.ask (env.host.frompath path)

def install (fa : Attrs.Fattr) (topath : Path) (frompath : Option Path) : Task W Installed :=
  Work.act (.install fa topath frompath) (env.host.install fa topath frompath)

/-- `FA_MODTIME | FA_MASK` is `FA_MASK`. -/
def withServer (clientattr serverattr : Attrs.Fattr) : Attrs.Fattr :=
  fattrOverride clientattr serverattr faMask

/-! ## Files and the status file -/

def statusPut (sr : StatusRec) : Task W Unit := do
  let ok ← Work.act (.statusPut sr) (env.host.statusPut sr)
  check errMsg ok

def statusDelete (name : List Byte) : Task W Unit := do
  let ok ← Work.act (.statusDelete name false) (env.host.statusDelete name false)
  check errMsg ok

/-- `updater_deletefile` -/
def deletefile (path : Path) : Task W Unit :=
  Work.act (.delete path) fun w => ((), env.host.delete path w)

def mkdirhier (e : Stop) (path : Path) : Task W Unit := do
  let ok ← Work.act (.mkdirhier path) (env.host.mkdirhier path)
  check e ok

/-- The directory a path is in, when there is a slash. -/
def updir (path : Path) : Option Path :=
  if 47 ∈ path then some (path.reverse.dropWhile (· ≠ 47)).tail.reverse else none

/-- The loop of `updater_prunedirs`; the path gets shorter each time round. -/
def pruneLoop (base : Path) : Nat → Path → Task W Unit
  | 0, _ => Work.pure ()
  | n + 1, file =>
    match updir file with
    | none => Work.pure ()
    | some dir =>
      if dir = base then Work.pure ()
      else do
        let ok ← Work.act (.rmdir dir) (env.host.rmdir dir)
        if ok then pruneLoop base n dir else Work.pure ()

/-- `updater_prunedirs` -/
def prunedirs (base file : Path) : Task W Unit := pruneLoop env base file.length file

/-- `updater_delete`, with the `deletecount`. -/
def updaterDelete (fup : Fup) (count : Nat) : Task W Nat :=
  if env.coll.delete then
    if 0 ≤ env.deletelim ∧ env.deletelim ≤ count then Work.fail .deletelim
    else do
      deletefile env fup.destpath
      if env.coll.checkoutmode then prunedirs env env.coll.pre fup.destpath
      return count + 1
  else return count

/-- A temporary file with its bytes. -/
def writeFile (path : Path) (data : List Byte) : Task W Unit := do
  let ok ← Work.tell (env.host.write path data)
  check errMsg ok

def create (path : Path) : Task W Unit := do
  let ok ← Work.tell (env.host.create path)
  check errMsg ok

/-- `updater_needfixup` -/
def needfixupFile (name temppath : List Byte) (isfixup : Bool) : Task W Unit :=
  Work.tell fun w =>
    let w := if isfixup then w else env.host.fixupsPut name w
    ((), if env.coll.keepbadfiles then w else env.host.delete temppath w)

/-- `updater_updatefile`; `sum` is the checksum of the temporary file. -/
def updateFile (fup : Fup) (temppath : Path) (isfixup : Bool) (wantmd5 sum : List Byte)
    (sr : StatusRec) (clientattr : Attrs.Fattr) : Task W Unit :=
  if wantmd5 ≠ sum then needfixupFile env sr.file temppath isfixup
  else do
    let clientattr := fattrUmask clientattr env.coll.umask
    let rv ← install env clientattr fup.destpath (some temppath)
    check errMsg (rv ≠ .failed)
    let fileattr ← need errMsg (← frompath env fup.destpath)
    let fileattr := dropInode (fattrOverride fileattr clientattr (maskOf [.linkcount]))
    let fileattr := if env.coll.checkoutmode then fattrMaskout fileattr faCoignore else fileattr
    statusPut env { sr with clientattr := some fileattr }

/-! ## Commands that read nothing -/

/-- `updater_setattrs` behind the check that the file is there. -/
def recordAttrs (name tag date revnum revdate : List Byte) (rcsattr fileattr : Attrs.Fattr) :
    Task W Unit :=
  statusPut env ⟨.checkoutlive, name, some tag, some date, some revnum, some revdate, some rcsattr,
    some (fattrMaskout fileattr faCoignore)⟩

/-- `updater_setattrs` -/
def updaterSetattrs (fup : Fup) (name tag date revnum revdate : List Byte)
    (rcsattr : Attrs.Fattr) : Task W Unit := do
  match ← frompath env fup.destpath with
  | none => statusDelete env name   -- the file has vanished
  | some fileattr =>
    let fileattr := fattrOverride fileattr
      (fattrForcheckout env.fflags rcsattr env.coll.umask) faMask
    match ← install env fileattr fup.destpath none with
    | .failed => Work.fail errMsg
    | .unchanged => recordAttrs env name tag date revnum revdate rcsattr fileattr
    | .changed =>
      match ← frompath env fup.destpath with
      | none => statusDelete env name
      | some fileattr => recordAttrs env name tag date revnum revdate rcsattr fileattr

/-- `T` -/
def cmdSetattrs (name tag date revnum revdate attr : List Byte) : Task W Unit := do
  let rcsattr ← decode env attr
  let fup ← prepare env errProto name false
  updaterSetattrs env fup name tag date revnum revdate rcsattr

/-- The part of `c` and `u` that deletes the file. -/
def deleteDead (update : Bool) (name : List Byte) (count : Nat) : Task W Nat := do
  let fup ← prepare env errProto name false
  let there ← Work.ask (env.host.access fup.destpath)
  if update || there then updaterDelete env fup count else return count

/-- `c` and `u` -/
def cmdDead (update : Bool) (name tag date attr : List Byte) (count : Nat) : Task W Nat := do
  let count ← deleteDead env update name count
  let serverattr ← decode env attr
  statusPut env ⟨.checkoutdead, name, some tag, some date, none, none, some serverattr, none⟩
  return count

/-- `D` -/
def cmdDelete (name : List Byte) (count : Nat) : Task W Nat := do
  let fup ← prepare env errProto name false
  let count ← updaterDelete env fup count
  statusDelete env name
  return count

/-- `I` -/
def cmdDirdown (name : List Byte) : Task W Unit := do
  let fup ← prepare env errProto name false
  let clientattr := fattrMergedefault env.fflags (fattrNewOf env.fflags .directory none)
  mkdirhier env errProto fup.destpath
  let there ← Work.ask (env.host.access fup.destpath)
  if !there then
    let ok ← Work.act (.makenode clientattr fup.destpath)
      (env.host.makenode clientattr fup.destpath)
    check errProto ok
  statusPut env ⟨.dirdown, name, none, none, none, none, none, some clientattr⟩

/-- `i` -/
def cmdRmdown (name : List Byte) : Task W Unit := do
  let _ ← prepare env errProto name false
  statusDelete env name

/-- `J`, with `updater_setdirattrs`. -/
def cmdDirup (name attr : List Byte) : Task W Unit := do
  let fup ← prepare env errProto name false
  let serverattr ← decode env attr
  let clientattr := fattrUmask (fattrMergedefault env.fflags serverattr) env.coll.umask
  let rv ← install env clientattr fup.destpath none
  check errMsg (rv ≠ .failed)
  let fa ← need errMsg (← frompath env fup.destpath)
  statusPut env ⟨.dirup, name, none, none, none, none, some serverattr,
    some (fattrMaskout fa (maskOf [.flags]))⟩

/-- `j` -/
def cmdRmup (name : List Byte) : Task W Unit := do
  let fup ← prepare env errProto name false
  deletefile env fup.destpath
  statusDelete env name

/-- The type of a record of a file in CVS mode. -/
def fileType (attic : Bool) : SrType := if attic then .filedead else .filelive

/-- `L` and `l` -/
def cmdRecord (attic : Bool) (name attr : List Byte) : Task W Unit := do
  let serverattr ← decode env attr
  let clientattr := fattrMaskout (dropInode serverattr) (maskOf [.flags])
  statusPut env ⟨fileType attic, name, none, none, none, none, some serverattr, some clientattr⟩

/-- `N` and `n`, with `updater_updatenode`. -/
def cmdNode (attic : Bool) (name attr : List Byte) : Task W Unit := do
  let fup ← prepare env errProto name attic
  let serverattr ← decode env attr
  let clientattr := fattrMaskout
    (fattrMergedefault env.fflags (fattrNewOf env.fflags .symlink none)) (maskOf [.flags])
  mkdirhier env errProto fup.destpath
  let there ← Work.ask (env.host.access fup.destpath)
  if !there then
    -- whether it succeeds is not asked
    let _ ← Work.act (.makenode serverattr fup.destpath)
      (env.host.makenode serverattr fup.destpath)
  let serverattr := fattrUmask serverattr env.coll.umask
  let rv ← install env serverattr fup.destpath none
  check errMsg (rv ≠ .failed)
  let fileattr ← need errMsg (← frompath env fup.destpath)
  let fileattr := dropInode (fattrOverride fileattr clientattr (maskOf [.linkcount]))
  let fileattr := if serverattr.type = .symlink then
    fattrMaskout fileattr (~~~maskOf [.filetype, .linktarget]) else fileattr
  statusPut env ⟨fileType attic, name, none, none, none, none, some serverattr,
    some (fattrMaskout fileattr (maskOf [.flags]))⟩

/-! ## Reading -/

/-- The last line, where the stream ends before its newline. -/
def unfinished (note : Line → Note) (p : List Byte) : List Note :=
  if lastLine nl p = [] then [] else [note (lastLine nl p)]

def readLines {α : Type} (mark : List Byte → α → List Note)
    (f : List Line → Except Halt (α × List Line)) : Session W α :=
  Prog.read mark fun p => (onLines nl f p).mapError fun h => some (.halt h)

/-- The line of a checksum. -/
def getChecksum (eof : Halt) (sum : List Byte) : Session W (List Byte) :=
  readLines (fun p wantmd5 => unfinished (.checksum · wantmd5 sum) p) (readChecksum eof)

/-! ## Commands that read the contents of a file -/

/-- What a file is written to. -/
def openDest (e : Stop) (path temppath : Path) : Task W Unit := do
  mkdirhier env e path
  create env temppath

/-- `C` and `Y` from behind the attributes up to the text, with the time of the
revision. -/
def openCheckout (name revdate : List Byte) : Task W (BitVec 64 × Fup × Path) := do
  let t ← need errProto ((rcsdatetotm revdate).bind env.timegm)
  let fup ← prepare env errProto name false
  let temppath ← tempname env fup.destpath
  openDest env errMsg fup.destpath temppath
  return (t, fup, temppath)

/-- `C` and `Y`, with `updater_checkout`. -/
def cmdCheckout (isfixup : Bool) (name tag date revnum revdate attr : List Byte) :
    Session W Unit := do
  let (serverattr, t, fup, temppath) ← run do
    let serverattr ← decode env attr
    return (serverattr, ← openCheckout env name revdate)
  let clientattr := fattrMergedefault env.fflags (fattrOverride
    (fattrNewOf env.fflags .file (some t))
    (fattrForcheckout env.fflags serverattr env.coll.umask) faMask)
  let text ← readLines (fun _ _ => []) readCheckout
  run (writeFile env temppath text)
  let wantmd5 ← getChecksum (.err .read) (env.md5 text)
  run (updateFile env fup temppath isfixup wantmd5 (env.md5 text)
    ⟨.checkoutlive, name, some tag, some date, some revnum, some revdate, some serverattr, none⟩
    clientattr)

/-- The bytes of a file that is sent as it is, behind those it has, and the line
of its checksum; `close` is what is done with that and the checksum of the file. -/
def getFile (temppath : Path) (orig : List Byte) (size : Int)
    (close : List Byte → List Byte → Task W Unit) : Session W Unit := do
  let data ← Prog.read (fun _ _ => []) fun p => (readBytes size p).mapError fun h => some (.halt h)
  run (writeFile env temppath (orig ++ data))
  readLines (fun _ _ => []) readMarker
  let wantmd5 ← getChecksum (.err .proto) (env.md5 (orig ++ data))
  run (close wantmd5 (env.md5 (orig ++ data)))

/-- `A`, `a`, `R`, `X` and `x` up to the bytes. -/
def openAddfile (attic : Bool) (name attr : List Byte) : Task W (Fup × Path × Attrs.Fattr) := do
  let fup ← prepare env errProto name attic
  let temppath ← tempname env fup.destpath
  let serverattr ← decode env attr
  openDest env errProto fup.destpath temppath
  return (fup, temppath, serverattr)

/-- The record of a file in CVS mode and the attributes it is installed with,
from the file at `path`. -/
def updateRcs (fup : Fup) (temppath path : Path) (attic isfixup : Bool) (e : Stop)
    (name wantmd5 sum : List Byte) (serverattr : Attrs.Fattr) : Task W Unit := do
  let clientattr := withServer (← need e (← frompath env path)) serverattr
  updateFile env fup temppath isfixup wantmd5 sum
    ⟨fileType attic, name, none, none, none, none, some serverattr, none⟩ clientattr

/-- `A`, `a`, `R`, `X` and `x`, with `updater_addfile`. -/
def cmdAddfile (attic isfixup : Bool) (name attr : List Byte) : Session W Unit := do
  let (fup, temppath, serverattr) ← run (openAddfile env attic name attr)
  getFile env temppath [] serverattr.size.toInt fun wantmd5 sum =>
    updateRcs env fup temppath temppath attic isfixup errProto name wantmd5 sum serverattr

/-- `Z` up to the bytes. What becomes of a path that is `NULL` is not defined. -/
def openAppend (name attr : List Byte) : Task W (Fup × Path × Attrs.Fattr × List Byte) := do
  let fup ← prepare env errUndefined name false
  let temppath ← tempname env fup.destpath
  let serverattr ← decode env attr
  create env temppath
  let orig ← need errMsg (← Work.ask (env.host.read fup.destpath))
  return (fup, temppath, serverattr, orig)

/-- `Z`, with `updater_append_file`. -/
def cmdAppend (name attr pos : List Byte) : Session W Unit := do
  let (fup, temppath, serverattr, orig) ← run (openAppend env name attr)
  getFile env temppath orig (serverattr.size.toInt - (strtol pos).1) fun wantmd5 sum =>
    updateRcs env fup temppath fup.destpath false false errProto name wantmd5 sum serverattr

/-- `r` up to the chunks. -/
def openRsync (name attr : List Byte) : Task W (Fup × Path × Attrs.Fattr × List Byte) := do
  let fup ← prepare env errProto name false
  let temppath ← tempname env fup.destpath
  let serverattr ← decode env attr
  create env temppath
  let orig ← need errMsg (← Work.ask (env.host.read fup.destpath))
  return (fup, temppath, serverattr, orig)

/-- `r`, with `updater_rsync`. -/
def cmdRsync (name attr blocksize wantmd5 : List Byte) : Session W Unit := do
  let (fup, temppath, serverattr, orig) ← run (openRsync env name attr)
  let (text, _) ← readLines
    (fun p r => if r.2 then [.chunksEof wantmd5 (env.md5 r.1)] else unfinished .chunks p)
    (readRsync orig (strtol blocksize).1)
  run do
    writeFile env temppath text
    updateRcs env fup temppath fup.destpath false false errProto name wantmd5 (env.md5 text)
      serverattr

/-! ## Commands that read deltas -/

/-- `U` up to the deltas. -/
def openDiff (name expand attr : List Byte) :
    Task W (Fup × Path × Attrs.Fattr × Keyword.Expand × Option (List Byte)) := do
  let serverattr ← decode env attr
  let expand ← need errProto (keywordDecodeExpand expand)
  let fup ← prepare env errProto name false
  let temppath ← tempname env fup.destpath
  let file ← Work.ask (env.host.read fup.destpath)
  return (fup, temppath, serverattr, expand, file)

/-- `updater_diff` behind its loop. Without a delta there is no temporary file. -/
def closeDiff (fup : Fup) (temppath : Path) (name tag date wantmd5 : List Byte)
    (serverattr : Attrs.Fattr) (last : Option (Diff.File × DeltaInfo)) : Task W Unit := do
  let fa ← need errUndefined (← Work.ask (env.host.frompathFollow fup.destpath))
  let clientattr := fattrMaskout (fattrOverride fa
    (fattrForcheckout env.fflags serverattr env.coll.umask) faMask) (maskOf [.modtime])
  let (dest, delta) ← need errMsg last
  create env temppath
  writeFile env temppath dest.data
  updateFile env fup temppath false wantmd5 (env.md5 dest.data)
    ⟨.checkoutlive, name, some tag, some date, some delta.revnum, some delta.revdate,
      some serverattr, none⟩ clientattr

/-- `U`, with `updater_diff`. -/
def cmdDiff (name tag date expand attr wantmd5 : List Byte) : Session W Unit := do
  let (fup, temppath, serverattr, expand, file) ← run (openDiff env name expand attr)
  let last ← readLines (fun p _ => unfinished .deltas p)
    (readDeltas ⟨env.coll.keyword, env.coll.cvsroot, name, some tag, expand⟩ file)
  run (closeDiff env fup temppath name tag date wantmd5 serverattr last)

/-- `V` and `v` up to the commands for the RCS file, and what opening it gives. -/
def openRcsedit (attic : Bool) (name attr : List Byte) :
    Task W (Fup × Path × Attrs.Fattr × Option F) := do
  let fup ← prepare env errProto name attic
  let temppath ← tempname env fup.destpath
  let serverattr ← decode env attr
  if fup.origpath.isSome then mkdirhier env errMsg fup.destpath
  let path := fup.origpath.getD fup.destpath
  let oldfattr ← need errMsg (← frompath env path)
  let openrcs ← Work.ask fun w => env.api.frompath (env.host.files w) path
  return (fup, temppath, fattrMerge serverattr oldfattr, openrcs)

/-- The end of `updater_rcsedit`: the old path is removed. -/
def removeOrig (fup : Fup) : Task W Unit :=
  match fup.origpath with
  | none => Work.pure ()
  | some origpath => deletefile env origpath

/-- `updater_rcsedit` behind its loop. -/
def closeRcsedit (fup : Fup) (temppath : Path) (attic : Bool) (name wantmd5 : List Byte)
    (serverattr : Attrs.Fattr) : Option F → Task W Unit
  | none => do
    let path := fup.origpath.getD fup.destpath
    let serverattr := fattrUmask serverattr env.coll.umask
    let _ ← install env serverattr fup.destpath none
    let clientattr := dropInode (withServer (← need errMsg (← frompath env path)) serverattr)
    statusPut env ⟨fileType attic, name, none, none, none, none, some serverattr, some clientattr⟩
    removeOrig env fup
  | some f => do
    let path := fup.origpath.getD fup.destpath
    create env temppath
    let data ← must (fun e => .halt (.err e)) (orErr .msg (env.api.write f))
    writeFile env temppath data
    updateRcs env fup temppath path attic false errMsg name wantmd5 (env.md5rcs data) serverattr
    removeOrig env fup

/-- `V` and `v`, with `updater_rcsedit`. -/
def cmdRcsedit (attic : Bool) (name attr wantmd5 : List Byte) : Session W Unit := do
  let (fup, temppath, serverattr, openrcs) ← run (openRcsedit env attic name attr)
  let e ← readLines (fun p _ => unfinished .edits p)
    fun rd => (readEdits env.api openrcs rd).mapError .err
  match e with
  | .done rf => run (closeRcsedit env fup temppath attic name wantmd5 serverattr rf)
  | .invalid => do
    run do
      check errMsg env.coll.exactrcs
      needfixupFile env name temppath false
    let _ ← readLines (fun _ _ => []) readSkipped
    return ()

/-! ## The loop -/

/-- The switch of `updater_docoll`. -/
def docommand (count : Nat) : Command → Session W Nat
  | .setattrs name tag date revnum revdate attr =>
    (fun _ => count) <$> run (cmdSetattrs env name tag date revnum revdate attr)
  | .dead update name tag date attr => run (cmdDead env update name tag date attr count)
  | .diff name tag date expand attr wantmd5 =>
    (fun _ => count) <$> cmdDiff env name tag date expand attr wantmd5
  | .checkout isfixup name tag date revnum revdate attr =>
    (fun _ => count) <$> cmdCheckout env isfixup name tag date revnum revdate attr
  | .delete name => run (cmdDelete env name count)
  | .addfile attic isfixup name attr => (fun _ => count) <$> cmdAddfile env attic isfixup name attr
  | .rsync name attr blocksize wantmd5 =>
    (fun _ => count) <$> cmdRsync env name attr blocksize wantmd5
  | .dirdown name => (fun _ => count) <$> run (cmdDirdown env name)
  | .rmdown name => (fun _ => count) <$> run (cmdRmdown env name)
  | .dirup name attr => (fun _ => count) <$> run (cmdDirup env name attr)
  | .rmup name => (fun _ => count) <$> run (cmdRmup env name)
  | .record attic name attr => (fun _ => count) <$> run (cmdRecord env attic name attr)
  | .node attic name attr => (fun _ => count) <$> run (cmdNode env attic name attr)
  | .rcsedit attic name attr _ wantmd5 =>
    (fun _ => count) <$> cmdRcsedit env attic name attr wantmd5
  | .append name attr pos => (fun _ => count) <$> cmdAppend env name attr pos
  | .warning _ => Prog.pure count

/-- What is done with a command: the loop goes on, or ends at the `.`. -/
def doline (count : Nat) : Option Command → Session W (Nat ⊕ Nat)
  | none => Prog.pure (.inr count)
  | some c => .inl <$> docommand env count c

/-- A round of the loop of `updater_docoll`, with the `deletecount`. -/
def docollStep (count : Nat) : Session W (Nat ⊕ Nat) :=
  Prog.bind (readLines (fun p _ => unfinished .command p) readCommand) (doline env count)

/-- `updater_docoll` -/
def docoll (count : Nat) : Session W Nat := Prog.loop none (docollStep env) count

end

end Csup.Docoll
