import Csup.Base.Clib
import Mathlib.Logic.Function.Basic

/-!
# Files and paths of an update

The file system as a map from paths to what is there, the functions of
`fattr.c` and `misc.c` the updater moves files with, and the `file_update` of
one file.

Of the attributes of a file only its type and the target of a link are kept:
the others change no content. Whether a system call succeeds is a parameter
(`Sys`); a call that fails does nothing.
-/

namespace Csup.Updater

abbrev Path := List Byte

inductive FileType
  | unknown | file | directory | cdev | bdev | symlink
  deriving DecidableEq

/-- What is at a path. -/
inductive Inode
  | file (content : List Byte)
  | symlink (target : List Byte)
  | directory
  deriving DecidableEq

abbrev Files := Path → Option Inode

/-- The part of a `struct fattr` that decides what is at a path. -/
structure Fattr where
  type : FileType
  linktarget : Option (List Byte)

/-- Which system calls succeed. -/
structure Sys where
  mkdirhier : Bool
  /-- `open` of the temporary file -/
  create : Bool
  /-- `unlink` or `rmdir` -/
  delete : Path → Bool
  symlink : Path → Bool
  /-- `utimes`, `chown` and `chmod` -/
  setattr : Path → Bool
  rename : Bool
  /-- `status_put` -/
  statusPut : Bool

/-! ## `fattr.c` -/

/-- `fattr_frompath` with `FATTR_NOFOLLOW`; `none` is `NULL`. The target of a
link is read into 1024 bytes. -/
def fattrFrompath (fs : Files) (path : Path) : Option Fattr :=
  match fs path with
  | none => none
  | some (.file _) => some ⟨.file, none⟩
  | some .directory => some ⟨.directory, none⟩
  | some (.symlink target) => if target.length ≤ 1023 then some ⟨.symlink, some target⟩ else none

/-- `fattr_merge`: the attributes `fa` has not got are those of `old`. The type
is always there. -/
def Fattr.merge (fa old : Fattr) : Fattr :=
  { fa with linktarget := fa.linktarget.orElse fun _ => old.linktarget }

/-- `fattr_delete` -/
def fattrDelete (sys : Sys) (path : Path) (fs : Files) : Files :=
  if sys.delete path then Function.update fs path none else fs

/-- `fattr_install` without `frompath`, which changes attributes in place: a
file that is to be a symlink is removed and the link is made. -/
def fattrInstallInplace (sys : Sys) (fa : Fattr) (topath : Path) (fs : Files) : Files :=
  match fs topath with
  | some (.file _) =>
    if fa.type = .symlink ∧ sys.delete topath then
      match fa.linktarget with
      | some target =>
        if sys.symlink topath then Function.update fs topath (some (.symlink target))
        else Function.update fs topath none
      | none => Function.update fs topath none
    else fs
  | _ => fs

/-- Whether a directory and something else would take each other's place. -/
def mustRemove (fa : Fattr) : Option Inode → Bool
  | none => false
  | some old => decide (fa.type = .directory) != decide (old = .directory)

/-- `fattr_install` of `frompath` at `topath`; `none` where it returns -1. -/
def fattrInstall (sys : Sys) (fa : Fattr) (topath frompath : Path) (fs : Files) : Option Files :=
  if mustRemove fa (fs topath) && !sys.delete topath then none
  else if sys.setattr frompath && sys.rename then
    some (Function.update (Function.update fs frompath none) topath (fs frompath))
  else none

/-! ## `misc.c` -/

/-- The last `/` and what is before it, and what is behind it (`pathlast`). -/
def pathlast (file : Path) : Path × Path :=
  ((file.reverse.dropWhile (· ≠ 47)).reverse, (file.reverse.takeWhile (· ≠ 47)).reverse)

/-- `cvspath` -/
def cvspath (pre file : Path) (attic : Bool) : Path :=
  let (dir, last) := pathlast file
  if attic then
    pre ++ 47 :: (printPrec (BitVec.ofNat 32 dir.length) file ++
      bytes ['A', 't', 't', 'i', 'c', '/'] ++ last)
  else pre ++ 47 :: file

/-- `atticpath`: where the file is now. -/
def atticpath (access : Path → Bool) (pre file : Path) : Path :=
  if access (cvspath pre file false) then cvspath pre file false else cvspath pre file true

theorem exists_atticpath (access : Path → Bool) (pre file : Path) :
    ∃ attic, atticpath access pre file = cvspath pre file attic := by
  unfold atticpath
  split
  · exact ⟨false, rfl⟩
  · exact ⟨true, rfl⟩

/-! ## `struct file_update` -/

/-- The paths of an update. A file that is moved has an `origpath`; the
temporary file has a name of its own (`tempname`). -/
structure FileUpdate where
  destpath : Path
  origpath : Option Path
  temppath : Path
  wantmd5 : List Byte
  serverattr : Fattr
  isfixup : Bool
  orig_ne : ∀ o ∈ origpath, o ≠ destpath
  temp_ne : temppath ≠ destpath ∧ ∀ o ∈ origpath, temppath ≠ o

/-- Where the file to be edited is. -/
def FileUpdate.path (fup : FileUpdate) : Path := fup.origpath.getD fup.destpath

/-- The paths `fup_prepare` makes of a name: where the file goes and, when that
is another place, where it is. -/
def fupPrepare (access : Path → Bool) (pre name : Path) (attic : Bool) : Path × Option Path :=
  let destpath := cvspath pre name attic
  let origpath := atticpath access pre name
  (destpath, if origpath = destpath then none else some origpath)

theorem mem_fupPrepare {access : Path → Bool} {pre name o : Path} {attic : Bool}
    (h : o ∈ (fupPrepare access pre name attic).2) :
    o = atticpath access pre name ∧ o ≠ (fupPrepare access pre name attic).1 := by
  simp only [fupPrepare, Option.mem_def] at h ⊢
  split at h
  · cases h
  · rename_i hne
    obtain rfl := Option.some.inj h
    exact ⟨rfl, hne⟩

/-- The update of the file `name`, with `temppath` from `tempname`. -/
def FileUpdate.ofName (access : Path → Bool) (pre name : Path) (attic : Bool) (temppath : Path)
    (wantmd5 : List Byte) (serverattr : Fattr) (htemp : ∀ a, temppath ≠ cvspath pre name a) :
    FileUpdate where
  destpath := (fupPrepare access pre name attic).1
  origpath := (fupPrepare access pre name attic).2
  temppath := temppath
  wantmd5 := wantmd5
  serverattr := serverattr
  isfixup := false
  orig_ne := fun _ ho => (mem_fupPrepare ho).2
  temp_ne := by
    refine ⟨htemp attic, fun o ho => ?_⟩
    obtain ⟨a, ha⟩ := exists_atticpath access pre name
    rw [(mem_fupPrepare ho).1, ha]
    exact htemp a

end Csup.Updater
