import Csup.Base.Radix

/-!
# File attributes: `fattr.c`

`fattr_encode`, `fattr_decode` and `fattr_scanattr`. The types are those of a
system with 64-bit `time_t`, `off_t`, `dev_t`, `ino_t` and `nlink_t` and 32-bit
`uid_t`, `gid_t`, `mode_t` and `fflags_t`; a system with file flags supports
`FA_FLAGS` (`fattr_bsd.h`), another does not (`fattr_posix.h`).

The lookups of `idcache.h` are a parameter. A pointer into the encoded text is
what follows it up to the NUL; `Stop.undefined` is where the length of an
attribute reaches behind that NUL.
-/

namespace Csup.Attrs

/-! ## Types and masks -/

inductive FileType
  | unknown | file | directory | cdev | bdev | symlink
  deriving DecidableEq

/-- The number of a type. -/
def FileType.num : FileType → Nat
  | unknown => 0
  | file => 1
  | directory => 2
  | cdev => 3
  | bdev => 4
  | symlink => 5

/-- The type with a number; one out of range is unknown. -/
def FileType.ofInt (i : Int) : FileType :=
  if i = 1 then file else if i = 2 then directory else if i = 3 then cdev else if i = 4 then bdev
  else if i = 5 then symlink else unknown

/-- The attributes, in the order of their bits. -/
inductive Attr
  | filetype | modtime | size | linktarget | rdev | owner | group | mode | flags | linkcount | dev
  | inode
  deriving DecidableEq

def Attr.idx : Attr → Nat
  | filetype => 0
  | modtime => 1
  | size => 2
  | linktarget => 3
  | rdev => 4
  | owner => 5
  | group => 6
  | mode => 7
  | flags => 8
  | linkcount => 9
  | dev => 10
  | inode => 11

abbrev Mask := BitVec 32

def Attr.bit (a : Attr) : Mask := BitVec.twoPow 32 a.idx

/-- `mask & a` as a condition. -/
def has (mask : Mask) (a : Attr) : Bool := mask.getLsbD a.idx

def maskOf (as : List Attr) : Mask := as.foldl (fun m a => m ||| a.bit) 0

/-- `FA_MASK` -/
def faMask : Mask := 0xfff

/-- `fattr_supported` -/
def fattrSupported (fflags : Bool) : FileType → Mask
  | .unknown => 0
  | .file => maskOf ([.filetype, .modtime, .size, .owner, .group, .mode, .linkcount, .inode, .dev] ++
      if fflags then [.flags] else [])
  | .directory => maskOf ([.filetype, .owner, .group, .mode] ++ if fflags then [.flags] else [])
  | .cdev | .bdev => maskOf ([.filetype, .rdev, .owner, .group, .mode, .linkcount, .dev, .inode] ++
      if fflags then [.flags] else [])
  | .symlink => maskOf [.filetype, .linktarget]

structure Fattr where
  mask : Mask
  type : FileType
  modtime : BitVec 64
  size : BitVec 64
  linktarget : List Byte
  rdev : BitVec 64
  uid : BitVec 32
  gid : BitVec 32
  mode : BitVec 32
  flags : BitVec 32
  linkcount : BitVec 64
  dev : BitVec 64
  inode : BitVec 64

/-- `fattr_new(FT_UNKNOWN, -1)` -/
def fattrNew : Fattr := ⟨0, .unknown, 0, 0, [], 0, 0, 0, 0, 0, 0, 0, 0⟩

/-- `idcache.h`: the names of ids, and the ids of names. -/
structure Ids where
  getuserbyid : BitVec 32 → Option (List Byte)
  getgroupbyid : BitVec 32 → Option (List Byte)
  getuidbyname : List Byte → Option (BitVec 32)
  getgidbyname : List Byte → Option (BitVec 32)

/-- The bits of the mode that are sent: the set-id bits only with the owner and
the group. -/
def modemask (mask : Mask) : BitVec 32 :=
  if has mask .owner && has mask .group then 0o7777 else 0o777

/-! ## `fattr_encode` -/

/-- An attribute in the text. The length is cut to three digits. -/
def piece (val : List Byte) : List Byte :=
  (printRadix 10 val.length).take 3 ++ 35 :: val

def pieceIf (b : Bool) (val : List Byte) : List Byte := if b then piece val else []

/-- The mask of the attributes that are sent. -/
def sentMask (ids : Ids) (fa : Fattr) (support : Option (FileType → Mask)) (ignore : Mask) : Mask :=
  let mask := match support with
    | none => fa.mask
    | some support => fa.mask &&& support fa.type
  let mask := mask &&& ~~~ignore
  let mask := if has fa.mask .owner && (ids.getuserbyid fa.uid).isNone then
    mask &&& ~~~Attr.owner.bit else mask
  let mask := if has fa.mask .group && (ids.getgroupbyid fa.gid).isNone then
    mask &&& ~~~Attr.group.bit else mask
  if has fa.mask .linkcount && fa.linkcount = 1 then mask &&& ~~~Attr.linkcount.bit else mask

/-- `fattr_encode` -/
def fattrEncode (ids : Ids) (fa : Fattr) (support : Option (FileType → Mask)) (ignore : Mask) :
    List Byte :=
  let mask := sentMask ids fa support ignore
  piece (printRadix 16 mask.toNat) ++
  pieceIf (has mask .filetype) (printRadix 10 fa.type.num) ++
  pieceIf (has mask .modtime) (printInt fa.modtime.toInt) ++
  pieceIf (has mask .size) (printInt fa.size.toInt) ++
  pieceIf (has mask .linktarget) fa.linktarget ++
  pieceIf (has mask .rdev) (printInt fa.rdev.toInt) ++
  pieceIf (has mask .owner) ((ids.getuserbyid fa.uid).getD []) ++
  pieceIf (has mask .group) ((ids.getgroupbyid fa.gid).getD []) ++
  pieceIf (has mask .mode) (printRadix 8 (fa.mode &&& modemask mask).toNat) ++
  pieceIf (has mask .flags) (printRadix 16 fa.flags.toNat) ++
  pieceIf (has mask .linkcount) (printInt fa.linkcount.toInt) ++
  pieceIf (has mask .dev) (printRadix 16 fa.dev.toNat) ++
  pieceIf (has mask .inode) (printInt fa.inode.toInt)

/-! ## `fattr_decode` -/

inductive Stop
  | bad | undefined
  deriving DecidableEq

/-- The length in front of an attribute, its text, and what follows. -/
def scanPiece (attr : List Byte) : Except Stop (List Byte × List Byte) :=
  match strtoul 10 attr with
  | (attrlen, 35 :: attrstart, false) =>
    if attrstart.length < attrlen then .error .undefined
    else .ok (attrstart.take attrlen, attrstart.drop attrlen)
  | _ => .error .bad

/-- A number that takes up the whole text. -/
def wholeInt (base : Nat) (val : List Byte) : Except Stop Int :=
  match strtoll base val with
  | (i, [], false) => .ok i
  | _ => .error .bad

def wholeNat (base : Nat) (val : List Byte) : Except Stop Nat :=
  match strtoul base val with
  | (n, [], false) => .ok n
  | _ => .error .bad

/-- The switch of `fattr_scanattr`. The link count is read in the radix of the
flags. -/
def scanValue (ids : Ids) (fa : Fattr) (val : List Byte) : Attr → Except Stop Fattr
  | .filetype => do return { fa with type := .ofInt (BitVec.ofInt 32 (← wholeInt 10 val)).toInt }
  | .modtime => do return { fa with modtime := BitVec.ofInt 64 (← wholeInt 10 val) }
  | .size => do return { fa with size := BitVec.ofInt 64 (← wholeInt 10 val) }
  | .linktarget => .ok { fa with linktarget := val }
  | .rdev => do return { fa with rdev := BitVec.ofInt 64 (← wholeInt 16 val) }
  | .owner => match ids.getuidbyname val with
    | some uid => .ok { fa with uid }
    | none => .ok { fa with mask := fa.mask &&& ~~~Attr.owner.bit }
  | .group => match ids.getgidbyname val with
    | some gid => .ok { fa with gid }
    | none => .ok { fa with mask := fa.mask &&& ~~~Attr.group.bit }
  | .mode => do
    return { fa with mode := BitVec.ofInt 32 (← wholeInt 8 val) &&& modemask fa.mask }
  | .flags => do return { fa with flags := BitVec.ofNat 32 (← wholeNat 16 val) }
  | .linkcount => do return { fa with linkcount := BitVec.ofInt 64 (← wholeInt 16 val) }
  | .dev => do return { fa with dev := BitVec.ofInt 64 (← wholeInt 16 val) }
  | .inode => do return { fa with inode := BitVec.ofInt 64 (← wholeInt 10 val) }

/-- `fattr_scanattr` -/
def fattrScanattr (ids : Ids) (fa : Fattr) (a : Attr) (attr : List Byte) :
    Except Stop (Fattr × List Byte) := do
  let (val, next) ← scanPiece attr
  let fa ← scanValue ids fa val a
  return (fa, next)

/-- An attribute is read when it is in the mask. -/
def scanIf (ids : Ids) (a : Attr) (r : Fattr × List Byte) : Except Stop (Fattr × List Byte) :=
  if has r.1.mask a then fattrScanattr ids r.1 a r.2 else .ok r

/-- `FA_LINKCOUNT` in `fattr_decode`: a missing one is faked as 1. -/
def scanLinkcount (fflags : Bool) (ids : Ids) (r : Fattr × List Byte) :
    Except Stop (Fattr × List Byte) :=
  if has r.1.mask .linkcount then fattrScanattr ids r.1 .linkcount r.2
  else if has (fattrSupported fflags r.1.type) .linkcount then
    .ok ({ r.1 with mask := r.1.mask ||| Attr.linkcount.bit, linkcount := 1 }, r.2)
  else .ok r

/-- `fattr_decode` -/
def fattrDecode (fflags : Bool) (ids : Ids) (attr : List Byte) : Except Stop Fattr := do
  let (val, next) ← scanPiece attr
  let mask := BitVec.ofInt 32 (← wholeInt 16 val)
  if 0 < (mask &&& ~~~faMask).toInt then throw .bad
  let (fa, next) ←
    if has mask .filetype then fattrScanattr ids { fattrNew with mask } .filetype next
    else pure ({ fattrNew with mask := mask ||| Attr.filetype.bit }, next)
  let fa := { fa with mask := fa.mask &&& fattrSupported fflags fa.type }
  let r ← scanIf ids .modtime (fa, next)
  let r ← scanIf ids .size r
  let r ← scanIf ids .linktarget r
  let r ← scanIf ids .rdev r
  let r ← scanIf ids .owner r
  let r ← scanIf ids .group r
  let r ← scanIf ids .mode r
  let r ← scanIf ids .flags r
  let r ← scanLinkcount fflags ids r
  let r ← scanIf ids .dev r
  let r ← scanIf ids .inode r
  return r.1

end Csup.Attrs
