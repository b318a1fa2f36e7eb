import Csup.Fattr.Defs

/-!
# Attributes put together: `fattr.c`

The functions that make the attributes of one file from those of others, and
what they leave: `fattr_override` adds the attributes that are asked for and there
(`fattrOverride_mask`), so `fattr_merge` leaves those of both
(`fattrMerge_mask`).
-/

namespace Csup.Attrs

/-- `fattr_new`; `none` for the time -1. -/
def fattrNewOf (fflags : Bool) (type : FileType) (modtime : Option (BitVec 64)) : Fattr :=
  let mask : Mask := if type = .unknown then 0 else Attr.filetype.bit
  let mask := if modtime.isSome then mask ||| Attr.modtime.bit else mask
  let linked := has (fattrSupported fflags type) .linkcount
  { fattrNew with
    type, modtime := modtime.getD 0
    mask := if linked then mask ||| Attr.linkcount.bit else mask
    linkcount := if linked then 1 else 0 }

/-- `fattr_override` -/
def fattrOverride (fa source : Fattr) (mask : Mask) : Fattr :=
  let mask := mask &&& source.mask
  { mask := fa.mask ||| mask
    type := if has mask .filetype then source.type else fa.type
    modtime := if has mask .modtime then source.modtime else fa.modtime
    size := if has mask .size then source.size else fa.size
    linktarget := if has mask .linktarget then source.linktarget else fa.linktarget
    rdev := if has mask .rdev then source.rdev else fa.rdev
    uid := if has mask .owner then source.uid else fa.uid
    gid := if has mask .group then source.gid else fa.gid
    mode := if has mask .mode then source.mode else fa.mode
    flags := if has mask .flags then source.flags else fa.flags
    linkcount := if has mask .linkcount then source.linkcount else fa.linkcount
    dev := if has mask .dev then source.dev else fa.dev
    inode := if has mask .inode then source.inode else fa.inode }

/-- `fattr_merge` -/
def fattrMerge (fa source : Fattr) : Fattr := fattrOverride fa source (source.mask &&& ~~~fa.mask)

/-- The entry of `defaults` for a type, from `fattr_init`. -/
def defaultFattr (fflags : Bool) (type : FileType) : Fattr :=
  let fa := fattrNewOf fflags type none
  { fa with
    mode := if type = .directory then 0o777 else 0o666
    mask := fa.mask ||| Attr.mode.bit }

/-- `fattr_mergedefault` -/
def fattrMergedefault (fflags : Bool) (fa : Fattr) : Fattr :=
  fattrMerge fa (defaultFattr fflags fa.type)

/-- `fattr_umask` -/
def fattrUmask (fa : Fattr) (newumask : BitVec 32) : Fattr :=
  if has fa.mask .mode then { fa with mode := fa.mode &&& ~~~newumask } else fa

/-- `fattr_maskout` -/
def fattrMaskout (fa : Fattr) (mask : Mask) : Fattr :=
  { fa with
    linktarget := if has mask .linktarget && has fa.mask .linktarget then [] else fa.linktarget
    mask := fa.mask &&& ~~~mask }

/-- `fattr_forcheckout` -/
def fattrForcheckout (fflags : Bool) (rcsattr : Fattr) (mask : BitVec 32) : Fattr :=
  let fa := fattrNewOf fflags .file none
  if has rcsattr.mask .mode then
    { fa with
      mode := (if rcsattr.mode &&& 0o111 ≠ 0 then 0o777 else 0o666) &&& ~~~mask
      mask := fa.mask ||| Attr.mode.bit }
  else fa

/-- `FA_COIGNORE` -/
def faCoignore : Mask := faMask &&& ~~~maskOf [.filetype, .modtime, .size, .mode]

/-- Whether the link count is there and says that there are other links. -/
def linked (fa : Fattr) : Bool := has fa.mask .linkcount && decide (1 < fa.linkcount.toNat)

/-- To save space, the device and the inode are kept of linked files only. -/
def dropInode (fa : Fattr) : Fattr :=
  if linked fa then fa else fattrMaskout fa (maskOf [.dev, .inode])

theorem fattrOverride_mask (fa source : Fattr) (mask : Mask) (a : Attr) :
    has (fattrOverride fa source mask).mask a =
      (has fa.mask a || (has mask a && has source.mask a)) := by
  simp [fattrOverride, has]

/-- What is merged has the attributes of both. -/
theorem fattrMerge_mask (fa source : Fattr) (a : Attr) :
    has (fattrMerge fa source).mask a = (has fa.mask a || has source.mask a) := by
  have ha : a.idx < 32 := by cases a <;> decide
  rw [fattrMerge, fattrOverride_mask]
  have : has (source.mask &&& ~~~fa.mask) a = (has source.mask a && !has fa.mask a) := by
    simp [has, ha]
  rw [this]
  cases has fa.mask a <;> cases has source.mask a <;> rfl

end Csup.Attrs
