import Csup.Fattr.Pieces

/-!
# Encoding and decoding attributes

`fattrDecode_fattrEncode` computes `fattr_decode` on what `fattr_encode` writes
for a file, a directory or a device node. `%lld` and a radix of 16 do not fit
together: `roundTrips_iff` says which attributes come back.
-/

namespace Csup.Attrs

variable {fflags : Bool} {ids : Ids} {fa : Fattr}

/-! ## The attributes that are sent -/

/-- The attributes of a file, a directory or a device node, as the system has
them: the name of an owner or a group is that of its id, and three digits are
enough for its length. -/
structure OfNode (fflags : Bool) (ids : Ids) (fa : Fattr) : Prop where
  type : fa.type = .file ∨ fa.type = .directory ∨ fa.type = .cdev ∨ fa.type = .bdev
  filetype : has fa.mask .filetype = true
  supported : fa.mask &&& fattrSupported fflags fa.type = fa.mask
  owner : has fa.mask .owner = true → ∃ name, ids.getuserbyid fa.uid = some name ∧
    ids.getuidbyname name = some fa.uid ∧ name.length < 1000
  group : has fa.mask .group = true → ∃ name, ids.getgroupbyid fa.gid = some name ∧
    ids.getgidbyname name = some fa.gid ∧ name.length < 1000

/-- The mask in the text: a link count of 1 is left out. -/
def wireMask (fa : Fattr) : Mask :=
  if has fa.mask .linkcount && fa.linkcount = 1 then fa.mask &&& ~~~Attr.linkcount.bit else fa.mask

/-- The mask that is read: a link count is put in where the type has one. -/
def readMask (fflags : Bool) (fa : Fattr) : Mask :=
  if has (wireMask fa) .linkcount then wireMask fa
  else if has (fattrSupported fflags fa.type) .linkcount then wireMask fa ||| Attr.linkcount.bit
  else wireMask fa

theorem has_wireMask {a : Attr} (h : a ≠ .linkcount) : has (wireMask fa) a = has fa.mask a := by
  have : ¬ Attr.linkcount = a := fun e => h e.symm
  unfold wireMask
  split <;> simp [this]

theorem has_wireMask_linkcount :
    has (wireMask fa) .linkcount = (has fa.mask .linkcount && !decide (fa.linkcount = 1)) := by
  unfold wireMask
  by_cases h : fa.linkcount = 1
  · cases hl : has fa.mask .linkcount <;> simp [h, hl]
  · simp only [h, decide_false, Bool.and_false, Bool.false_eq_true, if_false, Bool.not_false,
      Bool.and_true]

theorem has_readMask {a : Attr} (h : a ≠ .linkcount) :
    has (readMask fflags fa) a = has (wireMask fa) a := by
  have : ¬ Attr.linkcount = a := fun e => h e.symm
  unfold readMask
  split
  · rfl
  · split <;> simp [this]

theorem modemask_wireMask : modemask (wireMask fa) = modemask fa.mask := by
  simp [modemask, has_wireMask (show Attr.owner ≠ .linkcount by decide),
    has_wireMask (show Attr.group ≠ .linkcount by decide)]

theorem wireMask_supported (h : fa.mask &&& fattrSupported fflags fa.type = fa.mask) :
    wireMask fa &&& fattrSupported fflags fa.type = wireMask fa := by
  unfold wireMask
  split
  · rw [BitVec.and_assoc, BitVec.and_comm (~~~Attr.linkcount.bit), ← BitVec.and_assoc, h]
  · exact h

theorem fattrSupported_faMask (fflags : Bool) (t : FileType) :
    fattrSupported fflags t &&& ~~~faMask = 0 := by
  cases fflags <;> cases t <;> decide

theorem wireMask_faMask (h : fa.mask &&& fattrSupported fflags fa.type = fa.mask) :
    wireMask fa &&& ~~~faMask = 0 := by
  rw [← wireMask_supported h, BitVec.and_assoc, fattrSupported_faMask]
  exact BitVec.and_zero

theorem sentMask_eq (h : OfNode fflags ids fa) : sentMask ids fa none 0 = wireMask fa := by
  have howner : (has fa.mask .owner && (ids.getuserbyid fa.uid).isNone) = false := by
    cases ho : has fa.mask .owner
    · rfl
    · obtain ⟨name, hname, -⟩ := h.owner ho
      simp [hname]
  have hgroup : (has fa.mask .group && (ids.getgroupbyid fa.gid).isNone) = false := by
    cases hg : has fa.mask .group
    · rfl
    · obtain ⟨name, hname, -⟩ := h.group hg
      simp [hname]
  have h0 : fa.mask &&& ~~~(0 : Mask) = fa.mask := by
    show fa.mask &&& BitVec.allOnes 32 = fa.mask
    exact BitVec.and_allOnes
  simp only [sentMask, howner, hgroup, h0, wireMask, Bool.false_eq_true, if_false]

/-! ## One attribute after the other -/

/-- A number that is printed in decimal and read in hexadecimal. -/
def hexOf (b : Bool) (x v : BitVec 64) : Except Stop (BitVec 64) :=
  if b then (wholeInt 16 (printInt x.toInt)).map (BitVec.ofInt 64) else .ok v

/-- The highest bit of a device does not fit. -/
def devOf (b : Bool) (x v : BitVec 64) : Except Stop (BitVec 64) :=
  if b then if x.toNat < 2 ^ 63 then .ok x else .error .bad else .ok v

/-- An attribute that is read without an error. -/
theorem scanIf_ok {a : Attr} {r r' : Fattr} {val : List Byte}
    (hlen : has r.mask a = true → val.length < 1000)
    (hval : has r.mask a = true → scanValue ids r val a = .ok r')
    (hskip : has r.mask a = false → r = r') (rest : List Byte) :
    scanIf ids a (r, pieceIf (has r.mask a) val ++ rest) = .ok (r', rest) := by
  rw [scanIf_pieceIf ids rfl hlen, field]
  cases h : has r.mask a
  · rw [if_neg (by decide), hskip h]
    rfl
  · rw [if_pos rfl, hval h]
    rfl

section Steps

variable (m : Mask) (t : FileType) (mt sz : BitVec 64) (lt : List Byte) (rd : BitVec 64)
  (ui gi mo fl : BitVec 32) (lc dv ino : BitVec 64) (rest : List Byte)

theorem scan_modtime (x : BitVec 64) :
    scanIf ids .modtime (⟨m, t, mt, sz, lt, rd, ui, gi, mo, fl, lc, dv, ino⟩,
      pieceIf (has m .modtime) (printInt x.toInt) ++ rest) =
    .ok (⟨m, t, if has m .modtime then x else mt, sz, lt, rd, ui, gi, mo, fl, lc, dv, ino⟩,
      rest) := by
  have hlen := length_printInt_le x
  apply scanIf_ok
  · intro _
    omega
  · intro h
    simp [scanValue, wholeInt_printInt, show has m .modtime = true from h]
  · intro h
    simp [show has m .modtime = false from h]

theorem scan_size (x : BitVec 64) :
    scanIf ids .size (⟨m, t, mt, sz, lt, rd, ui, gi, mo, fl, lc, dv, ino⟩,
      pieceIf (has m .size) (printInt x.toInt) ++ rest) =
    .ok (⟨m, t, mt, if has m .size then x else sz, lt, rd, ui, gi, mo, fl, lc, dv, ino⟩,
      rest) := by
  have hlen := length_printInt_le x
  apply scanIf_ok
  · intro _
    omega
  · intro h
    simp [scanValue, wholeInt_printInt, show has m .size = true from h]
  · intro h
    simp [show has m .size = false from h]

theorem scan_linktarget (h : has m .linktarget = false) (val : List Byte) :
    scanIf ids .linktarget (⟨m, t, mt, sz, lt, rd, ui, gi, mo, fl, lc, dv, ino⟩,
      pieceIf (has m .linktarget) val ++ rest) =
    .ok (⟨m, t, mt, sz, lt, rd, ui, gi, mo, fl, lc, dv, ino⟩, rest) := by
  apply scanIf_ok
  · intro h'
    simp [h] at h'
  · intro h'
    simp [h] at h'
  · intro _
    rfl

theorem scan_rdev (x : BitVec 64) :
    scanIf ids .rdev (⟨m, t, mt, sz, lt, rd, ui, gi, mo, fl, lc, dv, ino⟩,
      pieceIf (has m .rdev) (printInt x.toInt) ++ rest) =
    (hexOf (has m .rdev) x rd).map fun v =>
      (⟨m, t, mt, sz, lt, v, ui, gi, mo, fl, lc, dv, ino⟩, rest) := by
  have hlen := length_printInt_le x
  rw [scanIf_pieceIf ids rfl (fun _ => by omega), field, hexOf]
  cases has m .rdev
  · rfl
  · simp only [if_true, scanValue]
    rcases wholeInt 16 (printInt x.toInt) with e | i <;> rfl

theorem scan_owner {uid : BitVec 32}
    (h : has m .owner = true → ∃ name, ids.getuserbyid uid = some name ∧
      ids.getuidbyname name = some uid ∧ name.length < 1000) :
    scanIf ids .owner (⟨m, t, mt, sz, lt, rd, ui, gi, mo, fl, lc, dv, ino⟩,
      pieceIf (has m .owner) ((ids.getuserbyid uid).getD []) ++ rest) =
    .ok (⟨m, t, mt, sz, lt, rd, if has m .owner then uid else ui, gi, mo, fl, lc, dv, ino⟩,
      rest) := by
  apply scanIf_ok
  · intro h'
    obtain ⟨name, hname, -, hlen⟩ := h h'
    simpa [hname] using hlen
  · intro h'
    obtain ⟨name, hname, hback, -⟩ := h h'
    simp [scanValue, hname, hback, show has m .owner = true from h']
  · intro h'
    simp [show has m .owner = false from h']

theorem scan_group {gid : BitVec 32}
    (h : has m .group = true → ∃ name, ids.getgroupbyid gid = some name ∧
      ids.getgidbyname name = some gid ∧ name.length < 1000) :
    scanIf ids .group (⟨m, t, mt, sz, lt, rd, ui, gi, mo, fl, lc, dv, ino⟩,
      pieceIf (has m .group) ((ids.getgroupbyid gid).getD []) ++ rest) =
    .ok (⟨m, t, mt, sz, lt, rd, ui, if has m .group then gid else gi, mo, fl, lc, dv, ino⟩,
      rest) := by
  apply scanIf_ok
  · intro h'
    obtain ⟨name, hname, -, hlen⟩ := h h'
    simpa [hname] using hlen
  · intro h'
    obtain ⟨name, hname, hback, -⟩ := h h'
    simp [scanValue, hname, hback, show has m .group = true from h']
  · intro h'
    simp [show has m .group = false from h']

theorem scan_mode (x : BitVec 32) :
    scanIf ids .mode (⟨m, t, mt, sz, lt, rd, ui, gi, mo, fl, lc, dv, ino⟩,
      pieceIf (has m .mode) (printRadix 8 (x &&& modemask m).toNat) ++ rest) =
    .ok (⟨m, t, mt, sz, lt, rd, ui, gi, if has m .mode then x &&& modemask m else mo, fl, lc, dv,
      ino⟩, rest) := by
  have hx := (x &&& modemask m).isLt
  have hlen := length_printRadix_le 8 (x &&& modemask m).toNat (by decide) (by omega)
  have hval : wholeInt 8 (printRadix 8 (x &&& modemask m).toNat) =
      .ok ((x &&& modemask m).toNat : Int) :=
    wholeInt_printRadix (by decide) (by decide) (by simp only [longMax]; omega)
  apply scanIf_ok
  · intro _
    omega
  · intro h
    have hback : BitVec.ofInt 32 ((x &&& modemask m).toNat : Int) &&& modemask m =
        x &&& modemask m := by
      rw [BitVec.ofInt_natCast, BitVec.ofNat_toNat, BitVec.setWidth_eq, BitVec.and_assoc,
        BitVec.and_self]
    simp only [scanValue, hval, show has m .mode = true from h, if_true]
    exact congrArg (fun v => Except.ok (Fattr.mk m t mt sz lt rd ui gi v fl lc dv ino)) hback
  · intro h
    simp [show has m .mode = false from h]

theorem scan_flags (x : BitVec 32) :
    scanIf ids .flags (⟨m, t, mt, sz, lt, rd, ui, gi, mo, fl, lc, dv, ino⟩,
      pieceIf (has m .flags) (printRadix 16 x.toNat) ++ rest) =
    .ok (⟨m, t, mt, sz, lt, rd, ui, gi, mo, if has m .flags then x else fl, lc, dv, ino⟩,
      rest) := by
  have hx := x.isLt
  have hlen := length_printRadix_le 16 x.toNat (by decide) (by omega)
  have hval : wholeNat 16 (printRadix 16 x.toNat) = .ok x.toNat :=
    wholeNat_printRadix (by decide) (by decide) (by omega)
  apply scanIf_ok
  · intro _
    omega
  · intro h
    simp [scanValue, hval, show has m .flags = true from h]
  · intro h
    simp [show has m .flags = false from h]

theorem scan_linkcount (x : BitVec 64) :
    scanLinkcount fflags ids (⟨m, t, mt, sz, lt, rd, ui, gi, mo, fl, lc, dv, ino⟩,
      pieceIf (has m .linkcount) (printInt x.toInt) ++ rest) =
    (hexOf (has m .linkcount) x
      (if has (fattrSupported fflags t) .linkcount then 1 else lc)).map fun v =>
      (⟨if has m .linkcount then m else if has (fattrSupported fflags t) .linkcount then
        m ||| Attr.linkcount.bit else m, t, mt, sz, lt, rd, ui, gi, mo, fl, v, dv, ino⟩, rest) := by
  have hlen := length_printInt_le x
  rw [scanLinkcount, hexOf]
  cases h : has m .linkcount
  · simp only [Bool.false_eq_true, if_false, pieceIf, List.nil_append]
    split <;> rfl
  · simp only [if_true, pieceIf]
    rw [fattrScanattr_piece ids _ _ (by omega), scanValue]
    rcases wholeInt 16 (printInt x.toInt) with e | i <;> rfl

theorem scan_dev {b : Bool} (hb : b = has m .dev) (x : BitVec 64) :
    scanIf ids .dev (⟨m, t, mt, sz, lt, rd, ui, gi, mo, fl, lc, dv, ino⟩,
      pieceIf b (printRadix 16 x.toNat) ++ rest) =
    (devOf b x dv).map fun v =>
      (⟨m, t, mt, sz, lt, rd, ui, gi, mo, fl, lc, v, ino⟩, rest) := by
  have hlen := length_printRadix_le 16 x.toNat (by decide) x.isLt
  subst hb
  rw [scanIf_pieceIf ids rfl (fun _ => by omega), field, devOf]
  cases has m .dev
  · rfl
  · simp only [if_true, scanValue, wholeInt_dev]
    split
    · have hback : BitVec.ofInt 64 (x.toNat : Int) = x := by
        rw [BitVec.ofInt_natCast, BitVec.ofNat_toNat, BitVec.setWidth_eq]
      exact congrArg (fun v => Except.ok ((Fattr.mk m t mt sz lt rd ui gi mo fl lc v ino), rest))
        hback
    · rfl

theorem scan_inode {b : Bool} (hb : b = has m .inode) (x : BitVec 64) :
    scanIf ids .inode (⟨m, t, mt, sz, lt, rd, ui, gi, mo, fl, lc, dv, ino⟩,
      pieceIf b (printInt x.toInt)) =
    .ok (⟨m, t, mt, sz, lt, rd, ui, gi, mo, fl, lc, dv, if b then x else ino⟩, []) := by
  have hlen := length_printInt_le x
  subst hb
  rw [← List.append_nil (pieceIf _ _)]
  apply scanIf_ok
  · intro _
    omega
  · intro h
    simp [scanValue, wholeInt_printInt, show has m .inode = true from h]
  · intro h
    simp [show has m .inode = false from h]

end Steps

/-! ## All attributes -/

/-- What is read back when the three numbers are `rdev`, `linkcount` and `dev`. -/
def readBack (fflags : Bool) (fa : Fattr) (rdev linkcount dev : BitVec 64) : Fattr where
  mask := readMask fflags fa
  type := fa.type
  modtime := if has (wireMask fa) .modtime then fa.modtime else 0
  size := if has (wireMask fa) .size then fa.size else 0
  linktarget := []
  rdev := rdev
  uid := if has (wireMask fa) .owner then fa.uid else 0
  gid := if has (wireMask fa) .group then fa.gid else 0
  mode := if has (wireMask fa) .mode then fa.mode &&& modemask (wireMask fa) else 0
  flags := if has (wireMask fa) .flags then fa.flags else 0
  linkcount := linkcount
  dev := dev
  inode := if has (wireMask fa) .inode then fa.inode else 0

theorem ofInt_num (t : FileType) : FileType.ofInt (BitVec.ofInt 32 (t.num : Int)).toInt = t := by
  cases t <;> decide

theorem no_linktarget (h : OfNode fflags ids fa) : has (wireMask fa) .linktarget = false := by
  rw [has_wireMask (by decide), ← h.supported, has_and]
  rcases h.type with ht | ht | ht | ht <;> rw [ht] <;> cases fflags <;>
    exact Bool.and_false _

theorem scan_mask (fa : Fattr) (rest : List Byte) :
    scanPiece (piece (printRadix 16 (wireMask fa).toNat) ++ rest) =
        .ok (printRadix 16 (wireMask fa).toNat, rest) ∧
      wholeInt 16 (printRadix 16 (wireMask fa).toNat) = .ok ((wireMask fa).toNat : Int) ∧
      BitVec.ofInt 32 ((wireMask fa).toNat : Int) = wireMask fa := by
  have hm := (wireMask fa).isLt
  have hlen := length_printRadix_le 16 (wireMask fa).toNat (by decide) (by omega)
  refine ⟨scanPiece_piece (by omega) rest, ?_, ?_⟩
  · exact wholeInt_printRadix (by decide) (by decide) (by simp only [longMax]; omega)
  · rw [BitVec.ofInt_natCast, BitVec.ofNat_toNat, BitVec.setWidth_eq]

theorem pieceIf_true (val : List Byte) : pieceIf true val = piece val := rfl

theorem scan_filetype (ids : Ids) (r : Fattr) (t : FileType) (rest : List Byte) :
    fattrScanattr ids r .filetype (piece (printRadix 10 t.num) ++ rest) =
      .ok ({ r with type := t }, rest) := by
  have hnum : t.num < 2 ^ 64 ∧ (t.num : Int) ≤ longMax := by
    cases t <;> decide
  have hlen := length_printRadix_le 10 t.num (by decide) hnum.1
  have hval : wholeInt 10 (printRadix 10 t.num) = .ok (t.num : Int) :=
    wholeInt_printRadix (by decide) (by decide) hnum.2
  rw [fattrScanattr_piece ids r .filetype (by omega), scanValue, hval]
  show Except.ok ({ r with type := FileType.ofInt (BitVec.ofInt 32 (t.num : Int)).toInt },
    rest) = _
  rw [ofInt_num]

/-- What `fattr_decode` makes of the text of `fattr_encode`. -/
theorem fattrDecode_fattrEncode (h : OfNode fflags ids fa) :
    fattrDecode fflags ids (fattrEncode ids fa none 0) = (do
      let rdev ← hexOf (has fa.mask .rdev) fa.rdev 0
      let linkcount ← hexOf (has (wireMask fa) .linkcount) fa.linkcount
        (if has (fattrSupported fflags fa.type) .linkcount then 1 else 0)
      let dev ← devOf (has fa.mask .dev) fa.dev 0
      return readBack fflags fa rdev linkcount dev) := by
  have hfiletype : has (wireMask fa) .filetype = true := by
    rw [has_wireMask (by decide), h.filetype]
  have howner : has (wireMask fa) .owner = true → _ := fun ho =>
    h.owner (by rwa [has_wireMask (by decide)] at ho)
  have hgroup : has (wireMask fa) .group = true → _ := fun hg =>
    h.group (by rwa [has_wireMask (by decide)] at hg)
  have hpos : ¬ 0 < (0 : Mask).toInt := by decide
  have hread : (if has (wireMask fa) .linkcount then wireMask fa
      else if has (fattrSupported fflags fa.type) .linkcount then
        wireMask fa ||| Attr.linkcount.bit
      else wireMask fa) = readMask fflags fa := rfl
  have hmaskdev : has (wireMask fa) .dev = has (readMask fflags fa) .dev :=
    (has_readMask (by decide)).symm
  have hmaskinode : has (wireMask fa) .inode = has (readMask fflags fa) .inode :=
    (has_readMask (by decide)).symm
  obtain ⟨-, hval, hback⟩ := scan_mask fa []
  have hbind {α β : Type} (a : α) (f : α → Except Stop β) : (Except.ok a >>= f) = f a := rfl
  have herror {α β : Type} (e : Stop) (f : α → Except Stop β) :
      (Except.error e >>= f) = .error e := rfl
  have hpure {α : Type} (a : α) : (pure a : Except Stop α) = .ok a := rfl
  have hmap {α β : Type} (f : α → β) (a : α) :
      Except.map f (.ok a : Except Stop α) = .ok (f a) := rfl
  have hmaperror {α β : Type} (f : α → β) (e : Stop) :
      Except.map f (.error e : Except Stop α) = .error e := rfl
  rw [fattrEncode, sentMask_eq h]
  simp only [List.append_assoc, hfiletype]
  rw [fattrDecode, (scan_mask fa _).1]
  simp only [hbind, hpure, hval, hback, wireMask_faMask h.supported, hpos, if_false, hfiletype,
    if_true, pieceIf_true, scan_filetype, wireMask_supported h.supported, fattrNew, scan_modtime,
    scan_size, scan_linktarget _ _ _ _ _ _ _ _ _ _ _ _ _ _ (no_linktarget h), scan_rdev]
  rw [has_wireMask (show Attr.rdev ≠ .linkcount by decide)]
  rcases hexOf (has fa.mask .rdev) fa.rdev 0 with e | rdev
  · simp only [hmaperror, herror]
  simp only [hmap, hbind, scan_owner _ _ _ _ _ _ _ _ _ _ _ _ _ _ howner,
    scan_group _ _ _ _ _ _ _ _ _ _ _ _ _ _ hgroup, scan_mode, scan_flags, scan_linkcount]
  rcases hexOf (has (wireMask fa) .linkcount) fa.linkcount _ with e | linkcount
  · simp only [hmaperror, herror]
  simp only [hmap, hbind, hread, scan_dev _ _ _ _ _ _ _ _ _ _ _ _ _ _ hmaskdev]
  rw [has_wireMask (show Attr.dev ≠ .linkcount by decide)]
  rcases devOf (has fa.mask .dev) fa.dev 0 with e | dev
  · simp only [hmaperror, herror]
  simp only [hmap, hbind, scan_inode _ _ _ _ _ _ _ _ _ _ _ _ _ hmaskinode]
  rfl

/-! ## The round trip -/

/-- The value of an attribute is the one that was encoded; of the mode, the
bits that are sent. -/
def SameValue (fa fa' : Fattr) : Attr → Prop
  | .filetype => fa'.type = fa.type
  | .modtime => fa'.modtime = fa.modtime
  | .size => fa'.size = fa.size
  | .linktarget => fa'.linktarget = fa.linktarget
  | .rdev => fa'.rdev = fa.rdev
  | .owner => fa'.uid = fa.uid
  | .group => fa'.gid = fa.gid
  | .mode => fa'.mode = fa.mode &&& modemask fa.mask
  | .flags => fa'.flags = fa.flags
  | .linkcount => fa'.linkcount = fa.linkcount
  | .dev => fa'.dev = fa.dev
  | .inode => fa'.inode = fa.inode

/-- The text of the attributes is read as the same attributes. -/
def RoundTrips (fflags : Bool) (ids : Ids) (fa : Fattr) : Prop :=
  ∃ fa', fattrDecode fflags ids (fattrEncode ids fa none 0) = .ok fa' ∧
    fa'.type = fa.type ∧
    (∀ a, has fa.mask a = true → has fa'.mask a = true ∧ SameValue fa fa' a) ∧
    (has (fattrSupported fflags fa.type) .linkcount = true → has fa.mask .linkcount = false →
      has fa'.mask .linkcount = true ∧ fa'.linkcount = 1)

/-- The numbers that are read as they were written. -/
structure OneDigit (fa : Fattr) : Prop where
  rdev : has fa.mask .rdev = true → fa.rdev.toInt.natAbs < 10
  linkcount : has fa.mask .linkcount = true → fa.linkcount.toInt.natAbs < 10
  dev : has fa.mask .dev = true → fa.dev.toNat < 2 ^ 63

theorem hexOf_true_iff (x v : BitVec 64) : hexOf true x v = .ok x ↔ x.toInt.natAbs < 10 := by
  rw [hexOf, if_pos rfl]
  exact wholeInt_hex_iff x

theorem hexOf_ok {b : Bool} {x : BitVec 64} (h : b = true → x.toInt.natAbs < 10) (v : BitVec 64) :
    hexOf b x v = .ok (if b then x else v) := by
  cases b
  · rfl
  · exact (hexOf_true_iff x v).mpr (h rfl)

theorem devOf_ok {b : Bool} {x : BitVec 64} (h : b = true → x.toNat < 2 ^ 63) (v : BitVec 64) :
    devOf b x v = .ok (if b then x else v) := by
  cases b
  · rfl
  · simp only [devOf, if_true, if_pos (h rfl)]

theorem linkcount_wire (h : has fa.mask .linkcount = true) (h1 : fa.linkcount ≠ 1) :
    has (wireMask fa) .linkcount = true := by
  rw [has_wireMask_linkcount, h]
  simpa using h1

theorem linkcount_supported (h : OfNode fflags ids fa) (hl : has fa.mask .linkcount = true) :
    has (fattrSupported fflags fa.type) .linkcount = true := by
  rw [← h.supported, has_and] at hl
  exact (Bool.and_eq_true_iff.mp hl).2

/-- The attributes in the mask are in the mask that is read. -/
theorem has_readMask_of_has (h : OfNode fflags ids fa) {a : Attr} (ha : has fa.mask a = true) :
    has (readMask fflags fa) a = true := by
  by_cases hl : a = .linkcount
  · subst hl
    unfold readMask
    split
    · assumption
    · rw [if_pos (linkcount_supported h ha)]
      simp
  · rw [has_readMask hl, has_wireMask hl, ha]

/-- A file, a directory or a device node has its attributes back iff the
numbers in the wrong radix have one digit. -/
theorem roundTrips_iff (h : OfNode fflags ids fa) : RoundTrips fflags ids fa ↔ OneDigit fa := by
  constructor
  · rintro ⟨fa', hdec, -, hval, -⟩
    rw [fattrDecode_fattrEncode h] at hdec
    rcases hrdev : hexOf (has fa.mask .rdev) fa.rdev 0 with e | rdev
    · rw [hrdev] at hdec
      exact absurd hdec (by intro h; cases h)
    rcases hlink : hexOf (has (wireMask fa) .linkcount) fa.linkcount
      (if has (fattrSupported fflags fa.type) .linkcount then 1 else 0) with e | linkcount
    · rw [hrdev, hlink] at hdec
      exact absurd hdec (by intro h; cases h)
    rcases hdev : devOf (has fa.mask .dev) fa.dev 0 with e | dev
    · rw [hrdev, hlink, hdev] at hdec
      exact absurd hdec (by intro h; cases h)
    rw [hrdev, hlink, hdev] at hdec
    obtain rfl : readBack fflags fa rdev linkcount dev = fa' := Except.ok.inj hdec
    refine ⟨?_, ?_, ?_⟩
    · intro ha
      have : rdev = fa.rdev := (hval .rdev ha).2
      rw [this, ha] at hrdev
      exact (hexOf_true_iff _ _).mp hrdev
    · intro ha
      have hx : linkcount = fa.linkcount := (hval .linkcount ha).2
      by_cases h1 : fa.linkcount = 1
      · rw [h1]
        decide
      · rw [hx, linkcount_wire ha h1] at hlink
        exact (hexOf_true_iff _ _).mp hlink
    · intro ha
      rw [ha, devOf, if_pos rfl] at hdev
      by_contra hge
      rw [if_neg hge] at hdev
      cases hdev
  · intro hd
    have hlink : has (wireMask fa) .linkcount = true → fa.linkcount.toInt.natAbs < 10 := by
      intro hw
      rw [has_wireMask_linkcount, Bool.and_eq_true] at hw
      exact hd.linkcount hw.1
    have hdec := fattrDecode_fattrEncode h
    rw [hexOf_ok hd.rdev, hexOf_ok hlink, devOf_ok hd.dev] at hdec
    refine ⟨_, hdec, rfl, ?_, ?_⟩
    · intro a ha
      refine ⟨has_readMask_of_has h ha, ?_⟩
      have hw (hne : a ≠ .linkcount) : has (wireMask fa) a = true := by
        rw [has_wireMask hne, ha]
      match a with
      | .filetype => exact rfl
      | .modtime => exact if_pos (hw (by decide))
      | .size => exact if_pos (hw (by decide))
      | .linktarget => exact absurd (hw (by decide)) (by simp [no_linktarget h])
      | .rdev => exact if_pos ha
      | .owner => exact if_pos (hw (by decide))
      | .group => exact if_pos (hw (by decide))
      | .mode =>
        show (if has (wireMask fa) .mode then fa.mode &&& modemask (wireMask fa) else 0) = _
        rw [if_pos (hw (by decide)), modemask_wireMask]
      | .flags => exact if_pos (hw (by decide))
      | .linkcount =>
        show (if has (wireMask fa) .linkcount then fa.linkcount else _) = fa.linkcount
        by_cases h1 : fa.linkcount = 1
        · simp [h1, linkcount_supported h ha]
        · rw [if_pos (linkcount_wire ha h1)]
      | .dev => exact if_pos ha
      | .inode => exact if_pos (hw (by decide))
    · intro hs hno
      have hw : has (wireMask fa) .linkcount = false := by
        rw [has_wireMask_linkcount, hno]
        rfl
      refine ⟨?_, ?_⟩
      · show has (readMask fflags fa) .linkcount = true
        unfold readMask
        rw [hw, if_neg (by decide), if_pos hs]
        simp
      · show (if has (wireMask fa) .linkcount then fa.linkcount else _) = 1
        rw [hw, if_neg (by decide), if_pos hs]

/-- A system whose only user and only group are root. -/
def rootIds : Ids where
  getuserbyid uid := if uid = 0 then some [114, 111, 111, 116] else none
  getgroupbyid gid := if gid = 0 then some [114, 111, 111, 116] else none
  getuidbyname name := if name = [114, 111, 111, 116] then some 0 else none
  getgidbyname name := if name = [114, 111, 111, 116] then some 0 else none

/-- An empty file of root with some links. -/
def linkedFile (linkcount : BitVec 64) : Fattr :=
  { fattrNew with
    mask := fattrSupported false .file
    type := .file
    mode := 0o644
    linkcount }

theorem linkedFile_ofNode (n : BitVec 64) : OfNode false rootIds (linkedFile n) where
  type := .inl rfl
  filetype := by
    show has (fattrSupported false .file) .filetype = true
    decide
  supported := by
    show fattrSupported false .file &&& fattrSupported false .file = fattrSupported false .file
    exact BitVec.and_self
  owner := fun _ => ⟨[114, 111, 111, 116], rfl, rfl, by decide⟩
  group := fun _ => ⟨[114, 111, 111, 116], rfl, rfl, by decide⟩

theorem roundTrips_linkedFile : RoundTrips false rootIds (linkedFile 2) :=
  (roundTrips_iff (linkedFile_ofNode 2)).mpr
    ⟨fun h => absurd h (by decide), fun _ => by decide, fun _ => by decide⟩

/-- A file with ten links is read as one with sixteen. -/
theorem linkedFile_ten : (fattrDecode false rootIds (fattrEncode rootIds (linkedFile 10) none 0)).map
    Fattr.linkcount = .ok 16 := by
  rfl

theorem not_roundTrips : ¬ ∀ fflags ids fa, OfNode fflags ids fa → RoundTrips fflags ids fa := by
  intro h
  obtain ⟨fa', hdec, -, hval, -⟩ := h false rootIds (linkedFile 10) (linkedFile_ofNode 10)
  have hten := linkedFile_ten
  rw [hdec] at hten
  have h10 : fa'.linkcount = 10 := (hval .linkcount rfl).2
  have h16 : fa'.linkcount = 16 := Except.ok.inj hten
  exact absurd (h10.symm.trans h16) (by decide)

end Csup.Attrs
