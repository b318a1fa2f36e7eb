import Csup.Fattr.Ops
import Csup.Fattr.Codec

/-!
# Attributes of a path: `fattr_fromstat`, `fattr_frompath`

What `stat` and `readlink` tell of a path, as attributes.

The text of a symbolic link has the length of its target in three digits, and a target may
have 1023 bytes: `symlink_framed_iff`.
-/

namespace Csup.Attrs

/-- What is read of a `struct stat`, where the type is taken out of the mode. -/
structure Stat where
  type : FileType
  mtime : BitVec 64
  size : BitVec 64
  rdev : BitVec 64
  uid : BitVec 32
  gid : BitVec 32
  mode : BitVec 32
  flags : BitVec 32
  nlink : BitVec 64
  dev : BitVec 64
  ino : BitVec 64

/-- `fattr_fromstat` -/
def fattrFromstat (fflags : Bool) (sb : Stat) : Fattr :=
  let mask := Attr.filetype.bit ||| fattrSupported fflags sb.type
  { mask
    type := sb.type
    modtime := if has mask .modtime then sb.mtime else 0
    size := if has mask .size then sb.size else 0
    linktarget := []
    rdev := if has mask .rdev then sb.rdev else 0
    uid := if has mask .owner then sb.uid else 0
    gid := if has mask .group then sb.gid else 0
    mode := if has mask .mode then sb.mode &&& 0o7777 else 0
    flags := if has mask .flags then sb.flags else 0
    linkcount := if has mask .linkcount then sb.nlink else 0
    dev := if has mask .dev then sb.dev else 0
    inode := if has mask .inode then sb.ino else 0 }

/-- `fattr_frompath`, where `sb` is the answer of `stat` and `link` that of `readlink`, whose
buffer has 1024 bytes. -/
def fattrFrompath (fflags : Bool) (sb : Option Stat) (link : Option (List Byte)) : Option Fattr :=
  sb.bind fun sb =>
    let fa := fattrFromstat fflags sb
    if has fa.mask .linktarget then
      link.bind fun target =>
        if 1023 < target.length then none else some { fa with linktarget := cstr target }
    else some fa

/-! ## Symbolic links -/

/-- The attributes of a symbolic link. -/
def symlinkFattr (linktarget : List Byte) : Fattr :=
  { fattrNew with mask := maskOf [.filetype, .linktarget], type := .symlink, linktarget }

theorem cstr_eq {s : List Byte} (h : 0 ∉ s) : cstr s = s := by
  rw [cstr, List.takeWhile_eq_self_iff]
  intro b hb
  exact decide_eq_true fun h0 => h (h0 ▸ hb)

theorem fattrFrompath_symlink (fflags : Bool) {sb : Stat} {target : List Byte}
    (htype : sb.type = .symlink) (h0 : 0 ∉ target) :
    fattrFrompath fflags (some sb) (some target) =
      if 1023 < target.length then none else some (symlinkFattr target) := by
  have hmask : Attr.filetype.bit ||| fattrSupported fflags .symlink =
      maskOf [.filetype, .linktarget] := by
    cases fflags <;> decide
  have hstat : fattrFromstat fflags sb = symlinkFattr [] := by
    simp only [fattrFromstat, htype, hmask]
    simp [symlinkFattr, fattrNew, has, maskOf, Attr.bit, Attr.idx]
  have hlink : has (symlinkFattr []).mask .linktarget = true := rfl
  simp only [fattrFrompath, Option.bind_some, hstat, hlink, if_true, cstr_eq h0]
  rfl

/-- The digits in front of the last one. -/
theorem printRadix_div {base n : Nat} (hb : 1 < base) (hn : base ≤ n) :
    printRadix base n = printRadix base (n / base) ++ [digitByte (n % base)] := by
  have h0 : n / base ≠ 0 := Nat.ne_of_gt (Nat.div_pos hn (by omega))
  rw [printRadix, printRadix, if_neg (by omega), if_neg h0, Nat.digits_def' hb (by omega)]
  simp

theorem length_printRadix_three {n : Nat} (h : 100 ≤ n) (hlt : n < 1000) :
    (printRadix 10 n).length = 3 := by
  have hle := length_printRadix_lt hlt
  have hgt : 2 < (Nat.digits 10 n).length := (Nat.lt_digits_length_iff (by decide) n).mpr h
  rw [printRadix, if_neg (by omega), List.length_reverse, List.length_map] at hle ⊢
  omega

/-- A length of four digits loses the last one. -/
theorem take_printRadix {n : Nat} (h : 1000 ≤ n) (hlt : n < 10000) :
    (printRadix 10 n).take 3 = printRadix 10 (n / 10) := by
  rw [printRadix_div (by decide) (by omega),
    List.take_left' (length_printRadix_three (by omega) (by omega))]

/-- The text of a symbolic link up to the length of its target. -/
def symlinkText : List Byte :=
  piece (printRadix 16 (symlinkFattr []).mask.toNat) ++ piece (printRadix 10 FileType.symlink.num)

theorem fattrEncode_symlink {ids : Ids} {target : List Byte} {support : Option (FileType → Mask)}
    {ignore : Mask}
    (hsent : sentMask ids (symlinkFattr target) support ignore = (symlinkFattr target).mask) :
    fattrEncode ids (symlinkFattr target) support ignore = symlinkText ++ piece target := by
  rw [fattrEncode, hsent]
  simp [symlinkText, symlinkFattr, pieceIf, has, maskOf, Attr.bit, Attr.idx]

theorem fattrDecode_symlink (fflags : Bool) (ids : Ids) (text : List Byte) :
    fattrDecode fflags ids (symlinkText ++ text) =
      (scanPiece text).map fun r => symlinkFattr r.1 := by
  obtain ⟨hpiece, hval, hback⟩ :=
    scan_mask (symlinkFattr []) (piece (printRadix 10 FileType.symlink.num) ++ text)
  have hwire : wireMask (symlinkFattr []) = (symlinkFattr []).mask := rfl
  have hrest : ¬0 < ((symlinkFattr []).mask &&& ~~~faMask).toInt := by decide
  have hsupp : (symlinkFattr []).mask &&& fattrSupported fflags .symlink = (symlinkFattr []).mask := by
    cases fflags <;> decide
  have hlink : has (fattrSupported fflags .symlink) .linkcount = false := by
    cases fflags <;> decide
  have hhas (a : Attr) : has (symlinkFattr []).mask a = decide (a = .filetype ∨ a = .linktarget) := by
    cases a <;> decide
  have hbind {α β : Type} (a : α) (f : α → Except Stop β) : (Except.ok a >>= f) = f a := rfl
  have hpure {α : Type} (a : α) : (pure a : Except Stop α) = .ok a := rfl
  rw [hwire] at hpiece hval hback
  rw [symlinkText, List.append_assoc]
  simp only [fattrDecode, hpiece, hbind, hpure, hval, hback, hrest, if_false, hhas, scan_filetype, hsupp,
    scanIf, scanLinkcount, decide_true, decide_false, if_true, reduceCtorEq, or_true, or_false]
  rw [fattrScanattr]
  cases scanPiece text with
  | error e => rfl
  | ok r =>
    simp only [hbind, hpure, scanValue, hhas, reduceCtorEq, or_self, decide_false, Bool.false_eq_true,
      if_false, hlink]
    rfl

/-- Of a longer target as many bytes are read as the first three digits of its length say. -/
theorem scanPiece_cut {target : List Byte} (h : 1000 ≤ target.length) (hlt : target.length < 10000) :
    scanPiece (piece target) =
      .ok (target.take (target.length / 10), target.drop (target.length / 10)) := by
  have hread : strtoul 10 (printRadix 10 (target.length / 10) ++ 35 :: target) =
      (target.length / 10, 35 :: target, false) := by
    apply strtoul_printRadix (by decide) (by decide) (by omega)
    intro b hb
    obtain rfl : b = 35 := by simpa using hb.symm
    decide
  rw [piece, take_printRadix h hlt, scanPiece, hread]
  exact if_neg (by omega)

/-- The number in front of a target is its length. -/
theorem piece_eq_iff {target : List Byte} (h : target.length < 10000) :
    piece target = printRadix 10 target.length ++ 35 :: target ↔ target.length < 1000 := by
  constructor
  · intro heq
    by_contra hlt
    have hlen := congrArg List.length heq
    rw [piece, take_printRadix (by omega) h,
      printRadix_div (by decide) (show 10 ≤ target.length by omega)] at hlen
    simp only [List.length_append, List.length_cons, List.length_nil] at hlen
    omega
  · intro hlt
    rw [piece, List.take_of_length_le (length_printRadix_lt hlt)]

/-- A target is read back. -/
theorem scanPiece_iff {target : List Byte} (h : target.length < 10000) :
    (scanPiece (piece target)).map (fun r => symlinkFattr r.1) = .ok (symlinkFattr target) ↔
      target.length < 1000 := by
  constructor
  · intro heq
    by_contra hlt
    rw [scanPiece_cut (by omega) h] at heq
    have htake : target.take (target.length / 10) = target :=
      congrArg Fattr.linktarget (Except.ok.inj heq)
    have hlen := congrArg List.length htake
    rw [List.length_take] at hlen
    omega
  · intro hlt
    have hpiece := scanPiece_piece hlt []
    rw [List.append_nil] at hpiece
    rw [hpiece]
    rfl

/-- Where the type and the target of a symbolic link are sent, its text has the length of the
target in front of it, and decodes to a symbolic link with that target, just when the target
has at most 999 bytes. -/
theorem symlink_framed_iff {fflags : Bool} {ids : Ids} {sb : Stat} {target : List Byte} {fa : Fattr}
    {support : Option (FileType → Mask)} {ignore : Mask} (htype : sb.type = .symlink)
    (h0 : 0 ∉ target) (hfa : fattrFrompath fflags (some sb) (some target) = some fa)
    (hsent : sentMask ids fa support ignore = fa.mask) :
    (fattrEncode ids fa support ignore = symlinkText ++ (printRadix 10 target.length ++ 35 :: target) ↔
      target.length ≤ 999) ∧
    (fattrDecode fflags ids (fattrEncode ids fa support ignore) = .ok (symlinkFattr target) ↔
      target.length ≤ 999) := by
  rw [fattrFrompath_symlink fflags htype h0] at hfa
  split at hfa
  · cases hfa
  obtain rfl := Option.some.inj hfa
  rw [fattrEncode_symlink hsent, fattrDecode_symlink, List.append_cancel_left_eq,
    piece_eq_iff (by omega), scanPiece_iff (by omega)]
  omega

/-- What `stat` says of a symbolic link. -/
def linkStat (n : Nat) : Stat := ⟨.symlink, 0, n, 0, 0, 0, 0o777, 0, 1, 0, 7⟩

theorem symlink_framed_iff_short :
    (fattrEncode rootIds (symlinkFattr [97, 47, 35]) none 0 =
        symlinkText ++ (printRadix 10 3 ++ 35 :: [97, 47, 35]) ↔ 3 ≤ 999) ∧
    (fattrDecode false rootIds (fattrEncode rootIds (symlinkFattr [97, 47, 35]) none 0) =
      .ok (symlinkFattr [97, 47, 35]) ↔ 3 ≤ 999) :=
  @symlink_framed_iff false rootIds (linkStat 3) [97, 47, 35] (symlinkFattr [97, 47, 35]) none 0 rfl
    (by decide) (fattrFrompath_symlink false rfl (by decide)) (by decide +kernel)

/-- A target of 1000 bytes: its text says 100, and as many come back. -/
theorem symlink_thousand :
    fattrFrompath false (some (linkStat 1000)) (some (List.replicate 1000 97)) =
      some (symlinkFattr (List.replicate 1000 97)) ∧
    fattrEncode rootIds (symlinkFattr (List.replicate 1000 97)) none 0 ≠
      symlinkText ++ (printRadix 10 1000 ++ 35 :: List.replicate 1000 97) ∧
    fattrDecode false rootIds (fattrEncode rootIds (symlinkFattr (List.replicate 1000 97)) none 0) =
      .ok (symlinkFattr (List.replicate 100 97)) := by
  have hlen : (List.replicate 1000 (97 : Byte)).length = 1000 := List.length_replicate
  have hsent : sentMask rootIds (symlinkFattr (List.replicate 1000 97)) none 0 =
      (symlinkFattr (List.replicate 1000 97)).mask := by decide +kernel
  refine ⟨?_, ?_, ?_⟩
  · have h0 : (0 : Byte) ∉ List.replicate 1000 97 := fun h =>
      absurd (List.eq_of_mem_replicate h) (by decide)
    rw [fattrFrompath_symlink false rfl h0, if_neg (by omega)]
  · rw [fattrEncode_symlink hsent, Ne, List.append_cancel_left_eq]
    intro heq
    have hshort := (@piece_eq_iff (List.replicate 1000 97) (by omega)).mp (by rw [hlen]; exact heq)
    omega
  · rw [fattrEncode_symlink hsent, fattrDecode_symlink, scanPiece_cut (by omega) (by omega), hlen,
      List.take_replicate]
    rfl

end Csup.Attrs
