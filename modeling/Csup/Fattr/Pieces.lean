import Csup.Fattr.Defs
import Mathlib.Data.Nat.Digits.Lemmas

/-!
# Attributes in text and back

What one attribute does in `fattr_decode` when the text is that of
`fattr_encode`: `scanIf_pieceIf` takes the text away, and the value lemmas say
what each radix gives.
-/

namespace Csup.Attrs

/-! ## Masks -/

@[simp] theorem has_and (m m' : Mask) (a : Attr) : has (m &&& m') a = (has m a && has m' a) := by
  simp [has]

@[simp] theorem has_or (m m' : Mask) (a : Attr) : has (m ||| m') a = (has m a || has m' a) := by
  simp [has]

theorem idx_lt (a : Attr) : a.idx < 32 := by cases a <;> decide

theorem idx_inj {a b : Attr} (h : a.idx = b.idx) : a = b := by
  cases a <;> cases b <;> first | rfl | exact absurd h (by decide)

@[simp] theorem has_bit (a b : Attr) : has a.bit b = decide (a = b) := by
  by_cases h : a = b
  · subst h
    simp [has, Attr.bit, idx_lt]
  · have : a.idx ≠ b.idx := fun hi => h (idx_inj hi)
    simp [has, Attr.bit, BitVec.getLsbD_twoPow, h, this]

@[simp] theorem has_not (m : Mask) (a : Attr) : has (~~~m) a = !has m a := by
  simp [has, idx_lt]

/-! ## Pieces -/

theorem length_printRadix_lt {n : Nat} (h : n < 1000) : (printRadix 10 n).length ≤ 3 := by
  rw [printRadix]
  split
  · simp
  · rw [List.length_reverse, List.length_map, Nat.digits_length_le_iff (by decide)]
    exact h

/-- A text of up to 999 bytes is read back. -/
theorem scanPiece_piece {val : List Byte} (h : val.length < 1000) (rest : List Byte) :
    scanPiece (piece val ++ rest) = .ok (val, rest) := by
  have hlen : (printRadix 10 val.length).take 3 = printRadix 10 val.length :=
    List.take_of_length_le (length_printRadix_lt h)
  have hread : strtoul 10 (printRadix 10 val.length ++ 35 :: (val ++ rest)) =
      (val.length, 35 :: (val ++ rest), false) := by
    apply strtoul_printRadix (by decide) (by decide) (by omega)
    intro b hb
    obtain rfl : b = 35 := by simpa using hb.symm
    decide
  rw [piece, hlen, List.append_assoc, List.cons_append, scanPiece, hread]
  simp

theorem fattrScanattr_piece (ids : Ids) (fa : Fattr) (a : Attr) {val : List Byte}
    (h : val.length < 1000) (rest : List Byte) :
    fattrScanattr ids fa a (piece val ++ rest) = (scanValue ids fa val a).map (·, rest) := by
  rw [fattrScanattr, scanPiece_piece h]
  show (scanValue ids fa val a >>= fun fa => pure (fa, rest)) = _
  rcases scanValue ids fa val a with e | fa' <;> rfl

/-- Reading an attribute without the text around it. -/
def field (ids : Ids) (a : Attr) (val : List Byte) (fa : Fattr) : Except Stop Fattr :=
  if has fa.mask a then scanValue ids fa val a else .ok fa

theorem scanIf_pieceIf (ids : Ids) {fa : Fattr} {a : Attr} {b : Bool} (hb : b = has fa.mask a)
    {val : List Byte} (h : has fa.mask a = true → val.length < 1000) (rest : List Byte) :
    scanIf ids a (fa, pieceIf b val ++ rest) = (field ids a val fa).map (·, rest) := by
  subst hb
  unfold scanIf pieceIf field
  by_cases ha : has fa.mask a = true
  · simp only [ha, if_true]
    exact fattrScanattr_piece ids fa a (h ha) rest
  · simp only [ha]
    rfl

/-! ## Values -/

theorem length_printRadix_le (base n : Nat) (hb : 1 < base) (hn : n < 2 ^ 64) :
    (printRadix base n).length ≤ 64 := by
  rw [printRadix]
  split
  · simp
  · rw [List.length_reverse, List.length_map, Nat.digits_length_le_iff hb]
    calc n < 2 ^ 64 := hn
      _ ≤ base ^ 64 := Nat.pow_le_pow_left hb 64

theorem length_printInt_le (x : BitVec 64) : (printInt x.toInt).length ≤ 65 := by
  have h1 := BitVec.toInt_lt (x := x)
  have h2 := BitVec.le_toInt (x := x)
  rcases hx : x.toInt with n | n
  · have := length_printRadix_le 10 n (by decide) (by rw [hx] at h1; simp at h1; omega)
    simp only [printInt]
    omega
  · have := length_printRadix_le 10 (n + 1) (by decide) (by rw [hx] at h2; simp at h2; omega)
    simp only [printInt, List.length_cons]
    omega

theorem no_rest (base : Nat) :
    ∀ b ∈ ([] : List Byte).head?, isDigitIn base b = false ∧ b ≠ 120 ∧ b ≠ 88 := by
  intro b hb
  cases hb

/-- A decimal number is read back where the radix is 10. -/
theorem wholeInt_printInt (x : BitVec 64) : wholeInt 10 (printInt x.toInt) = .ok x.toInt := by
  have h1 := BitVec.toInt_lt (x := x)
  have h2 := BitVec.le_toInt (x := x)
  have h := strtoll_printInt (i := x.toInt) (by simpa [longMin] using h2)
    (by simp only [longMax]; simp at h1; omega) (no_rest 10)
  rw [List.append_nil] at h
  rw [wholeInt, h]

theorem wholeInt_printRadix {base n : Nat} (hb : 1 < base) (hb16 : base ≤ 16)
    (hn : (n : Int) ≤ longMax) : wholeInt base (printRadix base n) = .ok (n : Int) := by
  have h := strtoll_printRadix hb hb16 hn (no_rest base)
  rw [List.append_nil] at h
  rw [wholeInt, h]

theorem wholeNat_printRadix {base n : Nat} (hb : 1 < base) (hb16 : base ≤ 16) (hn : n < 2 ^ 64) :
    wholeNat base (printRadix base n) = .ok n := by
  have h := strtoul_printRadix hb hb16 hn (no_rest base)
  rw [List.append_nil] at h
  rw [wholeNat, h]

/-- `%llx` and `strtoll`: a number whose highest bit is set is out of range. -/
theorem wholeInt_dev (x : BitVec 64) :
    wholeInt 16 (printRadix 16 x.toNat) =
      if x.toNat < 2 ^ 63 then .ok (x.toNat : Int) else .error .bad := by
  split
  · exact wholeInt_printRadix (by decide) (by decide) (by simp only [longMax]; omega)
  · rename_i hx
    have h := scanInt_print (n := x.toNat) (by decide : 1 < 16) (Nat.le_refl 16) (by decide) false
      (no_rest 16)
    rw [valueIn_printRadix (by decide) (by decide), Nat.ofDigits_digits] at h
    simp only [Bool.false_eq_true, if_false, List.nil_append, List.append_nil] at h
    have hlt : longMax < (x.toNat : Int) := by simp only [longMax]; omega
    simp only [wholeInt, strtoll, h, Bool.false_eq_true, if_false, hlt, if_true]

theorem ofInt_eq_iff {i : Int} (h1 : longMin ≤ i) (h2 : i ≤ longMax) (x : BitVec 64) :
    BitVec.ofInt 64 i = x ↔ i = x.toInt := by
  have hi : (BitVec.ofInt 64 i).toInt = i := by
    apply BitVec.toInt_ofInt_eq_self (by decide)
    · simpa [longMin] using h1
    · simp only [longMax] at h2
      omega
  rw [← BitVec.toInt_inj, hi]

/-- A decimal number means itself where the radix is 16 iff it has one digit. -/
theorem wholeInt_hex_iff (x : BitVec 64) :
    (wholeInt 16 (printInt x.toInt)).map (BitVec.ofInt 64) = .ok x ↔ x.toInt.natAbs < 10 := by
  have hread (neg : Bool) (n : Nat) := scanInt_print (n := n) (by decide : 1 < 10)
    (by decide : 10 ≤ 16) (Nat.le_refl 16) neg (no_rest 16)
  have hself (n : Nat) := valueIn_printRadix_iff (n := n) (by decide : 1 < 10)
    (by decide : 10 < 16) (Nat.le_refl 16)
  have key (i : Int) (s : List Byte) (hs : strtoll 16 s =
      if longMax < i then (longMax, [], true) else if i < longMin then (longMin, [], true)
      else (i, [], false)) (hi : longMin ≤ x.toInt ∧ x.toInt ≤ longMax) :
      (wholeInt 16 s).map (BitVec.ofInt 64) = .ok x ↔ i = x.toInt := by
    rw [wholeInt, hs]
    split
    · rename_i heq
      split at heq
      · simp at heq
      · split at heq
        · simp at heq
        · rename_i h1 h2
          simp only [Prod.mk.injEq, and_true] at heq
          rw [← heq, Except.map, Except.ok.injEq]
          exact ofInt_eq_iff (by omega) (by omega) x
    · rename_i hne
      constructor
      · intro h
        simp [Except.map] at h
      · intro h
        refine absurd ?_ (hne i)
        rw [if_neg (by omega), if_neg (by omega)]
  have hx : longMin ≤ x.toInt ∧ x.toInt ≤ longMax := by
    have h1 := BitVec.toInt_lt (x := x)
    have h2 := BitVec.le_toInt (x := x)
    simp only [longMin, longMax]
    omega
  rcases hi : x.toInt with n | n
  · have h := hread false n
    simp only [Bool.false_eq_true, if_false, List.nil_append, List.append_nil] at h
    rw [key (valueIn 16 (printRadix 10 n)) _ (by simp [strtoll, printInt, h]) hx, hi]
    rw [show (Int.ofNat n) = (n : Int) from rfl, Int.natCast_inj, hself]
    simp
  · have h := hread true (n + 1)
    simp only [if_true, List.cons_append, List.nil_append, List.append_nil] at h
    rw [key (-(valueIn 16 (printRadix 10 (n + 1)) : Int)) _ (by simp [strtoll, printInt, h]) hx, hi]
    rw [show Int.negSucc n = -((n + 1 : Nat) : Int) from rfl, Int.neg_inj, Int.natCast_inj, hself]
    rw [Int.natAbs_neg, Int.natAbs_natCast]

end Csup.Attrs
