import Csup.Base.Clib
import Mathlib.Data.Nat.Digits.Defs
import Mathlib.Data.List.TakeWhile

/-!
# Numbers in any radix

What the printing and the reading functions of the C library do in a radix up
to 16: `printRadix` is `%u`, `%x` or `%o`, `printInt` is `%lld`, `strtoll` and
`strtoul` read a number back.

* `strtoll_printInt`, `strtoll_printRadix`, `strtoul_printRadix`: a printed
  number is read back in its radix;
* `valueIn_printRadix_iff`: in a greater radix, only numbers of one digit are.
-/

namespace Csup

/-! ## Printing -/

def digitByte (d : Nat) : Byte := if d < 10 then (48 + d).toUInt8 else (87 + d).toUInt8

/-- A number in a radix, in lower case. -/
def printRadix (base n : Nat) : List Byte :=
  if n = 0 then [48] else ((Nat.digits base n).map digitByte).reverse

/-- `%lld` -/
def printInt : Int → List Byte
  | .ofNat n => printRadix 10 n
  | .negSucc n => 45 :: printRadix 10 (n + 1)

/-! ## Reading -/

def digitVal (b : Byte) : Option Nat :=
  if 48 ≤ b ∧ b ≤ 57 then some (b.toNat - 48)
  else if 97 ≤ b ∧ b ≤ 122 then some (b.toNat - 87)
  else if 65 ≤ b ∧ b ≤ 90 then some (b.toNat - 55)
  else none

def isDigitIn (base : Nat) (b : Byte) : Bool :=
  match digitVal b with
  | some v => v < base
  | none => false

def valueIn (base : Nat) (ds : List Byte) : Nat :=
  ds.foldl (fun v d => base * v + (digitVal d).getD 0) 0

/-- The digits behind an optional `0x`. -/
def skipPrefix (base : Nat) (u : List Byte) : List Byte :=
  match u with
  | 48 :: x :: d :: t =>
    if base = 16 ∧ (x = 120 ∨ x = 88) ∧ isDigitIn 16 d = true then d :: t else u
  | _ => u

/-- White space, a sign and digits: the sign, the value and the rest; `none`
when there is no digit. -/
def scanInt (base : Nat) (s : List Byte) : Option (Bool × Nat × List Byte) :=
  let u := s.dropWhile isspace
  let neg : Bool := u.head? = some 45
  let u := skipPrefix base (if neg || u.head? = some 43 then u.tail else u)
  if u.takeWhile (isDigitIn base) = [] then none
  else some (neg, valueIn base (u.takeWhile (isDigitIn base)), u.dropWhile (isDigitIn base))

/-- `strtoll`, and `strtol` where a `long` has 64 bits: the value, what `end`
points to, and whether `errno` is set. -/
def strtoll (base : Nat) (s : List Byte) : Int × List Byte × Bool :=
  match scanInt base s with
  | none => (0, s, false)
  | some (neg, v, rest) =>
    let i : Int := if neg then -(v : Int) else v
    if longMax < i then (longMax, rest, true)
    else if i < longMin then (longMin, rest, true)
    else (i, rest, false)

/-- `strtoul` -/
def strtoul (base : Nat) (s : List Byte) : Nat × List Byte × Bool :=
  match scanInt base s with
  | none => (0, s, false)
  | some (neg, v, rest) =>
    if 2 ^ 64 ≤ v then (2 ^ 64 - 1, rest, true)
    else (if neg then (2 ^ 64 - v) % 2 ^ 64 else v, rest, false)

/-! ## Digits -/

theorem digitVal_digitByte {d : Nat} (h : d < 16) : digitVal (digitByte d) = some d := by
  have : ∀ d < 16, digitVal (digitByte d) = some d := by decide
  exact this d h

/-- A digit is no sign, no blank and no `x`. -/
theorem digitByte_ne {d : Nat} (h : d < 16) :
    isspace (digitByte d) = false ∧ digitByte d ≠ 45 ∧ digitByte d ≠ 43 ∧ digitByte d ≠ 120 ∧
      digitByte d ≠ 88 := by
  have : ∀ d < 16, isspace (digitByte d) = false ∧ digitByte d ≠ 45 ∧ digitByte d ≠ 43 ∧
      digitByte d ≠ 120 ∧ digitByte d ≠ 88 := by decide
  exact this d h

theorem isDigitIn_digitByte {base d : Nat} (hd : d < base) (hb : base ≤ 16) :
    isDigitIn base (digitByte d) = true := by
  simp [isDigitIn, digitVal_digitByte (show d < 16 by omega), hd]

theorem printRadix_ne_nil (base n : Nat) : printRadix base n ≠ [] := by
  rw [printRadix]
  split
  · simp
  · rename_i hn
    simpa [Nat.digits_ne_nil_iff_ne_zero] using hn

/-- The bytes of a number are digits. -/
theorem exists_digit {base n : Nat} (hb : 1 < base) {b : Byte} (h : b ∈ printRadix base n) :
    ∃ d < base, b = digitByte d := by
  rw [printRadix] at h
  split at h
  · exact ⟨0, by omega, show b = 48 by simpa using h⟩
  · simp only [List.mem_reverse, List.mem_map] at h
    obtain ⟨d, hd, rfl⟩ := h
    exact ⟨d, Nat.digits_lt_base hb hd, rfl⟩

theorem isDigitIn_of_mem {base base' n : Nat} (hb : 1 < base) (hbb : base ≤ base')
    (hb' : base' ≤ 16) : ∀ b ∈ printRadix base n, isDigitIn base' b = true := by
  intro b h
  obtain ⟨d, hd, rfl⟩ := exists_digit hb h
  exact isDigitIn_digitByte (by omega) hb'

/-! ## Values -/

theorem foldl_digits (base : Nat) {ds : List Nat} (h : ∀ d ∈ ds, d < 16) :
    (ds.map digitByte).reverse.foldl (fun v d => base * v + (digitVal d).getD 0) 0 =
      Nat.ofDigits base ds := by
  induction ds with
  | nil => rfl
  | cons d ds ih =>
    rw [List.map_cons, List.reverse_cons, List.foldl_append, ih fun d hd => h d (by simp [hd]),
      Nat.ofDigits_cons]
    simp only [List.foldl_cons, List.foldl_nil, digitVal_digitByte (h d (by simp)),
      Option.getD_some]
    omega

/-- A number printed in one radix, read in another. -/
theorem valueIn_printRadix {base : Nat} (hb : 1 < base) (hb16 : base ≤ 16) (base' n : Nat) :
    valueIn base' (printRadix base n) = Nat.ofDigits base' (Nat.digits base n) := by
  rw [valueIn, printRadix]
  split
  · rename_i hn
    have h0 : (digitVal 48).getD 0 = 0 := by decide
    simp [hn, h0]
  · exact foldl_digits base' fun d hd => Nat.lt_of_lt_of_le (Nat.digits_lt_base hb hd) hb16

theorem ofDigits_digits_gt {base base' n : Nat} (hb : 1 < base) (hlt : base < base')
    (hn : base ≤ n) : n < Nat.ofDigits base' (Nat.digits base n) := by
  have hge : ∀ m, m ≤ Nat.ofDigits base' (Nat.digits base m) := by
    intro m
    have := Nat.ofDigits_monotone (Nat.digits base m) (Nat.le_of_lt hlt)
    rwa [Nat.ofDigits_digits] at this
  rw [Nat.digits_def' hb (by omega), Nat.ofDigits_cons]
  have hq : 0 < n / base := Nat.div_pos hn (by omega)
  have hmod := Nat.div_add_mod n base
  calc n = n % base + base * (n / base) := by omega
    _ < n % base + base' * (n / base) := by
      exact Nat.add_lt_add_left (Nat.mul_lt_mul_of_pos_right hlt hq) _
    _ ≤ n % base + base' * Nat.ofDigits base' (Nat.digits base (n / base)) :=
      Nat.add_le_add_left (Nat.mul_le_mul_left _ (hge _)) _

/-- In a greater radix a number means itself iff it has one digit. -/
theorem valueIn_printRadix_iff {base base' n : Nat} (hb : 1 < base) (hlt : base < base')
    (hb' : base' ≤ 16) : valueIn base' (printRadix base n) = n ↔ n < base := by
  rw [valueIn_printRadix hb (by omega)]
  constructor
  · intro h
    by_contra hn
    have := ofDigits_digits_gt hb hlt (by omega : base ≤ n)
    omega
  · intro hn
    by_cases h0 : n = 0
    · simp [h0]
    · rw [Nat.digits_of_lt base n h0 hn]
      simp

/-! ## Reading back -/

theorem takeWhile_digits {base base' n : Nat} (hb : 1 < base) (hbb : base ≤ base')
    (hb' : base' ≤ 16) {rest : List Byte} (hr : ∀ b ∈ rest.head?, isDigitIn base' b = false) :
    (printRadix base n ++ rest).takeWhile (isDigitIn base') = printRadix base n ∧
      (printRadix base n ++ rest).dropWhile (isDigitIn base') = rest := by
  have hd := isDigitIn_of_mem (n := n) hb hbb hb'
  rw [List.takeWhile_append_of_pos hd, List.dropWhile_append_of_pos hd]
  match rest with
  | [] => simp
  | b :: rest => simp [hr b (by simp)]

theorem skipPrefix_print (base' : Nat) {base n : Nat} (hb : 1 < base) (hb16 : base ≤ 16)
    {rest : List Byte} (hr : ∀ b ∈ rest.head?, b ≠ 120 ∧ b ≠ 88) :
    skipPrefix base' (printRadix base n ++ rest) = printRadix base n ++ rest := by
  unfold skipPrefix
  split
  · rename_i x d t heq
    have hx : x ≠ 120 ∧ x ≠ 88 := by
      match hp : printRadix base n with
      | [] => exact absurd hp (printRadix_ne_nil base n)
      | [b] =>
        rw [hp] at heq
        simp only [List.cons_append, List.nil_append, List.cons.injEq] at heq
        exact hr x (by simp [heq.2])
      | b :: b' :: bs =>
        rw [hp] at heq
        simp only [List.cons_append, List.cons.injEq] at heq
        obtain ⟨e, he, rfl⟩ := exists_digit hb (show b' ∈ printRadix base n by simp [hp])
        rw [← heq.2.1]
        exact (digitByte_ne (by omega)).2.2.2
    simp [hx]
  · rfl

/-- A number that was printed in `base`, behind an optional minus, read in
`base'`. -/
theorem scanInt_print {base base' n : Nat} (hb : 1 < base) (hbb : base ≤ base') (hb' : base' ≤ 16)
    (neg : Bool) {rest : List Byte}
    (hr : ∀ b ∈ rest.head?, isDigitIn base' b = false ∧ b ≠ 120 ∧ b ≠ 88) :
    scanInt base' ((if neg then [45] else []) ++ printRadix base n ++ rest) =
      some (neg, valueIn base' (printRadix base n), rest) := by
  obtain ⟨c, cs, hc⟩ := List.exists_cons_of_ne_nil (printRadix_ne_nil base n)
  obtain ⟨d, hd, rfl⟩ := exists_digit hb (show c ∈ printRadix base n by simp [hc])
  obtain ⟨hsp, h45, h43, -⟩ := digitByte_ne (d := d) (by omega)
  obtain ⟨htake, hdrop⟩ := takeWhile_digits (n := n) hb hbb hb' (fun b h => (hr b h).1)
  have hskip := skipPrefix_print base' (n := n) hb (by omega) (fun b h => (hr b h).2)
  have hdw : ((if neg then [45] else []) ++ printRadix base n ++ rest).dropWhile isspace =
      (if neg then [45] else []) ++ printRadix base n ++ rest := by
    cases neg
    · simp [hc, hsp]
    · simp [isspace]
  have hhead : (((if neg then [45] else []) ++ printRadix base n ++ rest).head? = some 45) ↔
      neg = true := by
    cases neg <;> simp [hc, h45]
  have htail : (if neg || (((if neg then [45] else []) ++ printRadix base n ++ rest).head? = some 43)
      then ((if neg then [45] else []) ++ printRadix base n ++ rest).tail
      else (if neg then [45] else []) ++ printRadix base n ++ rest) = printRadix base n ++ rest := by
    cases neg <;> simp [hc, h43]
  simp only [scanInt, hdw, hhead, Bool.decide_eq_true, htail, hskip, htake, hdrop,
    if_neg (printRadix_ne_nil base n)]

theorem strtoll_printInt {i : Int} (hlo : longMin ≤ i) (hhi : i ≤ longMax) {rest : List Byte}
    (hr : ∀ b ∈ rest.head?, isDigitIn 10 b = false ∧ b ≠ 120 ∧ b ≠ 88) :
    strtoll 10 (printInt i ++ rest) = (i, rest, false) := by
  have hval : ∀ n, valueIn 10 (printRadix 10 n) = n := fun n => by
    rw [valueIn_printRadix (by decide) (by decide), Nat.ofDigits_digits]
  rcases i with n | n
  · have h := scanInt_print (n := n) (by decide : 1 < 10) (Nat.le_refl 10) (by decide) false hr
    simp only [hval, Bool.false_eq_true, if_false, List.nil_append] at h
    simp only [strtoll, printInt, h, Bool.false_eq_true, if_false]
    rw [if_neg (by simpa using hhi), if_neg (by simpa using hlo)]
    rfl
  · have h := scanInt_print (n := n + 1) (by decide : 1 < 10) (Nat.le_refl 10) (by decide) true hr
    simp only [hval, if_true, List.cons_append, List.nil_append] at h
    have hneg : -((n + 1 : Nat) : Int) = Int.negSucc n := rfl
    simp only [strtoll, printInt, List.cons_append, h, if_true, hneg]
    rw [if_neg (by omega), if_neg (by omega)]

theorem strtoll_printRadix {base n : Nat} (hb : 1 < base) (hb16 : base ≤ 16)
    (hn : (n : Int) ≤ longMax) {rest : List Byte}
    (hr : ∀ b ∈ rest.head?, isDigitIn base b = false ∧ b ≠ 120 ∧ b ≠ 88) :
    strtoll base (printRadix base n ++ rest) = ((n : Int), rest, false) := by
  have h := scanInt_print (n := n) hb (Nat.le_refl base) hb16 false hr
  rw [valueIn_printRadix hb hb16, Nat.ofDigits_digits] at h
  simp only [Bool.false_eq_true, if_false, List.nil_append] at h
  have hlo : ¬ ((n : Int) < longMin) := by simp only [longMin]; omega
  simp only [strtoll, h, Bool.false_eq_true, if_false]
  rw [if_neg (by omega), if_neg hlo]

theorem strtoul_printRadix {base n : Nat} (hb : 1 < base) (hb16 : base ≤ 16) (hn : n < 2 ^ 64)
    {rest : List Byte} (hr : ∀ b ∈ rest.head?, isDigitIn base b = false ∧ b ≠ 120 ∧ b ≠ 88) :
    strtoul base (printRadix base n ++ rest) = (n, rest, false) := by
  have h := scanInt_print (n := n) hb (Nat.le_refl base) hb16 false hr
  rw [valueIn_printRadix hb hb16, Nat.ofDigits_digits] at h
  simp only [Bool.false_eq_true, if_false, List.nil_append] at h
  simp only [strtoul, h, Bool.false_eq_true, if_false]
  rw [if_neg (by omega)]

end Csup
