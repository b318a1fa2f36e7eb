import Mathlib.Data.Nat.Digits.Lemmas
import Mathlib.Order.Compare

/-!
# Numerals

A numeral is the list of its digits in a radix `b`, the highest digit first. Numerals that
do not begin with a zero (`IsNumeral`) are compared by their lengths, and where these are
the same by their digits (`compare_numeral`).
-/

namespace Csup.Framework

/-- The number that is written with these digits. -/
def numeral (b : Nat) (ds : List Nat) : Nat := Nat.ofDigits b ds.reverse

/-- Digits of a number: no zero in front of others. -/
structure IsNumeral (b : Nat) (ds : List Nat) : Prop where
  ne_nil : ds ≠ []
  digit : ∀ d ∈ ds, d < b
  zero : ds.head? = some 0 → ds = [0]

variable {b : Nat}

theorem numeral_cons (d : Nat) (ds : List Nat) :
    numeral b (d :: ds) = b ^ ds.length * d + numeral b ds := by
  simp [numeral, Nat.ofDigits_append, Nat.add_comm]

theorem numeral_lt {ds : List Nat} (hb : 1 < b) (h : ∀ d ∈ ds, d < b) :
    numeral b ds < b ^ ds.length := by
  have := Nat.ofDigits_lt_base_pow_length (l := ds.reverse) hb fun d hd => h d (by simpa using hd)
  simpa [numeral] using this

/-- The first digit of a numeral, and the number behind it. -/
theorem compare_mul_add {m d e v w : Nat} (hv : v < m) (hw : w < m) :
    compare (m * d + v) (m * e + w) = (compare d e).then (compare v w) := by
  rcases Nat.lt_trichotomy d e with hde | rfl | hde
  · rw [Nat.compare_eq_lt.mpr hde, Ordering.lt_then, Nat.compare_eq_lt]
    have := Nat.mul_le_mul_left m hde
    rw [Nat.mul_succ] at this
    omega
  · rw [Nat.compare_eq_eq.mpr rfl, Ordering.eq_then, Nat.compare_eq_ite_lt, Nat.compare_eq_ite_lt]
    simp
  · rw [Nat.compare_eq_gt.mpr hde, Ordering.gt_then, Nat.compare_eq_gt]
    have := Nat.mul_le_mul_left m hde
    rw [Nat.mul_succ] at this
    omega

/-- Numerals of the same length, by induction on them. -/
theorem compare_numeral_of_length {ds es : List Nat} (hb : 1 < b) (hlen : ds.length = es.length)
    (hd : ∀ d ∈ ds, d < b) (he : ∀ e ∈ es, e < b) :
    compare (numeral b ds) (numeral b es) = List.compareLex compare ds es := by
  induction ds generalizing es with
  | nil =>
    rw [List.eq_nil_of_length_eq_zero hlen.symm]
    rfl
  | cons d ds ih =>
    match es, hlen with
    | e :: es, hlen =>
      have hlen' : ds.length = es.length := Nat.succ.inj hlen
      have hd' : ∀ x ∈ ds, x < b := fun x hx => hd x (by simp [hx])
      have he' : ∀ x ∈ es, x < b := fun x hx => he x (by simp [hx])
      have hlt := numeral_lt hb he'
      rw [← hlen'] at hlt
      rw [numeral_cons, numeral_cons, ← hlen', List.compareLex_cons_cons, ← ih hlen' hd' he']
      exact compare_mul_add (numeral_lt hb hd') hlt

/-- A longer numeral that does not begin with a zero is greater. -/
theorem numeral_lt_of_length_lt {ds es : List Nat} (hb : 1 < b) (hd : IsNumeral b ds)
    (he : IsNumeral b es) (hlt : ds.length < es.length) : numeral b ds < numeral b es := by
  obtain ⟨e, es, rfl⟩ := List.exists_cons_of_ne_nil he.ne_nil
  have hpos := List.length_pos_iff.mpr hd.ne_nil
  have he0 : 0 < e := by
    refine Nat.pos_of_ne_zero fun h0 => ?_
    have hnil : es = [] := by simpa [h0] using he.zero (by simp [h0])
    simp only [hnil, List.length_cons, List.length_nil] at hlt
    omega
  have hle : ds.length ≤ es.length := by simpa using Nat.lt_succ_iff.mp hlt
  calc numeral b ds < b ^ ds.length := numeral_lt hb hd.digit
    _ ≤ b ^ es.length := Nat.pow_le_pow_right (by omega) hle
    _ ≤ b ^ es.length * e := Nat.le_mul_of_pos_right _ he0
    _ ≤ numeral b (e :: es) := by
      rw [numeral_cons]
      exact Nat.le_add_right _ _

/-- The longer numeral is greater, and where the lengths are the same the digits decide. -/
theorem compare_numeral {ds es : List Nat} (hb : 1 < b) (hd : IsNumeral b ds)
    (he : IsNumeral b es) : compare (numeral b ds) (numeral b es) =
      (compare ds.length es.length).then (List.compareLex compare ds es) := by
  rcases Nat.lt_trichotomy ds.length es.length with hlt | heq | hgt
  · rw [Nat.compare_eq_lt.mpr hlt, Nat.compare_eq_lt.mpr (numeral_lt_of_length_lt hb hd he hlt)]
    rfl
  · rw [Nat.compare_eq_eq.mpr heq, compare_numeral_of_length hb heq hd.digit he.digit]
    rfl
  · rw [Nat.compare_eq_gt.mpr hgt, Nat.compare_eq_gt.mpr (numeral_lt_of_length_lt hb he hd hgt)]
    rfl

end Csup.Framework
