import Csup.Base.Radix
import Csup.Base.Revnum
import Csup.Framework.Numeral

/-!
# Revision numbers as numbers

`rcsnum_cmp` on the strings, with the lengths of the parts in `int`s (`rcsnumCmpInt`). Where
these can hold the lengths it is `rcsnumCmp` (`rcsnumCmpInt_eq`), and the numbers are in the
order of the lists of their components' values (`rcsnumCmpInt_numeric`).
-/

namespace Csup

open Csup.Framework

/-! ## The C function -/

/-- `strncmp`, on strings without the NUL at their end. -/
def strncmpN : List Byte → List Byte → Nat → Ordering
  | _, _, 0 => .eq
  | [], [], _ + 1 => .eq
  | [], _ :: _, _ + 1 => .lt
  | _ :: _, [], _ + 1 => .gt
  | a :: as, b :: bs, n + 1 => if a < b then .lt else if b < a then .gt else strncmpN as bs n

/-- `dot1 - ptr1` -/
def numlen (ptr : List Byte) : BitVec 32 := BitVec.ofNat 32 (ptr.takeWhile (· ≠ dot)).length

/-- `dot1 + 1`, or `dot1` at the end of the string. -/
def behindDot (ptr : List Byte) : List Byte := (ptr.dropWhile (· ≠ dot)).tail

theorem behindDot_length_lt (c : Byte) (ptr : List Byte) :
    (behindDot (c :: ptr)).length < (c :: ptr).length := by
  have := (List.dropWhile_sublist (· ≠ dot) (l := c :: ptr)).length_le
  simp only [behindDot, List.length_tail, List.length_cons] at this ⊢
  omega

/-- `rcsnum_cmp` -/
def rcsnumCmpInt : Revnum → Revnum → Ordering
  | [], [] => .eq
  | _ :: _, [] => .gt
  | [], _ :: _ => .lt
  | c :: ptr1, d :: ptr2 =>
    let num1len := numlen (c :: ptr1)
    let num2len := numlen (d :: ptr2)
    if num2len.toInt < num1len.toInt then .gt
    else if num1len.toInt < num2len.toInt then .lt
    -- the length is converted to a `size_t`
    else match strncmpN (c :: ptr1) (d :: ptr2) (num1len.signExtend 64).toNat with
      | .eq => rcsnumCmpInt (behindDot (c :: ptr1)) (behindDot (d :: ptr2))
      | ret => ret
termination_by ptr1 => ptr1.length
decreasing_by exact behindDot_length_lt c ptr1

/-! ## Parts that an `int` can count -/

/-- The parts of a number are shorter than 2^31 bytes. -/
def Short (r : Revnum) : Prop :=
  ∀ part ∈ splitLines dot r, (part.takeWhile (· ≠ dot)).length < 2 ^ 31

theorem toInt_numlen {ptr : List Byte} (h : (ptr.takeWhile (· ≠ dot)).length < 2 ^ 31) :
    (numlen ptr).toInt = (ptr.takeWhile (· ≠ dot)).length := by
  rw [numlen, BitVec.toInt_eq_toNat_cond, BitVec.toNat_ofNat, Nat.mod_eq_of_lt (by omega),
    if_pos (by omega)]

theorem toNat_numlen {ptr : List Byte} (h : (ptr.takeWhile (· ≠ dot)).length < 2 ^ 31) :
    ((numlen ptr).signExtend 64).toNat = (ptr.takeWhile (· ≠ dot)).length := by
  have hint := toInt_numlen h
  have hext : ((numlen ptr).signExtend 64).toInt = (numlen ptr).toInt :=
    BitVec.toInt_signExtend_of_le (by decide)
  rw [hint, BitVec.toInt_eq_toNat_cond] at hext
  split at hext <;> omega

/-- Only the first bytes matter, as many as are compared. -/
theorem strncmpN_append {as bs : List Byte} (s t : List Byte) (h : as.length = bs.length) :
    strncmpN (as ++ s) (bs ++ t) as.length = strncmp as bs := by
  induction as generalizing bs with
  | nil =>
    rw [List.eq_nil_of_length_eq_zero h.symm]
    simp [strncmpN, strncmp]
  | cons a as ih =>
    obtain ⟨b, bs, rfl⟩ := List.exists_cons_of_length_eq_add_one h.symm
    simp only [List.cons_append, List.length_cons, strncmpN, strncmp, ih (Nat.succ.inj h)]

/-- The first part of a number. -/
theorem splitLines_dot {r : Revnum} (h : r ≠ []) :
    ∃ part, splitLines dot r = part :: splitLines dot (behindDot r) ∧
      part.takeWhile (· ≠ dot) = r.takeWhile (· ≠ dot) := by
  unfold behindDot
  rcases dropWhile_dot r with ⟨hd, hr⟩ | ⟨a, t, ha, hr, hd⟩
  · exact ⟨r, by rw [hd, splitLines_of_notMem hr h]; rfl, rfl⟩
  · refine ⟨a ++ [dot], by rw [hd, hr, splitLines_append_full ha]; rfl, ?_⟩
    have hpos : ∀ x ∈ a, decide (x ≠ dot) = true := fun x hx => by
      simpa using fun h0 : x = dot => ha (h0 ▸ hx)
    rw [hr, List.takeWhile_append_of_pos hpos, List.takeWhile_append_of_pos hpos]
    simp

/-- As many bytes are compared as the parts have. -/
theorem strncmpN_numlen {r s : Revnum} (hr : (r.takeWhile (· ≠ dot)).length < 2 ^ 31)
    (h : (r.takeWhile (· ≠ dot)).length = (s.takeWhile (· ≠ dot)).length) :
    strncmpN r s ((numlen r).signExtend 64).toNat =
      strncmp (r.takeWhile (· ≠ dot)) (s.takeWhile (· ≠ dot)) := by
  rw [toNat_numlen hr, ← strncmpN_append (r.dropWhile (· ≠ dot)) (s.dropWhile (· ≠ dot)) h,
    List.takeWhile_append_dropWhile, List.takeWhile_append_dropWhile]

/-- The comparison of numbers, by induction on the parts. -/
theorem rcsnumCmpInt_eq {a b : Revnum} (ha : Short a) (hb : Short b) :
    rcsnumCmpInt a b = rcsnumCmp a b := by
  unfold rcsnumCmp
  induction hn : a.length using Nat.strong_induction_on generalizing a b with
  | _ n ih =>
    rcases a with - | ⟨c, a⟩ <;> rcases b with - | ⟨d, b⟩
    · simp [rcsnumCmpInt, splitLines, rcsnumCmpParts]
    · obtain ⟨part, hpart, -⟩ := splitLines_dot (List.cons_ne_nil d b)
      rw [hpart, rcsnumCmpInt]
      rfl
    · obtain ⟨part, hpart, -⟩ := splitLines_dot (List.cons_ne_nil c a)
      rw [hpart, rcsnumCmpInt]
      rfl
    · obtain ⟨part, hpart, hnum⟩ := splitLines_dot (List.cons_ne_nil c a)
      obtain ⟨part', hpart', hnum'⟩ := splitLines_dot (List.cons_ne_nil d b)
      unfold Short at ha hb
      rw [hpart, List.forall_mem_cons, hnum] at ha
      rw [hpart', List.forall_mem_cons, hnum'] at hb
      have hrest := ih _ (hn ▸ behindDot_length_lt c a) ha.2 hb.2 rfl
      rw [hpart, hpart', rcsnumCmpInt, rcsnumCmpParts, hnum, hnum', toInt_numlen ha.1,
        toInt_numlen hb.1]
      simp only [Int.ofNat_lt]
      split
      · rfl
      split
      · rfl
      have hpartCmp := strncmpN_numlen (r := c :: a) (s := d :: b) ha.1 (by omega)
      cases hres : strncmp ((c :: a).takeWhile (· ≠ dot)) ((d :: b).takeWhile (· ≠ dot)) <;>
        simp only [hpartCmp, hres, hrest]

/-! ## Numbers -/

/-- A component of a number: digits, with no zero in front of others. -/
structure NumPart where
  val : List Byte
  ne_nil : val ≠ []
  digit : ∀ c ∈ val, 48 ≤ c ∧ c ≤ 57
  zero : val.head? = some 48 → val = [48]

def NumPart.value (p : NumPart) : Nat := valueIn 10 p.val

/-- Each component behind a dot. -/
def dotted (ps : List NumPart) : List Byte := ps.flatMap (dot :: ·.val)

/-- The components with dots between them. -/
def numText : List NumPart → Revnum
  | [] => []
  | p :: ps => p.val ++ dotted ps

/-- The value of a digit. -/
def digitNat (c : Byte) : Nat := (digitVal c).getD 0

theorem digitNat_eq {c : Byte} (h : 48 ≤ c ∧ c ≤ 57) : digitNat c = c.toNat - 48 := by
  rw [digitNat, digitVal, if_pos h]
  rfl

theorem toNat_digit {c : Byte} (h : 48 ≤ c ∧ c ≤ 57) : 48 ≤ c.toNat ∧ c.toNat ≤ 57 :=
  ⟨UInt8.le_iff_toNat_le.mp h.1, UInt8.le_iff_toNat_le.mp h.2⟩

theorem valueIn_eq (base : Nat) (ds : List Byte) :
    valueIn base ds = numeral base (ds.map digitNat) := by
  rw [numeral, Nat.ofDigits_eq_foldr, List.foldr_reverse, List.foldl_map, valueIn]
  simp only [digitNat, Nat.cast_id, Nat.add_comm]

theorem NumPart.isNumeral (p : NumPart) : IsNumeral 10 (p.val.map digitNat) where
  ne_nil := by simpa using p.ne_nil
  digit := by
    intro d hd
    obtain ⟨c, hc, rfl⟩ := List.mem_map.mp hd
    have := toNat_digit (p.digit c hc)
    rw [digitNat_eq (p.digit c hc)]
    omega
  zero := by
    intro h
    obtain ⟨c, cs, hcs⟩ := List.exists_cons_of_ne_nil p.ne_nil
    have hc := p.digit c (by simp [hcs])
    have h48 : c = 48 := by
      have hlo := toNat_digit hc
      have h0 : digitNat c = 0 := by simpa [hcs] using h
      rw [digitNat_eq hc] at h0
      exact UInt8.toNat_inj.mp (show c.toNat = 48 by omega)
    rw [p.zero (by simp [hcs, h48])]
    rfl

theorem compareLex_digitNat {as bs : List Byte} (ha : ∀ c ∈ as, 48 ≤ c ∧ c ≤ 57)
    (hb : ∀ c ∈ bs, 48 ≤ c ∧ c ≤ 57) :
    List.compareLex compare (as.map digitNat) (bs.map digitNat) = List.compareLex compare as bs := by
  induction as generalizing bs with
  | nil => cases bs <;> rfl
  | cons a as ih =>
    match bs with
    | [] => rfl
    | b :: bs =>
      have hal := toNat_digit (ha a (by simp))
      have hbl := toNat_digit (hb b (by simp))
      have hdigit : compare (digitNat a) (digitNat b) = compare a b := by
        rw [digitNat_eq (ha a (by simp)), digitNat_eq (hb b (by simp))]
        show compareOfLessAndEq _ _ = compareOfLessAndEq a b
        unfold compareOfLessAndEq
        simp only [UInt8.lt_iff_toNat_lt, ← UInt8.toNat_inj]
        split_ifs <;> first | rfl | omega
      rw [List.map_cons, List.map_cons, List.compareLex_cons_cons, List.compareLex_cons_cons,
        hdigit, ih (fun c h => ha c (by simp [h])) fun c h => hb c (by simp [h])]

/-- Components are in the order of their values. -/
theorem partCmp_eq (p q : NumPart) : partCmp p.val q.val = compare p.value q.value := by
  have h := compare_numeral (by decide) p.isNumeral q.isNumeral
  rw [← valueIn_eq, ← valueIn_eq, List.length_map, List.length_map,
    compareLex_digitNat p.digit q.digit] at h
  exact h.symm

theorem NumPart.dot_notMem (p : NumPart) : dot ∉ p.val := fun h =>
  absurd (p.digit dot h).1 (by decide)

theorem takeWhile_part (p : NumPart) {s : List Byte} (hs : ∀ c ∈ s.head?, c = dot) :
    (p.val ++ s).takeWhile (· ≠ dot) = p.val := by
  have hpos : ∀ x ∈ p.val, decide (x ≠ dot) = true := fun x hx => by
    simpa using fun h0 : x = dot => p.dot_notMem (h0 ▸ hx)
  rw [List.takeWhile_append_of_pos hpos]
  match s with
  | [] => simp
  | c :: s =>
    obtain rfl := hs c rfl
    simp

/-- The parts of a number are its components, with their dots. -/
theorem splitLines_numText (ps : List NumPart) :
    (splitLines dot (numText ps)).map (List.takeWhile (· ≠ dot)) = ps.map NumPart.val := by
  have htake (p : NumPart) := takeWhile_part p (s := [dot]) (by simp)
  induction ps with
  | nil => rfl
  | cons p ps ih =>
    rcases ps with - | ⟨q, ps⟩
    · have := takeWhile_part p (s := []) (by simp)
      rw [numText, dotted, List.flatMap_nil, List.append_nil,
        splitLines_of_notMem p.dot_notMem p.ne_nil]
      simpa using this
    · have htext : numText (p :: q :: ps) = p.val ++ dot :: numText (q :: ps) := by
        simp [numText, dotted]
      rw [htext, splitLines_append_full p.dot_notMem, List.map_cons, ih, htake]
      rfl

/-- The components of a number have less than 2^31 digits. -/
def ShortParts (ps : List NumPart) : Prop := ∀ p ∈ ps, p.val.length < 2 ^ 31

theorem ShortParts.short {ps : List NumPart} (h : ShortParts ps) : Short (numText ps) := by
  intro part hpart
  have hmem : part.takeWhile (· ≠ dot) ∈ ps.map NumPart.val := by
    rw [← splitLines_numText]
    exact List.mem_map_of_mem hpart
  obtain ⟨p, hp, heq⟩ := List.mem_map.mp hmem
  rw [← heq]
  exact h p hp

/-! ## The numeric order -/

theorem compareLex_map {α β : Type*} (f : α → β) (cmp : β → β → Ordering) (as bs : List α) :
    List.compareLex cmp (as.map f) (bs.map f) =
      List.compareLex (fun a b => cmp (f a) (f b)) as bs := by
  induction as generalizing bs with
  | nil => cases bs <;> rfl
  | cons a as ih =>
    match bs with
    | [] => rfl
    | b :: bs =>
      rw [List.map_cons, List.map_cons, List.compareLex_cons_cons, List.compareLex_cons_cons, ih]

/-- The lists of values, a list below its continuations. -/
def compareValues (a b : List NumPart) : Ordering :=
  List.compareLex compare (a.map NumPart.value) (b.map NumPart.value)

theorem rcsnumCmpInt_numText {a b : List NumPart} (ha : ShortParts a) (hb : ShortParts b) :
    rcsnumCmpInt (numText a) (numText b) = compareValues a b := by
  rw [rcsnumCmpInt_eq ha.short hb.short, rcsnumCmp, rcsnumCmpParts_eq, compareValues,
    ← compareLex_map (List.takeWhile (· ≠ dot)) partCmp, splitLines_numText, splitLines_numText,
    compareLex_map, compareLex_map]
  simp only [partCmp_eq]

theorem NumPart.eq_of_value {p q : NumPart} (h : p.value = q.value) : p = q := by
  have hcmp := partCmp_eq p q
  rw [Nat.compare_eq_eq.mpr h] at hcmp
  have hval : List.compareLex compare p.val q.val = .eq := (Ordering.then_eq_eq.mp hcmp).2
  rcases p with ⟨p, _, _, _⟩
  rcases q with ⟨q, _, _, _⟩
  simpa using Std.LawfulEqCmp.eq_of_compare hval

theorem compareValues_eq_iff {a b : List NumPart} : compareValues a b = .eq ↔ a = b := by
  have hinj : Function.Injective NumPart.value := fun p q => NumPart.eq_of_value
  rw [compareValues, Std.LawfulEqCmp.compare_eq_iff_eq]
  exact (List.map_injective_iff.mpr hinj).eq_iff

/-- `rcsnum_cmp` is the numeric order of numbers whose components have less than 2^31 digits:
it compares the lists of the values, so that it is a total order, and the numbers that it
takes for the same are. -/
theorem rcsnumCmpInt_numeric {a b : List NumPart} (ha : ShortParts a) (hb : ShortParts b) :
    rcsnumCmpInt (numText a) (numText b) = compareValues a b ∧
      rcsnumCmpInt (numText a) (numText b) = (rcsnumCmpInt (numText b) (numText a)).swap ∧
      (rcsnumCmpInt (numText a) (numText b) = .eq ↔ a = b) ∧
      ∀ c, ShortParts c → rcsnumCmpInt (numText a) (numText b) ≠ .gt →
        rcsnumCmpInt (numText b) (numText c) ≠ .gt → rcsnumCmpInt (numText a) (numText c) ≠ .gt := by
  refine ⟨rcsnumCmpInt_numText ha hb, ?_, ?_, fun c hc hab hbc => ?_⟩
  · rw [rcsnumCmpInt_eq ha.short hb.short, rcsnumCmpInt_eq hb.short ha.short]
    exact rcsnumCmp_swap _ _
  · rw [rcsnumCmpInt_numText ha hb]
    exact compareValues_eq_iff
  · rw [rcsnumCmpInt_eq ha.short hb.short] at hab
    rw [rcsnumCmpInt_eq hb.short hc.short] at hbc
    rw [rcsnumCmpInt_eq ha.short hc.short]
    exact rcsnumCmp_trans hab hbc

/-- The component 10. -/
def ten : NumPart := ⟨[49, 48], by decide, by simp, by decide⟩

/-- The component 9. -/
def nine : NumPart := ⟨[57], by decide, by simp, by decide⟩

/-- The number 9.9 is below 9.10, and this is below 9.10.9. -/
theorem rcsnumCmpInt_numeric_nine :
    rcsnumCmpInt (numText [nine, nine]) (numText [nine, ten]) = .lt ∧
      rcsnumCmpInt (numText [nine, nine]) (numText [nine, ten, nine]) ≠ .gt := by
  have hshort (p : NumPart) (h : p = nine ∨ p = ten) : p.val.length < 2 ^ 31 := by
    rcases h with rfl | rfl <;> decide
  have h1 : ShortParts [nine, nine] := fun p hp => hshort p (by simp_all)
  have h2 : ShortParts [nine, ten] := fun p hp => hshort p (by simp_all)
  have h3 : ShortParts [nine, ten, nine] := fun p hp => hshort p (by simp_all; tauto)
  obtain ⟨h12, -, -, htrans⟩ := rcsnumCmpInt_numeric h1 h2
  obtain ⟨h23, -⟩ := rcsnumCmpInt_numeric h2 h3
  have hlt : rcsnumCmpInt (numText [nine, nine]) (numText [nine, ten]) = .lt := h12.trans (by decide)
  refine ⟨hlt, htrans _ h3 (by rw [hlt]; decide) ?_⟩
  rw [h23]
  decide

/-! ## Parts that an `int` cannot count -/

/-- A component of ones. -/
def ones (n : Nat) : NumPart where
  val := List.replicate (n + 1) 49
  ne_nil := by simp
  digit := by
    intro c hc
    rw [List.eq_of_mem_replicate hc]
    decide
  zero := by simp [List.replicate_succ]

theorem numText_ones (n : Nat) : numText [ones n] = 49 :: List.replicate n 49 := by
  simp [numText, dotted, ones, List.replicate_succ]

theorem takeWhile_ones (n : Nat) :
    (numText [ones n]).takeWhile (· ≠ dot) = numText [ones n] ∧ behindDot (numText [ones n]) = [] := by
  have htake := takeWhile_part (ones n) (s := []) (by simp)
  have hdrop := List.takeWhile_append_dropWhile (p := (· ≠ dot)) (l := (ones n).val)
  rw [List.append_nil] at htake
  rw [htake, List.append_right_eq_self] at hdrop
  simp only [numText, dotted, List.flatMap_nil, List.append_nil, behindDot, htake, hdrop,
    List.tail_nil, and_self]

/-- Components are taken for as long where their lengths differ by 2^32. -/
theorem rcsnumCmpInt_ones {n : Nat} (h : (n + 1) % 2 ^ 32 = 1) :
    rcsnumCmpInt (numText [ones n]) (numText [ones 0]) = .eq := by
  have hlen (m : Nat) (hm : (m + 1) % 2 ^ 32 = 1) : numlen (numText [ones m]) = 1 := by
    rw [numlen, (takeWhile_ones m).1, numText_ones, List.length_cons, List.length_replicate]
    exact BitVec.eq_of_toNat_eq (by simpa using hm)
  have hn := hlen n h
  have h0 := hlen 0 (by decide)
  have hbehind := (takeWhile_ones n).2
  have hbehind0 := (takeWhile_ones 0).2
  rw [numText_ones] at hn h0 hbehind hbehind0 ⊢
  rw [numText_ones, rcsnumCmpInt, hn, h0, hbehind, hbehind0]
  simp [strncmpN, rcsnumCmpInt]

/-- Without the bound on the components the order is not the numeric one. -/
theorem not_numeric :
    ¬ ∀ a b : List NumPart, rcsnumCmpInt (numText a) (numText b) = compareValues a b := by
  intro h
  have heq := rcsnumCmpInt_ones (n := 2 ^ 32) (by decide)
  rw [h, compareValues_eq_iff, List.cons.injEq] at heq
  have hlen := congrArg (fun p : NumPart => p.val.length) heq.1
  simp only [ones, List.length_replicate] at hlen
  omega

end Csup
