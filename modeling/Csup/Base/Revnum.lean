import Csup.Base.Clib
import Csup.Framework.Lines
import Mathlib.Data.List.TakeWhile

/-!
# Revision numbers

`rcsnum_cmp`, `rcsrev_istrunk` and `rcsrev_prefix` of `misc.c`, on the strings
themselves. The parts of a number are cut like lines, at the dots; a part that
ends the string is followed by none.
-/

namespace Csup

open Csup.Framework

abbrev Revnum := List Byte

/-- `'.'` -/
abbrev dot : Byte := 46

/-- `strncmp` on two parts of equal length. -/
def strncmp : List Byte → List Byte → Ordering
  | a :: as, b :: bs => if a < b then .lt else if b < a then .gt else strncmp as bs
  | _, _ => .eq

/-- The loop of `rcsnum_cmp` over the parts of the numbers. -/
def rcsnumCmpParts : List (List Byte) → List (List Byte) → Ordering
  | [], [] => .eq
  | _ :: _, [] => .gt
  | [], _ :: _ => .lt
  | a :: as, b :: bs =>
    let num1 := a.takeWhile (· ≠ dot)
    let num2 := b.takeWhile (· ≠ dot)
    if num2.length < num1.length then .gt
    else if num1.length < num2.length then .lt
    else match strncmp num1 num2 with
      | .eq => rcsnumCmpParts as bs
      | r => r

/-- `rcsnum_cmp` -/
def rcsnumCmp (revision1 revision2 : Revnum) : Ordering :=
  rcsnumCmpParts (splitLines dot revision1) (splitLines dot revision2)

/-- `rcsrev_istrunk`; `none` where the source looks behind the missing dot. -/
def rcsrevIstrunk (revnum : Revnum) : Option Bool :=
  match revnum.dropWhile (· ≠ dot) with
  | [] => none
  | _ :: tmp => some (decide (dot ∉ tmp))

/-- `rcsrev_prefix`; `none` is `NULL`. -/
def rcsrevPrefix (revnum : Revnum) : Option Revnum :=
  match revnum.reverse.dropWhile (· ≠ dot) with
  | [] => none
  | _ :: modrev => some modrev.reverse

theorem strncmp_self (a : List Byte) : strncmp a a = .eq := by
  induction a with
  | nil => rfl
  | cons b a ih => simp [strncmp, ih]

theorem rcsnumCmp_self (r : Revnum) : rcsnumCmp r r = .eq := by
  rw [rcsnumCmp]
  induction splitLines dot r with
  | nil => rfl
  | cons p ps ih => simp [rcsnumCmpParts, strncmp_self, ih]

/-! ## The order of revision numbers -/

theorem strncmp_eq_compareLex {as bs : List Byte} (h : as.length = bs.length) :
    strncmp as bs = List.compareLex compare as bs := by
  induction as generalizing bs with
  | nil =>
    rw [List.eq_nil_of_length_eq_zero h.symm]
    rfl
  | cons a as ih =>
    match bs, h with
    | b :: bs, h =>
      rw [strncmp, List.compareLex_cons_cons, ih (Nat.succ.inj h)]
      show _ = (if a < b then Ordering.lt else if a = b then .eq else .gt).then _
      rcases Nat.lt_trichotomy a.toNat b.toNat with hlt | heq | hgt
      · replace hlt : a < b := UInt8.lt_iff_toNat_lt.mpr hlt
        rw [if_pos hlt, if_pos hlt]
        rfl
      · obtain rfl := UInt8.toNat_inj.mp heq
        rw [if_neg (UInt8.lt_irrefl a), if_neg (UInt8.lt_irrefl a), if_neg (UInt8.lt_irrefl a),
          if_pos rfl]
        rfl
      · replace hgt : b < a := UInt8.lt_iff_toNat_lt.mpr hgt
        have hne : a ≠ b := fun hab => UInt8.lt_irrefl b (hab ▸ hgt)
        rw [if_neg (UInt8.lt_asymm hgt), if_pos hgt, if_neg (UInt8.lt_asymm hgt), if_neg hne]
        rfl

/-- A shorter part is less. -/
def partCmp (num1 num2 : List Byte) : Ordering :=
  compareLex (compareOn List.length) (List.compareLex compare) num1 num2

theorem rcsnumCmpParts_eq (as bs : List (List Byte)) : rcsnumCmpParts as bs =
    List.compareLex (fun a b => partCmp (a.takeWhile (· ≠ dot)) (b.takeWhile (· ≠ dot))) as bs := by
  induction as generalizing bs with
  | nil => cases bs <;> rfl
  | cons a as ih =>
    match bs with
    | [] => rfl
    | b :: bs =>
      rw [rcsnumCmpParts, List.compareLex_cons_cons, ← ih bs]
      generalize a.takeWhile (· ≠ dot) = num1
      generalize b.takeWhile (· ≠ dot) = num2
      show _ = ((compare num1.length num2.length).then (List.compareLex compare num1 num2)).then _
      rcases Nat.lt_trichotomy num1.length num2.length with hlt | heq | hgt
      · rw [if_neg (by omega), if_pos hlt, Nat.compare_eq_lt.mpr hlt]
        rfl
      · rw [if_neg (by omega), if_neg (by omega), Nat.compare_eq_eq.mpr heq,
          strncmp_eq_compareLex heq]
        cases List.compareLex compare num1 num2 <;> rfl
      · rw [if_pos hgt, Nat.compare_eq_gt.mpr hgt]
        rfl

theorem transCmp_comap {α β : Type*} (f : α → β) (cmp : β → β → Ordering) [Std.TransCmp cmp] :
    Std.TransCmp fun a b => cmp (f a) (f b) where
  eq_swap := Std.OrientedCmp.eq_swap
  isLE_trans := Std.TransCmp.isLE_trans

/-- `rcsnum_cmp` is an order, but for numbers that it takes for the same. -/
instance transCmp_rcsnumCmp : Std.TransCmp rcsnumCmp := by
  have hpart : Std.TransCmp partCmp :=
    inferInstanceAs (Std.TransCmp (compareLex (compareOn List.length) (List.compareLex compare)))
  have hparts : Std.TransCmp fun a b : List Byte =>
      partCmp (a.takeWhile (· ≠ dot)) (b.takeWhile (· ≠ dot)) := transCmp_comap _ partCmp
  have hnum := transCmp_comap (splitLines dot) (List.compareLex fun a b : List Byte =>
    partCmp (a.takeWhile (· ≠ dot)) (b.takeWhile (· ≠ dot)))
  have heq : rcsnumCmp = fun a b => List.compareLex (fun a b : List Byte =>
      partCmp (a.takeWhile (· ≠ dot)) (b.takeWhile (· ≠ dot))) (splitLines dot a) (splitLines dot b) :=
    funext fun a => funext fun b => rcsnumCmpParts_eq _ _
  rw [heq]
  exact hnum

theorem rcsnumCmp_swap (a b : Revnum) : rcsnumCmp a b = (rcsnumCmp b a).swap :=
  Std.OrientedCmp.eq_swap

theorem rcsnumCmp_trans {a b c : Revnum} (hab : rcsnumCmp a b ≠ .gt) (hbc : rcsnumCmp b c ≠ .gt) :
    rcsnumCmp a c ≠ .gt :=
  Ordering.isLE_iff_ne_gt.mp (Std.TransCmp.isLE_trans (Ordering.isLE_iff_ne_gt.mpr hab)
    (Ordering.isLE_iff_ne_gt.mpr hbc))

theorem rcsrevPrefix_length {r p : Revnum} (h : rcsrevPrefix r = some p) : p.length < r.length := by
  rw [rcsrevPrefix] at h
  have hle := (List.dropWhile_sublist (· ≠ dot) (l := r.reverse)).length_le
  split at h
  · cases h
  · rename_i b m hm
    obtain rfl := Option.some.inj h
    rw [hm] at hle
    simp only [List.length_cons, List.length_reverse] at hle ⊢
    omega

/-! ## Dots -/

theorem takeWhile_count_dot (r : List Byte) : (r.takeWhile (· ≠ dot)).count dot = 0 :=
  List.count_eq_zero.mpr fun h => by
    have := List.mem_takeWhile_imp h
    simp at this

/-- A number up to its first dot, and behind it. -/
theorem dropWhile_dot (r : List Byte) : r.dropWhile (· ≠ dot) = [] ∧ dot ∉ r ∨
    ∃ a t, dot ∉ a ∧ r = a ++ dot :: t ∧ r.dropWhile (· ≠ dot) = dot :: t := by
  have hsplit := List.takeWhile_append_dropWhile (p := (· ≠ dot)) (l := r)
  have htake := takeWhile_count_dot r
  match hd : r.dropWhile (· ≠ dot) with
  | [] =>
    rw [hd, List.append_nil] at hsplit
    rw [hsplit] at htake
    exact .inl ⟨rfl, List.count_eq_zero.mp htake⟩
  | b :: t =>
    have hb : b = dot := by
      have := List.head?_dropWhile_not (· ≠ dot) r
      rw [hd] at this
      simpa using this
    rw [hd, hb] at hsplit
    exact .inr ⟨_, t, List.count_eq_zero.mp htake, hsplit.symm, by rw [hb]⟩

theorem rcsrevIstrunk_eq (r : Revnum) :
    rcsrevIstrunk r = if r.count dot = 0 then none else some (decide (r.count dot = 1)) := by
  unfold rcsrevIstrunk
  rcases dropWhile_dot r with ⟨hd, hr⟩ | ⟨a, t, ha, hr, hd⟩
  · rw [hd, if_pos (List.count_eq_zero.mpr hr)]
  · have hcount : r.count dot = t.count dot + 1 := by
      rw [hr, List.count_append, List.count_eq_zero.mpr ha, List.count_cons_self, Nat.zero_add]
    rw [hd, if_neg (by omega), hcount]
    simp [List.count_eq_zero]

/-- The last part is cut off, with its dot. -/
theorem rcsrevPrefix_eq_some {r p : Revnum} :
    rcsrevPrefix r = some p ↔ ∃ c, dot ∉ c ∧ r = p ++ dot :: c := by
  constructor
  · intro h
    unfold rcsrevPrefix at h
    rcases dropWhile_dot r.reverse with ⟨hd, -⟩ | ⟨a, t, ha, hr, hd⟩
    · rw [hd] at h
      cases h
    · rw [hd] at h
      obtain rfl := Option.some.inj h
      refine ⟨a.reverse, by simpa using ha, ?_⟩
      have := congrArg List.reverse hr
      simpa using this
  · rintro ⟨c, hc, rfl⟩
    have hne : ∀ x ∈ c.reverse, decide (x ≠ dot) = true := fun x hx => by
      have : x ≠ dot := fun h => hc (h ▸ List.mem_reverse.mp hx)
      simpa using this
    unfold rcsrevPrefix
    rw [show (p ++ dot :: c).reverse = c.reverse ++ dot :: p.reverse by simp,
      List.dropWhile_append_of_pos hne, List.dropWhile_cons_of_neg (by simp)]
    simp

theorem rcsrevPrefix_eq_none {r : Revnum} : rcsrevPrefix r = none ↔ r.count dot = 0 := by
  unfold rcsrevPrefix
  rcases dropWhile_dot r.reverse with ⟨hd, hr⟩ | ⟨a, t, -, hr, hd⟩
  · rw [hd]
    exact ⟨fun _ => List.count_eq_zero.mpr (by simpa using hr), fun _ => rfl⟩
  · rw [hd]
    refine ⟨fun h => (by cases h), fun h => ?_⟩
    have : dot ∈ r := List.mem_reverse.mp (by rw [hr]; simp)
    exact absurd this (List.count_eq_zero.mp h)

theorem count_of_rcsrevPrefix {r p : Revnum} (h : rcsrevPrefix r = some p) :
    r.count dot = p.count dot + 1 := by
  obtain ⟨c, hc, rfl⟩ := rcsrevPrefix_eq_some.mp h
  rw [List.count_append, List.count_cons_self, List.count_eq_zero.mpr hc]

/-! ## Numbers that are taken for the same -/

theorem eq_of_strncmp {as bs : List Byte} (hlen : as.length = bs.length)
    (h : strncmp as bs = .eq) : as = bs := by
  induction as generalizing bs with
  | nil => exact (List.eq_nil_of_length_eq_zero hlen.symm).symm
  | cons a as ih =>
    match bs, hlen with
    | b :: bs, hlen =>
      rw [strncmp] at h
      split at h
      · cases h
      split at h
      · cases h
      rename_i hab hba
      have : a = b := UInt8.le_antisymm (UInt8.not_lt.mp hba) (UInt8.not_lt.mp hab)
      rw [this, ih (Nat.succ.inj hlen) h]

/-- A part has a dot at its end, or none. -/
theorem part_cases {l : List Byte} (h : LastLine dot l) :
    l = l.takeWhile (· ≠ dot) ∧ l.count dot = 0 ∨
      l = l.takeWhile (· ≠ dot) ++ [dot] ∧ l.count dot = 1 := by
  have htake := takeWhile_count_dot l
  rcases dropWhile_dot l with ⟨hd, hl⟩ | ⟨a, t, ha, hl, hd⟩
  · refine .inl ⟨?_, List.count_eq_zero.mpr hl⟩
    have := List.takeWhile_append_dropWhile (p := (· ≠ dot)) (l := l)
    rw [hd, List.append_nil] at this
    exact this.symm
  · have ht : t = [] := by
      by_contra ht
      refine h.2 ?_
      rw [hl, List.dropLast_append_of_ne_nil (by simp), List.dropLast_cons_of_ne_nil ht]
      simp
    have hsplit := List.takeWhile_append_dropWhile (p := (· ≠ dot)) (l := l)
    rw [hd, ht] at hsplit
    refine .inr ⟨hsplit.symm, ?_⟩
    rw [← hsplit, List.count_append, htake]
    rfl

theorem eq_of_rcsnumCmpParts {as bs : List (List Byte)} (ha : IsText dot as) (hb : IsText dot bs)
    (hcmp : rcsnumCmpParts as bs = .eq)
    (hdots : as.flatten.count dot = bs.flatten.count dot) : as = bs := by
  induction as generalizing bs with
  | nil =>
    match bs, hcmp with
    | [], _ => rfl
  | cons a as ih =>
    match bs, hcmp with
    | b :: bs, hcmp =>
      rw [rcsnumCmpParts] at hcmp
      split at hcmp
      · cases hcmp
      split at hcmp
      · cases hcmp
      split at hcmp
      · rename_i hgt hlt hpart
        have hnum := eq_of_strncmp (by omega) hpart
        have hla := ha.lastLine a List.mem_cons_self
        have hlb := hb.lastLine b List.mem_cons_self
        rw [List.flatten_cons, List.flatten_cons, List.count_append, List.count_append] at hdots
        -- only the last part may lack its dot
        have hfull : a.count dot = b.count dot := by
          match as, bs, hcmp with
          | [], [], _ => simpa using hdots
          | _ :: _, _ :: _, _ =>
            obtain ⟨w, hw, rfl⟩ := ha.1
            obtain ⟨w', hw', rfl⟩ := hb.1
            rw [List.count_append, List.count_append, List.count_eq_zero.mpr hw,
              List.count_eq_zero.mpr hw']
        have hab : a = b := by
          rcases part_cases hla with ⟨h1, h1'⟩ | ⟨h1, h1'⟩ <;>
            rcases part_cases hlb with ⟨h2, h2'⟩ | ⟨h2, h2'⟩
          · rw [h1, h2, hnum]
          · omega
          · omega
          · rw [h1, h2, hnum]
        rw [hab, ih ha.tail hb.tail hcmp (by omega)]
      · rename_i hne
        exact absurd hcmp hne

/-- Numbers with as many dots are taken for the same only if they are. -/
theorem eq_of_rcsnumCmp {a b : Revnum} (hcmp : rcsnumCmp a b = .eq)
    (hdots : a.count dot = b.count dot) : a = b := by
  have hparts := eq_of_rcsnumCmpParts (isText_splitLines dot a) (isText_splitLines dot b) hcmp
    (by rw [flatten_splitLines, flatten_splitLines, hdots])
  rw [← flatten_splitLines dot a, hparts, flatten_splitLines]

end Csup
