import Csup.Status.Get
import Mathlib.Data.List.Chain
import Mathlib.Data.List.Lex
import Mathlib.Order.Defs.LinearOrder

/-!
# The order of status records

`statusrec_cmp` compares names byte by byte, with a slash below the other bytes, and
puts the record that closes a directory behind everything in the directory. Names are
ranked by their bytes and their end (`rank`): a name ends below a slash, or above it
where a directory is closed. `pathcmp` takes a slash for the byte 1, so that the order
of the ranks is the one of the code where these two do not meet (`Apart`).

* `statusrecCmp_lt_iff`, `statusrecCmp_eq_iff`: records by their ranks;
* `pairwise_rank`: a file is sorted throughout.
-/

namespace Csup.Status

open Csup.Framework

/-! ## Ranks -/

/-- The rank of a byte of a name. -/
def byteRank (c : Byte) : Int := if c = 47 then 1 else if c = 1 then 3 else 4 * schar c

/-- The rank of the end of a name. -/
def endRank (sr : StatusRec) : Int := if sr.type = .dirup then 2 else 0

def rank (sr : StatusRec) : List Int := sr.file.map byteRank ++ [endRank sr]

/-- The names do not differ first in a slash against a byte 1. -/
def Apart (s t : List Byte) : Prop :=
  ∀ p c s' d t', s = p ++ c :: s' → t = p ++ d :: t' → ¬(c = 47 ∧ d = 1) ∧ ¬(c = 1 ∧ d = 47)

theorem Apart.symm {s t : List Byte} (h : Apart s t) : Apart t s :=
  fun p c s' d t' hs ht => ⟨fun hcd => (h p d t' c s' ht hs).2 hcd.symm,
    fun hcd => (h p d t' c s' ht hs).1 hcd.symm⟩

/-- Names without a byte 1 are apart. -/
theorem apart_of_notMem {s t : List Byte} (hs : 1 ∉ s) (ht : 1 ∉ t) : Apart s t := by
  rintro p c s' d t' rfl rfl
  have hc : c ≠ 1 := fun h => hs (by simp [h])
  have hd : d ≠ 1 := fun h => ht (by simp [h])
  exact ⟨fun h => hd h.2, fun h => hc h.1⟩

/-! ## Bytes -/

/-- A byte as `pathcmp` compares it. -/
def cmpByte (c : Byte) : Int := schar (if c = 47 then 1 else c)

theorem schar_inj {c d : Byte} (h : schar c = schar d) : c = d :=
  UInt8.eq_of_toBitVec_eq (BitVec.eq_of_toInt_eq h)

theorem schar_eq (c : Byte) : (schar c = 0 ↔ c = 0) ∧ (schar c = 1 ↔ c = 1) ∧
    (schar c = 47 ↔ c = 47) :=
  ⟨⟨fun h => schar_inj h, fun h => h ▸ rfl⟩, ⟨fun h => schar_inj h, fun h => h ▸ rfl⟩,
    ⟨fun h => schar_inj h, fun h => h ▸ rfl⟩⟩

theorem cmpByte_lt_iff {c d : Byte} (hne : c ≠ d) (h : ¬(c = 47 ∧ d = 1) ∧ ¬(c = 1 ∧ d = 47))
    (hc : c ≠ 0) (hd : d ≠ 0) :
    (cmpByte c < cmpByte d ↔ byteRank c < byteRank d) ∧ cmpByte c ≠ cmpByte d ∧
      byteRank c ≠ byteRank d := by
  have hc' := schar_eq c
  have hd' := schar_eq d
  have hinj : schar c ≠ schar d := fun heq => hne (schar_inj heq)
  have h1 : schar 1 = 1 := rfl
  unfold cmpByte byteRank
  split_ifs <;> simp_all <;> omega

/-- A byte of a name against the end of another. -/
theorem cmpByte_end {c : Byte} (hc : c ≠ 0) (e : Int) (he : e = 0 ∨ e = 2 ∧ c ≠ 47) :
    (cmpByte c < 0 ↔ byteRank c < e) ∧ (0 < cmpByte c ↔ e < byteRank c) ∧ cmpByte c ≠ 0 ∧
      byteRank c ≠ e := by
  have hc' := schar_eq c
  have h1 : schar 1 = 1 := rfl
  unfold cmpByte byteRank
  split_ifs <;> simp_all <;> omega

/-! ## Names -/

theorem pathcmp_append (p s t : List Byte) : pathcmp (p ++ s) (p ++ t) = pathcmp s t := by
  induction p with
  | nil => rfl
  | cons c p ih => simp [pathcmp, ih]

theorem pathcmp_self (s : List Byte) : pathcmp s s = 0 := by
  simpa [pathcmp] using pathcmp_append s [] []

theorem pathcmp_right (s : List Byte) (c : Byte) (t : List Byte) :
    pathcmp s (s ++ c :: t) = -cmpByte c := by
  simpa [pathcmp, cmpByte] using pathcmp_append s [] (c :: t)

theorem pathcmp_left (s : List Byte) (c : Byte) (t : List Byte) :
    pathcmp (s ++ c :: t) s = cmpByte c := by
  simpa [pathcmp, cmpByte] using pathcmp_append s (c :: t) []

theorem pathcmp_differ (p : List Byte) {c d : Byte} (s t : List Byte)
    (h : cmpByte c ≠ cmpByte d) :
    pathcmp (p ++ c :: s) (p ++ d :: t) = cmpByte c - cmpByte d := by
  have hne : (if c = 47 then 1 else c) ≠ (if d = 47 then (1 : Byte) else d) :=
    fun heq => h (congrArg schar heq)
  rw [pathcmp_append, pathcmp]
  exact if_neg hne

/-- How two names are to each other. -/
inductive Compared : List Byte → List Byte → Prop
  | same (s : List Byte) : Compared s s
  | below (s : List Byte) (c : Byte) (t : List Byte) : Compared s (s ++ c :: t)
  | above (s : List Byte) (c : Byte) (t : List Byte) : Compared (s ++ c :: t) s
  | differ (p : List Byte) {c d : Byte} (s t : List Byte) (h : c ≠ d) :
    Compared (p ++ c :: s) (p ++ d :: t)

theorem compared (s t : List Byte) : Compared s t := by
  induction s generalizing t with
  | nil =>
    cases t with
    | nil => exact .same []
    | cons d t => exact .below [] d t
  | cons c s ih =>
    cases t with
    | nil => exact .above [] c s
    | cons d t =>
      by_cases h : c = d
      · subst h
        rcases ih t with ⟨_⟩ | ⟨_, d, t⟩ | ⟨_, d, t⟩ | ⟨p, s, t, h⟩
        · exact .same _
        · exact .below (c :: s) d t
        · exact .above (c :: _) d _
        · exact .differ (c :: p) s t h
      · exact .differ [] s t h

theorem pathcmp_swap (s t : List Byte) : pathcmp s t = -pathcmp t s := by
  induction s generalizing t with
  | nil => cases t <;> simp [pathcmp]
  | cons c s ih =>
    cases t with
    | nil => simp [pathcmp]
    | cons d t =>
      simp only [pathcmp]
      by_cases h : (if c = 47 then (1 : Byte) else c) = if d = 47 then 1 else d
      · rw [if_pos h, if_pos h.symm, ih]
      · rw [if_neg h, if_neg (Ne.symm h)]
        omega

/-! ## Records -/

section Compare

variable {a b : StatusRec}

/-- The record closes the directory that the other is, or is in. -/
def Covers (a b : StatusRec) : Prop :=
  a.type = .dirup ∧ (a.file.length < b.file.length ∧ b.file[a.file.length]? = some 47 ∨
    a.file.length = b.file.length) ∧ a.file = b.file.take a.file.length

instance (a b : StatusRec) : Decidable (Covers a b) := inferInstanceAs (Decidable (_ ∧ _ ∧ _))

theorem statusrecCmp_eq (a b : StatusRec) :
    statusrecCmp a b =
      if Covers a b then 1 else if Covers b a then -1 else pathcmp a.file b.file := by
  unfold statusrecCmp Covers
  simp only [eq_comm]

/-- What is less is not greater. -/
theorem statusrecCmp_pos (h : statusrecCmp a b < 0) : 0 < statusrecCmp b a := by
  rw [statusrecCmp_eq] at h ⊢
  rw [pathcmp_swap]
  split_ifs at h ⊢ <;> omega

/-- Records are compared by their names and by whether they close a directory. -/
theorem statusrecCmp_congr {a' b' : StatusRec} (ha : a'.file = a.file ∧ (a'.type = .dirup ↔ a.type = .dirup))
    (hb : b'.file = b.file ∧ (b'.type = .dirup ↔ b.type = .dirup)) :
    statusrecCmp a' b' = statusrecCmp a b := by
  simp only [statusrecCmp, ha.1, ha.2, hb.1, hb.2]

theorem statusrecCmp_self (h : a.type ≠ .dirup) : statusrecCmp a a = 0 := by
  rw [statusrecCmp_eq, if_neg fun hc => h hc.1, if_neg fun hc => h hc.1, pathcmp_self]

/-- Records are equal where neither closes the other, and their names are equal. -/
theorem of_cmp_eq_zero (h : statusrecCmp a b = 0) :
    ¬Covers a b ∧ ¬Covers b a ∧ pathcmp a.file b.file = 0 := by
  rw [statusrecCmp_eq] at h
  by_cases hab : Covers a b
  · simp [hab] at h
  · by_cases hba : Covers b a
    · simp [hab, hba] at h
    · exact ⟨hab, hba, by simpa [hab, hba] using h⟩

/-- A record that closes a directory has no equal with its name. -/
theorem type_of_cmp_eq_zero (h : statusrecCmp a b = 0) (hfile : a.file = b.file) :
    a.type ≠ .dirup ∧ b.type ≠ .dirup := by
  obtain ⟨hab, hba, -⟩ := of_cmp_eq_zero h
  exact ⟨fun hup => hab ⟨hup, .inr (by rw [hfile]), by simp [hfile]⟩,
    fun hup => hba ⟨hup, .inr (by rw [hfile]), by simp [hfile]⟩⟩

theorem statusrecCmp_same (h : a.file = b.file) :
    statusrecCmp a b = if a.type = .dirup then 1 else if b.type = .dirup then -1 else 0 := by
  simp [statusrecCmp, h, pathcmp_self]

theorem statusrecCmp_below {c : Byte} {t : List Byte} (h : b.file = a.file ++ c :: t) :
    statusrecCmp a b = if a.type = .dirup ∧ c = 47 then 1 else -cmpByte c := by
  simp [statusrecCmp, h, pathcmp_right]

theorem statusrecCmp_above {c : Byte} {t : List Byte} (h : a.file = b.file ++ c :: t) :
    statusrecCmp a b = if b.type = .dirup ∧ c = 47 then -1 else cmpByte c := by
  simp [statusrecCmp, h, pathcmp_left]

theorem statusrecCmp_differ {p : List Byte} {c d : Byte} {s t : List Byte} (ha : a.file = p ++ c :: s)
    (hb : b.file = p ++ d :: t) (hne : c ≠ d) (h : cmpByte c ≠ cmpByte d) :
    statusrecCmp a b = cmpByte c - cmpByte d := by
  have hno {u v : List Byte} {x y : Byte} (hxy : x ≠ y) (n : Nat) :
      p ++ x :: u ≠ (p ++ y :: v).take n := fun heq => by
    have hpre : p ++ x :: u <+: p ++ y :: v := heq ▸ List.take_prefix _ _
    rw [List.prefix_append_right_inj, List.cons_prefix_cons] at hpre
    exact hxy hpre.1
  rw [statusrecCmp, ha, hb, if_neg fun h => hno hne _ h.2.2,
    if_neg fun h => hno hne.symm _ h.2.2.symm, pathcmp_differ p s t h]

theorem append_lt_iff (p u v : List Int) : p ++ u < p ++ v ↔ u < v := by
  induction p with
  | nil => rfl
  | cons x p ih => simp [ih]

theorem cons_lt_iff {x y : Int} (h : x ≠ y) (u v : List Int) : x :: u < y :: v ↔ x < y := by
  simp [List.cons_lt_cons_iff, h]

/-! The first place where two lists differ decides. -/

section

variable {f : Byte → Int} {w : List Byte} {e : Int} {x y : Byte}

theorem below_lt_iff (h : e ≠ f x) (t : List Byte) (l m : List Int) :
    w.map f ++ e :: l < (w ++ x :: t).map f ++ m ↔ e < f x := by
  rw [List.map_append, List.append_assoc, append_lt_iff, List.map_cons, List.cons_append,
    cons_lt_iff h]

theorem above_lt_iff (h : f x ≠ e) (s : List Byte) (l m : List Int) :
    (w ++ x :: s).map f ++ l < w.map f ++ e :: m ↔ f x < e := by
  rw [List.map_append, List.append_assoc, append_lt_iff, List.map_cons, List.cons_append,
    cons_lt_iff h]

theorem differ_lt_iff (h : f x ≠ f y) (s t : List Byte) (l m : List Int) :
    (w ++ x :: s).map f ++ l < (w ++ y :: t).map f ++ m ↔ f x < f y := by
  rw [List.map_append, List.map_append, List.append_assoc, List.append_assoc, append_lt_iff,
    List.map_cons, List.map_cons, List.cons_append, List.cons_append, cons_lt_iff h]

end

theorem endRank_cases (a : StatusRec) :
    a.type = .dirup ∧ endRank a = 2 ∨ a.type ≠ .dirup ∧ endRank a = 0 := by
  unfold endRank
  split <;> simp_all

/-- Records are in the order of their ranks. -/
theorem statusrecCmp_lt_iff (hap : Apart a.file b.file) (ha : 0 ∉ a.file) (hb : 0 ∉ b.file) :
    statusrecCmp a b < 0 ↔ rank a < rank b := by
  have hcmp := compared a.file b.file
  have hea := endRank_cases a
  have heb := endRank_cases b
  unfold rank
  generalize hs : a.file = s at hcmp hap ha
  generalize ht : b.file = t at hcmp hap hb
  cases hcmp with
  | same =>
    rw [statusrecCmp_same (hs.trans ht.symm), append_lt_iff]
    rcases hea with ⟨hta, hea⟩ | ⟨hta, hea⟩ <;> rcases heb with ⟨htb, heb⟩ | ⟨htb, heb⟩ <;>
      simp [hta, htb, hea, heb, List.cons_lt_cons_iff]
  | below _ c t =>
    have hc : c ≠ 0 := fun h => hb (by simp [h])
    rw [statusrecCmp_below (by rw [ht, hs])]
    rcases hea with ⟨hta, hea⟩ | ⟨hta, hea⟩
    · by_cases h47 : c = 47
      · subst h47
        rw [hea, below_lt_iff (by decide)]
        simp [hta, byteRank]
      · obtain ⟨hlt, hgt, -, hne⟩ := cmpByte_end hc 2 (.inr ⟨rfl, h47⟩)
        rw [hea, below_lt_iff hne.symm, if_neg fun h => h47 h.2]
        omega
    · obtain ⟨hlt, hgt, -, hne⟩ := cmpByte_end hc 0 (.inl rfl)
      rw [hea, below_lt_iff hne.symm, if_neg fun h => hta h.1]
      omega
  | above _ c t =>
    have hc : c ≠ 0 := fun h => ha (by simp [h])
    rw [statusrecCmp_above (by rw [ht, hs])]
    rcases heb with ⟨htb, heb⟩ | ⟨htb, heb⟩
    · by_cases h47 : c = 47
      · subst h47
        rw [heb, above_lt_iff (by decide)]
        simp [htb, byteRank]
      · obtain ⟨hlt, -, -, hne⟩ := cmpByte_end hc 2 (.inr ⟨rfl, h47⟩)
        rw [heb, above_lt_iff hne, if_neg fun h => h47 h.2, hlt]
    · obtain ⟨hlt, -, -, hne⟩ := cmpByte_end hc 0 (.inl rfl)
      rw [heb, above_lt_iff hne, if_neg fun h => htb h.1, hlt]
  | @differ p c d s t h =>
    have hc : c ≠ 0 := fun h => ha (by simp [h])
    have hd : d ≠ 0 := fun h => hb (by simp [h])
    obtain ⟨hlt, hcmp, hne⟩ := cmpByte_lt_iff h (hap p c s d t rfl rfl) hc hd
    rw [statusrecCmp_differ hs ht h hcmp, differ_lt_iff hne]
    omega

/-- Of two records with one name, one that closes a directory is not found. -/
theorem statusrecCmp_eq_iff (hap : Apart a.file b.file) (ha : 0 ∉ a.file) (hb : 0 ∉ b.file) :
    statusrecCmp a b = 0 ↔ a.file = b.file ∧ a.type ≠ .dirup ∧ b.type ≠ .dirup := by
  have hcmp := compared a.file b.file
  generalize hs : a.file = s at hcmp hap ha
  generalize ht : b.file = t at hcmp hap hb
  cases hcmp with
  | same =>
    rw [statusrecCmp_same (hs.trans ht.symm)]
    split_ifs <;> simp_all
  | below _ c t =>
    have hc : c ≠ 0 := fun h => hb (by simp [h])
    have := (cmpByte_end hc 0 (.inl rfl)).2.2.1
    rw [statusrecCmp_below (by rw [ht, hs])]
    split_ifs <;> simp_all
  | above _ c t =>
    have hc : c ≠ 0 := fun h => ha (by simp [h])
    have := (cmpByte_end hc 0 (.inl rfl)).2.2.1
    rw [statusrecCmp_above (by rw [ht, hs])]
    split_ifs <;> simp_all
  | @differ p c d s t h =>
    have hc : c ≠ 0 := fun h => ha (by simp [h])
    have hd : d ≠ 0 := fun h => hb (by simp [h])
    obtain ⟨-, hcmp, -⟩ := cmpByte_lt_iff h (hap p c s d t rfl rfl) hc hd
    rw [statusrecCmp_differ hs ht h hcmp]
    constructor
    · omega
    · rintro ⟨heq, -⟩
      exact absurd (List.cons.inj (List.append_cancel_left heq)).1 h

end Compare

/-- Records whose neighbours are sorted are sorted throughout. -/
theorem pairwise_rank {recs : List StatusRec} (h0 : ∀ sr ∈ recs, 0 ∉ sr.file)
    (hsorted : recs.IsChain fun a b => statusrecCmp a b < 0)
    (hap : recs.IsChain fun a b => Apart a.file b.file) :
    recs.Pairwise fun a b => rank a < rank b := by
  rw [← List.pairwise_map, ← List.isChain_iff_pairwise, List.isChain_map,
    List.isChain_iff_forall_rel_of_append_cons_cons]
  rintro a b l₁ l₂ rfl
  have ha := List.isChain_iff_forall_rel_of_append_cons_cons.mp hap rfl
  refine (statusrecCmp_lt_iff ha (h0 a (by simp)) (h0 b (by simp))).mp ?_
  exact List.isChain_iff_forall_rel_of_append_cons_cons.mp hsorted rfl

end Csup.Status
