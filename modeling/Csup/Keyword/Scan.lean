import Csup.Framework.Fields
import Csup.Framework.Lines
import Csup.Keyword.Defs
import Mathlib.Data.List.TakeWhile

/-!
# What `keyword_expand` makes of a line

The scan replaces the fields of the line between two dollars
(`keywordScan_getD`); in the modes that keep the keyword, the fields it puts in
hold the same keywords, so that another expansion replaces them again
(`keywordExpand_absorb`).
-/

namespace Csup.Keyword

open Csup.Framework

/-- The keyword of a field: what lies in front of the first colon. -/
def keyOf (field : List Byte) : List Byte := field.takeWhile (· ≠ 58)

/-- What the field between two dollars is replaced by, the dollars included. -/
def expandField (kw : Keywords) (di : Diffinfo) (field : List Byte) : Option (List Byte) :=
  let key := keyOf field
  if key = [] ∨ key.length < kw.minkeylen ∨ kw.maxkeylen < key.length then none
  else (kw.keywords.find? (·.named key)).map fun tag => replacement di tag key

/-! ## One round -/

theorem memchr_append (a rest : List Byte) (c : Byte) :
    memchr (a ++ rest) a.length c rest.length =
      (cut c rest).map fun p => a.length + p.1.length := by
  rw [memchr, List.drop_left, List.take_length, idxOf?_eq_cut, Option.map_map]
  rfl

/-- The end of the keyword of a field. -/
theorem valLimit_eq (a field after : List Byte) :
    valLimit (a.length + field.length)
        (memchr (a ++ (field ++ 36 :: after)) a.length 58 (field ++ 36 :: after).length) =
      a.length + (keyOf field).length := by
  rw [memchr_append]
  cases h : cut 58 field with
  | some p =>
    obtain ⟨w, r⟩ := p
    obtain ⟨rfl, hw⟩ := cut_eq_some.mp h
    have hkey : keyOf (w ++ 58 :: r) = w := by
      rw [keyOf, List.takeWhile_append_of_pos]
      · simp
      · intro b hb
        have : b ≠ 58 := fun h => hw (h ▸ hb)
        simpa using this
    rw [List.append_assoc, List.cons_append, cut_append hw, hkey]
    simp [valLimit]
  | none =>
    have hno := cut_eq_none.mp h
    have hkey : keyOf field = field := by
      rw [keyOf, List.takeWhile_eq_self_iff]
      intro b hb
      have : b ≠ 58 := fun h => hno (h ▸ hb)
      simpa using this
    rw [hkey]
    cases h' : cut 58 (field ++ 36 :: after) with
    | none => rfl
    | some p =>
      obtain ⟨w, r⟩ := p
      obtain ⟨heq, hw⟩ := cut_eq_some.mp h'
      -- the colon lies behind the field
      have hlen : field.length < w.length := by
        rcases List.append_eq_append_iff.mp heq with ⟨t, rfl, ht⟩ | ⟨t, rfl, ht⟩
        · cases t with
          | nil => simp at ht
          | cons b t => simp
        · cases t with
          | nil => simp at ht
          | cons b t =>
            simp only [List.cons_append, List.cons.injEq] at ht
            exact absurd (by simp [ht.1]) hno
      simp only [Option.map_some, valLimit]
      rw [if_pos (by omega)]

section

variable {kw : Keywords} {di : Diffinfo} {a w field after : List Byte} {newline : Bool}

/-- The colon comes first where the keyword is empty. -/
theorem memchr_colon_iff (hf : field ≠ []) :
    memchr (a ++ (field ++ 36 :: after)) a.length 58 (field ++ 36 :: after).length =
      some a.length ↔ keyOf field = [] := by
  obtain ⟨b, t, rfl⟩ := List.exists_cons_of_ne_nil hf
  rw [memchr_append, List.cons_append, cut]
  by_cases hb : b = 58
  · simp [hb, keyOf]
  · simp [hb, keyOf]

/-- A scan at the end of `a`. -/
abbrev Scan.at (a rest : List Byte) (newline : Bool) : Scan :=
  ⟨a ++ rest, newline, a.length, rest.length⟩

theorem scanStep_none {rest : List Byte} (h : 36 ∉ rest ∨ ∃ w r, 36 ∉ w ∧ 36 ∉ r ∧ rest = w ++ 36 :: r) :
    scanStep kw di (Scan.at a rest newline) = none := by
  rcases h with h | ⟨w, r, hw, hr, rfl⟩
  · simp only [scanStep, memchr_append, cut_eq_none.mpr h, Option.map_none]
  · have hline : a ++ (w ++ 36 :: r) = (a ++ w ++ [36]) ++ r := by simp
    have hstart : a.length + w.length + 1 = (a ++ w ++ [36]).length := by simp; omega
    have hleft : (w ++ 36 :: r).length - (a.length + w.length + 1 - a.length) = r.length := by
      simp only [List.length_append, List.length_cons]
      omega
    have hv : memchr (a ++ (w ++ 36 :: r)) (a.length + w.length + 1) 36
        ((w ++ 36 :: r).length - (a.length + w.length + 1 - a.length)) = none := by
      rw [hleft, hline, hstart, memchr_append, cut_eq_none.mpr hr, Option.map_none]
    simp only [scanStep, memchr_append, cut_append hw, Option.map_some, hv]

/-- A round over a field: the next begins at the dollar behind the field, or
behind the text put in. -/
theorem scanStep_field (kw : Keywords) (di : Diffinfo) (a after : List Byte) (newline : Bool)
    (hw : 36 ∉ w) (hf : 36 ∉ field) :
    scanStep kw di (Scan.at a (w ++ 36 :: (field ++ 36 :: after)) newline) =
      match expandField kw di field with
      | none => some (Scan.at (a ++ w ++ 36 :: field) (36 :: after) newline)
      | some new => some (Scan.at (a ++ w ++ new) after true) := by
  have hline : a ++ (w ++ 36 :: (field ++ 36 :: after)) =
      (a ++ w ++ [36]) ++ (field ++ 36 :: after) := by simp
  have hleft : (w ++ 36 :: (field ++ 36 :: after)).length - (a.length + w.length + 1 - a.length) =
      (field ++ 36 :: after).length := by
    simp only [List.length_append, List.length_cons]
    omega
  have hstart : a.length + w.length + 1 = (a ++ w ++ [36]).length := by simp; omega
  have hd : memchr (a ++ (w ++ 36 :: (field ++ 36 :: after))) a.length 36
      (w ++ 36 :: (field ++ 36 :: after)).length = some (a.length + w.length) := by
    rw [memchr_append, cut_append hw, Option.map_some]
  -- where the round goes on behind a field that is left alone
  have hskip : (⟨a ++ (w ++ 36 :: (field ++ 36 :: after)), newline,
      (a ++ w ++ [36]).length + field.length,
      (field ++ 36 :: after).length - ((a ++ w ++ [36]).length + field.length -
        (a ++ w ++ [36]).length)⟩ : Scan) = Scan.at (a ++ w ++ 36 :: field) (36 :: after) newline := by
    simp only [Scan.at, Scan.mk.injEq, List.length_append, List.length_cons, List.length_nil,
      List.append_assoc, List.cons_append, true_and]
    omega
  have hv : memchr (a ++ w ++ [36] ++ (field ++ 36 :: after)) (a ++ w ++ [36]).length 36
      (field ++ 36 :: after).length = some ((a ++ w ++ [36]).length + field.length) := by
    rw [memchr_append, cut_append hf, Option.map_some]
  simp only [scanStep, hd, hleft]
  rw [hstart]
  simp only [hline, hv] at hskip ⊢
  by_cases hnil : field = []
  · subst hnil
    simp only [List.length_nil, Nat.add_zero, expandField, keyOf, List.takeWhile_nil, true_or,
      if_true] at hskip ⊢
    rw [← hskip]
    simp
  have hlen : 0 < field.length := List.length_pos_of_ne_nil hnil
  rw [if_neg (by omega)]
  simp only [memchr_colon_iff hnil, valLimit_eq, hskip]
  have hkey : (((a ++ w ++ [36]) ++ (field ++ 36 :: after)).drop (a ++ w ++ [36]).length).take
      ((a ++ w ++ [36]).length + (keyOf field).length - (a ++ w ++ [36]).length) = keyOf field := by
    rw [List.drop_left, Nat.add_sub_cancel_left]
    have hpre : keyOf field <+: field ++ 36 :: after :=
      (List.takeWhile_prefix _).trans (List.prefix_append _ _)
    exact (List.prefix_iff_eq_take.mp hpre).symm
  have hhead : ((a ++ w ++ [36]) ++ (field ++ 36 :: after)).take (a.length + w.length) =
      a ++ w := by
    rw [List.append_assoc (a ++ w), ← List.length_append, List.take_left]
  have htail : ((a ++ w ++ [36]) ++ (field ++ 36 :: after)).drop
      ((a ++ w ++ [36]).length + field.length + 1) = after := by
    rw [Nat.add_assoc, ← List.drop_drop, List.drop_left, ← List.drop_drop, List.drop_left]
    rfl
  have hend : ((a ++ w ++ [36]) ++ (field ++ 36 :: after)).length -
      ((a ++ w ++ [36]).length + field.length) = (field ++ 36 :: after).length -
        ((a ++ w ++ [36]).length + field.length - (a ++ w ++ [36]).length) := by
    simp only [List.length_append, List.length_cons]
    omega
  simp only [hkey, hhead, htail, hend, hskip, Nat.add_lt_add_iff_left, expandField]
  by_cases hk : keyOf field = []
  · simp [hk]
  by_cases hlim : (keyOf field).length < kw.minkeylen ∨ kw.maxkeylen < (keyOf field).length
  · simp [hk, hlim]
  rw [if_neg hk, if_neg hlim, if_neg (by simp [hk, hlim])]
  cases kw.keywords.find? fun x => x.named (keyOf field) with
  | none => rfl
  | some tag =>
    simp only [Option.map_some, Scan.at, Option.some.injEq, Scan.mk.injEq, true_and]
    rw [List.length_append, Nat.add_sub_cancel_left]

/-- The loop replaces the fields from where it is on; the line stays where it is
when there was none. -/
theorem scanLoop_at (kw : Keywords) (di : Diffinfo) (a rest : List Byte) (newline : Bool) :
    (scanLoop kw di (Scan.at a rest newline)).line = a ++ substFields 36 (expandField kw di) rest ∧
      ((scanLoop kw di (Scan.at a rest newline)).newline = false →
        (scanLoop kw di (Scan.at a rest newline)).line = a ++ rest ∧ newline = false) := by
  induction hn : rest.length using Nat.strongRecOn generalizing a rest newline with
  | _ n ih =>
    rw [scanLoop]
    rcases fields_cases 36 rest with h | ⟨w, field, after, hw, hf, rfl⟩
    · have hsub : substFields 36 (expandField kw di) rest = rest := by
        rcases h with h | ⟨w, r, hw, hr, rfl⟩
        · exact substFields_notMem h
        · exact substFields_single hw hr
      split
      · exact ⟨by rw [hsub], fun hnew => ⟨rfl, hnew⟩⟩
      · rename_i hs
        rw [scanStep_none h] at hs
        cases hs
    · have hstep := scanStep_field kw di a after newline hw hf
      simp only [List.length_append, List.length_cons] at hn
      split
      · rename_i hs
        rw [hstep] at hs
        cases h : expandField kw di field <;> rw [h] at hs <;> cases hs
      · rename_i s' hs
        rw [hstep] at hs
        cases h : expandField kw di field with
        | none =>
          rw [h] at hs
          cases hs
          obtain ⟨h1, h2⟩ := ih (after.length + 1) (by omega) (a ++ w ++ 36 :: field) (36 :: after)
            newline rfl
          have hfront : substFields 36 (expandField kw di) (w ++ 36 :: (field ++ 36 :: after)) =
              w ++ 36 :: field ++ substFields 36 (expandField kw di) (36 :: after) := by
            rw [substFields_none hw hf h, substFields_append hf]
            simp
          rw [hfront]
          exact ⟨by simpa using h1, fun hnew => by simpa using h2 hnew⟩
        | some new =>
          rw [h] at hs
          cases hs
          obtain ⟨h1, h2⟩ := ih after.length (by omega) (a ++ w ++ new) after true rfl
          rw [substFields_some hw hf h]
          refine ⟨by simpa using h1, fun hnew => ?_⟩
          have := (h2 hnew).2
          cases this

end

/-! ## Lines -/

/-- A line as `keyword_expand` leaves it, expanded or not. -/
def expandLine (kw : Keywords) (di : Diffinfo) (line : List Byte) : List Byte :=
  (keywordExpand (keywordScan kw di) di.expand line).getD line

theorem keywordScan_getD (kw : Keywords) (di : Diffinfo) (line : List Byte) :
    (keywordScan kw di line).getD line = substFields 36 (expandField kw di) line := by
  obtain ⟨h1, h2⟩ := scanLoop_at kw di [] line false
  simp only [List.nil_append, Scan.at, List.length_nil] at h1 h2
  simp only [keywordScan]
  split
  · simpa using h1
  · rename_i hnew
    rw [Option.getD_none, ← h1, (h2 (by simpa using hnew)).1]

/-- The modes that write a keyword with its value. -/
def Expand.Keeps (mode : Expand) : Prop :=
  mode = .default ∨ mode = .keyvalue ∨ mode = .keyvaluelocker

theorem expandLine_of_keeps (kw : Keywords) {di : Diffinfo} (h : di.expand.Keeps)
    (line : List Byte) :
    expandLine kw di line = substFields 36 (expandField kw di) line := by
  have hmode : ¬ (di.expand = .old ∨ di.expand = .binary) := by
    rcases h with h | h | h <;> simp [h]
  rw [expandLine, keywordExpand, if_neg hmode, keywordScan_getD]

theorem replacement_of_keeps {di : Diffinfo} (h : di.expand.Keeps) (tag : Tag) (key : List Byte) :
    replacement di tag key =
      36 :: ((key ++ [58, 32] ++ (tagExpand tag di).getD [] ++ [32]) ++ [36]) := by
  rcases h with h | h | h <;> simp [replacement, h]

theorem notMem_keyOf (field : List Byte) : 58 ∉ keyOf field := by
  intro h
  have := List.mem_takeWhile_imp h
  simp at this

/-- The text put in holds the keyword it was put in for. -/
theorem keyOf_replaced {key : List Byte} (hk : 58 ∉ key) (v : List Byte) :
    keyOf (key ++ [58, 32] ++ v ++ [32]) = key := by
  rw [keyOf, List.append_assoc, List.append_assoc, List.takeWhile_append_of_pos]
  · simp
  · intro b hb
    have : b ≠ 58 := fun h => hk (h ▸ hb)
    simpa using this

theorem isSome_expandField (kw : Keywords) (d1 d2 : Diffinfo) (field : List Byte) :
    (expandField kw d1 field).isSome = (expandField kw d2 field).isSome := by
  simp only [expandField]
  split <;> simp

/-- What a field becomes in the modes that keep the keyword. -/
theorem expandField_cases {kw : Keywords} {di : Diffinfo} (h : di.expand.Keeps)
    {field new : List Byte} (hf : expandField kw di field = some new) :
    ∃ tag ∈ kw.keywords, new = 36 ::
      ((keyOf field ++ [58, 32] ++ (tagExpand tag di).getD [] ++ [32]) ++ [36]) := by
  simp only [expandField] at hf
  split at hf
  · cases hf
  · obtain ⟨tag, htag, rfl⟩ := Option.map_eq_some_iff.mp hf
    exact ⟨tag, List.mem_of_find?_eq_some htag, replacement_of_keeps h tag _⟩

theorem notMem_keyOf_of_notMem {b : Byte} {field : List Byte} (h : b ∉ field) : b ∉ keyOf field :=
  fun hb => h ((List.takeWhile_prefix _).subset hb)

/-- No value of a keyword of the table holds `b`. -/
def ValuesLack (kw : Keywords) (di : Diffinfo) (b : Byte) : Prop :=
  ∀ tag ∈ kw.keywords, b ∉ (tagExpand tag di).getD []

instance (kw : Keywords) (di : Diffinfo) (b : Byte) : Decidable (ValuesLack kw di b) :=
  inferInstanceAs (Decidable (∀ tag ∈ kw.keywords, b ∉ (tagExpand tag di).getD []))

theorem putsFields_expandField {kw : Keywords} {di : Diffinfo} (h : di.expand.Keeps)
    (hv : ValuesLack kw di 36) : PutsFields 36 (expandField kw di) := by
  intro field new hf hnew
  obtain ⟨tag, htag, rfl⟩ := expandField_cases h hnew
  refine ⟨_, ?_, rfl⟩
  have hkey := notMem_keyOf_of_notMem hf
  simp [hkey, hv tag htag]

/-- An expansion absorbs an earlier one: where the values of the earlier one
hold no dollar, expanding the expanded line is expanding the line. -/
theorem expandLine_absorb (kw : Keywords) (d1 d2 : Diffinfo) (h1 : d1.expand.Keeps)
    (h2 : d2.expand.Keeps) (hv : ∀ tag ∈ kw.keywords, 36 ∉ (tagExpand tag d1).getD [])
    (line : List Byte) :
    expandLine kw d2 (expandLine kw d1 line) = expandLine kw d2 line := by
  rw [expandLine_of_keeps kw h1, expandLine_of_keeps kw h2, expandLine_of_keeps kw h2]
  apply substFields_substFields (putsFields_expandField h1 hv)
  · intro field h
    have := isSome_expandField kw d1 d2 field
    rw [h] at this
    simpa using this.symm
  · intro field field' hf h
    obtain ⟨tag, htag, heq⟩ := expandField_cases h1 h
    have hfield' : field' = keyOf field ++ [58, 32] ++ (tagExpand tag d1).getD [] ++ [32] := by
      simpa [← List.append_assoc] using heq
    refine ⟨?_, ?_⟩
    · rw [hfield', expandField, keyOf_replaced (notMem_keyOf field), expandField]
    · rw [← isSome_expandField kw d1, h]
      rfl

/-- The line `$Date: a $ $Id$` with two revisions of a file. -/
theorem expandLine_absorb_two :
    ∃ d1 d2 : Diffinfo, d1.revnum ≠ d2.revnum ∧
      expandLine (keywordNew fun _ => 0) d2 (expandLine (keywordNew fun _ => 0) d1
        [36, 68, 97, 116, 101, 58, 32, 97, 32, 36, 32, 36, 73, 100, 36, 10]) =
      expandLine (keywordNew fun _ => 0) d2
        [36, 68, 97, 116, 101, 58, 32, 97, 32, 36, 32, 36, 73, 100, 36, 10] := by
  let d (n : Byte) : Diffinfo :=
    ⟨[102, 44, 118], none, [49, 46, n],
      [50, 48, 48, 54, 46, 48, 49, 46, 48, 50, 46, 48, 51, 46, 48, 52, 46, 48, 53], [109, 117, 120],
      none, none, .default, by decide⟩
  exact ⟨d 49, d 50, by decide,
    expandLine_absorb _ (d 49) (d 50) (.inl rfl) (.inl rfl) (by decide) _⟩

/-! ## Lines of a file -/

section

variable {kw : Keywords} {di : Diffinfo}

theorem expandLine_old (h : di.expand = .old) (line : List Byte) : expandLine kw di line = line := by
  rw [expandLine, h]
  rfl

/-- The newline of a line stays. -/
theorem expandLine_concat (h : di.expand.Keeps) (w : List Byte) :
    expandLine kw di (w ++ [nl]) = expandLine kw di w ++ [nl] := by
  rw [expandLine_of_keeps kw h, expandLine_of_keeps kw h]
  exact substFields_concat (by decide) w

theorem nl_notMem_expandLine (h : di.expand.Keeps) (hv : ValuesLack kw di nl) {w : List Byte}
    (hw : nl ∉ w) : nl ∉ expandLine kw di w := by
  rw [expandLine_of_keeps kw h]
  refine notMem_substFields (fun field new hf hnew => ?_) hw
  obtain ⟨tag, htag, rfl⟩ := expandField_cases h hnew
  have hkey := notMem_keyOf_of_notMem hf
  have hval := hv tag htag
  simp only [List.mem_cons, List.mem_append, List.not_mem_nil, not_or]
  exact ⟨by decide, ⟨⟨⟨hkey, by decide, by decide, not_false⟩, hval⟩, by decide, not_false⟩,
    by decide, not_false⟩

/-- A line with its newline is expanded to a line with its newline. -/
theorem fullLine_expandLine (h : di.expand.Keeps) (hv : ValuesLack kw di nl) {l : List Byte}
    (hl : FullLine nl l) : FullLine nl (expandLine kw di l) := by
  obtain ⟨w, hw, rfl⟩ := hl
  exact ⟨_, nl_notMem_expandLine h hv hw, expandLine_concat h w⟩

theorem lastLine_expandLine (h : di.expand.Keeps) (hd : ValuesLack kw di 36)
    (hv : ValuesLack kw di nl) {l : List Byte} (hl : LastLine nl l) :
    LastLine nl (expandLine kw di l) := by
  by_cases hnl : l.getLast? = some nl
  · exact (fullLine_expandLine h hv (hl.full hnl)).lastLine
  -- without its newline the line has none
  have hw : nl ∉ l := by
    obtain ⟨w, b, rfl⟩ := (List.eq_nil_or_concat l).resolve_left hl.1
    have hw := hl.2
    rw [List.concat_eq_append, List.dropLast_concat] at hw
    rw [List.concat_eq_append, List.getLast?_concat] at hnl
    simpa [hw] using fun h => hnl (by rw [h])
  refine ⟨?_, fun hmem => nl_notMem_expandLine h hv hw (List.dropLast_subset _ hmem)⟩
  rw [expandLine_of_keeps kw h]
  exact substFields_ne_nil (putsFields_expandField h hd) hl.1

end

end Csup.Keyword
