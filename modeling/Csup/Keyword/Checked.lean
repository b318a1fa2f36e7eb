import Csup.Keyword.Scan

/-!
# `keyword_expand`, with all that it reads

The scan of `Keyword.Defs` once more, with what decides whether it has a meaning: the
bytes of a line and of an `ident` lie where they are read, or the result is undefined;
the size of a new line is computed apart from its bytes; and a date that cannot be read
ends the program.

`keywordExpandChecked_iff`: it is a scan from left to right, in which `$ident$` and
`$ident:text$` are replaced, if and only if it comes to no field that begins with an
`ident` and a NUL, and to no keyword with a date it cannot read.
-/

namespace Csup.Keyword

open Csup.Framework
open Csup.Misc

inductive Stop
  | undefined
  /-- `err` -/
  | exit
  deriving DecidableEq

/-- A `struct diffinfo`, whatever its date. -/
structure Info where
  rcsfile : List Byte
  cvsroot : Option (List Byte)
  revnum : List Byte
  revdate : List Byte
  author : List Byte
  tag : Option (List Byte)
  state : Option (List Byte)
  expand : Expand

def Info.dated (di : Info) (h : (rcsdatetotm di.revdate).isSome) : Diffinfo :=
  ⟨di.rcsfile, di.cvsroot, di.revnum, di.revdate, di.author, di.tag, di.state, di.expand, h⟩

/-- `tag_expand` -/
def tagExpandChecked (tag : Tag) (di : Info) : Except Stop (Option (List Byte)) :=
  if h : (rcsdatetotm di.revdate).isSome then .ok (tagExpand tag (di.dated h)) else .error .exit

/-- The variables at `again`; `size` is that of the line at `linestart`. -/
structure Vars where
  line : List Byte
  newline : Bool
  cp : Nat
  left : Nat
  size : Nat

/-- `memchr`, where all of the bytes are in the line. -/
def memchrChecked (line : List Byte) (start : Nat) (c : Byte) (n : Nat) :
    Except Stop (Option Nat) :=
  if start + n ≤ line.length then .ok (memchr line start c n) else .error .undefined

/-- The keyword of the table that the bytes `key` are. -/
def lookup (key : List Byte) : List Tag → Except Stop (Option Tag)
  | [] => .ok none
  | tag :: tags =>
    if strncmpEq tag.at 0 key then
      -- `ident[n]`, where the string may end before
      if tag.ident.length < key.length then .error .undefined
      else if tag.at key.length = 0 then .ok (some tag)
      else lookup key tags
    else lookup key tags

/-- What is put in for a keyword, and the number of its bytes in `newsize`. -/
def putIn (di : Info) (tag : Tag) (key : List Byte) : Except Stop (List Byte × Nat) :=
  match di.expand with
  | .key => .ok (36 :: key ++ [36], 1 + key.length + 1)
  | .value => do
    let newval ← tagExpandChecked tag di
    return (newval.getD [], (newval.getD []).length)
  | _ => do
    let newval ← tagExpandChecked tag di
    return (36 :: key ++ [58, 32] ++ newval.getD [] ++ [32, 36],
      1 + key.length + 2 + (newval.getD []).length + 2)

/-- From one `again` to the next; `none` where `keyword_expand` returns. -/
def checkedStep (kw : Keywords) (di : Info) (s : Vars) : Except Stop (Option Vars) := do
  match ← memchrChecked s.line s.cp 36 s.left with
  | none => return none
  | some dollar =>
    let keystart := dollar + 1
    let left := s.left - (keystart - s.cp)
    match ← memchrChecked s.line keystart 36 left with
    | none => return none
    | some vallim =>
      if vallim = keystart then return some { s with cp := keystart, left }
      else
        let colon ← memchrChecked s.line keystart 58 left
        if colon = some keystart then
          return some { s with cp := vallim, left := left - (vallim - keystart) }
        else
          let valstart := valLimit vallim colon
          if valstart < keystart + kw.minkeylen ∨ keystart + kw.maxkeylen < valstart then
            return some { s with cp := vallim, left := left - (vallim - keystart) }
          else
            let key := (s.line.drop keystart).take (valstart - keystart)
            match ← lookup key kw.keywords with
            | some tag =>
              let (new, newlen) ← putIn di tag key
              let next := s.line.take dollar ++ new
              let line := next ++ (s.line.drop (vallim + 1)).take (s.size - (vallim + 1))
              let newsize := dollar + newlen + (s.size - (vallim + 1))
              return some ⟨line, true, next.length, newsize - next.length, newsize⟩
            | none => return some { s with cp := vallim, left := s.size - vallim }

theorem memchrChecked_ok {line : List Byte} {start n : Nat} {c : Byte} {r : Option Nat}
    (h : memchrChecked line start c n = .ok r) : start + n ≤ line.length ∧ memchr line start c n = r := by
  unfold memchrChecked at h
  split at h
  · exact ⟨‹_›, Except.ok.inj h⟩
  · cases h

/-- Every round leaves less of the line. -/
theorem checkedStep_lt {kw : Keywords} {di : Info} {s s' : Vars}
    (h : checkedStep kw di s = .ok (some s')) :
    s'.line.length - s'.cp < s.line.length - s.cp := by
  simp only [checkedStep, bind, Except.bind, pure, Except.pure] at h
  split at h
  · cases h
  rename_i r hd
  obtain ⟨-, hd⟩ := memchrChecked_ok hd
  cases r with
  | none => cases h
  | some dollar =>
    have h1 := memchr_lt hd
    simp only at h
    split at h
    · cases h
    rename_i r hv
    obtain ⟨-, hv⟩ := memchrChecked_ok hv
    cases r with
    | none => cases h
    | some vallim =>
      have h2 := memchr_lt hv
      simp only at h
      split at h
      · cases h
        simp only
        omega
      split at h
      · cases h
      split at h
      · cases h
        simp only
        omega
      split at h
      · cases h
        simp only
        omega
      split at h
      · cases h
      split at h
      · split at h
        · cases h
        · cases h
          simp only [List.length_append, List.length_take, List.length_drop]
          omega
      · cases h
        simp only
        omega

/-- The loop of `keyword_expand`. -/
def checkedLoop (kw : Keywords) (di : Info) (s : Vars) : Except Stop Vars :=
  match _h : checkedStep kw di s with
  | .error e => .error e
  | .ok none => .ok s
  | .ok (some s') => checkedLoop kw di s'
  termination_by s.line.length - s.cp
  decreasing_by exact checkedStep_lt _h

/-- `keyword_expand`: the new line and its length, or `none` for 0. -/
def keywordExpandChecked (kw : Keywords) (di : Info) (line : List Byte) :
    Except Stop (Option (List Byte × Nat)) :=
  if di.expand = .old ∨ di.expand = .binary then .ok none
  else do
    let s ← checkedLoop kw di ⟨line, false, 0, line.length, line.length⟩
    return if s.newline then some (s.line, s.size) else none

/-! ## The scan from left to right -/

/-- The text of a keyword in a mode. -/
def rendered (mode : Expand) (ident value : List Byte) : List Byte :=
  match mode with
  | .key => 36 :: ident ++ [36]
  | .value => value
  | _ => 36 :: ident ++ [58, 32] ++ value ++ [32, 36]

/-- The value of a keyword; it is empty where there is none. -/
def valueOf (di : Info) (tag : Tag) : List Byte :=
  if h : (rcsdatetotm di.revdate).isSome then (tagExpand tag (di.dated h)).getD [] else []

/-- The length is one that a keyword may have. -/
def InRange (kw : Keywords) (ident : List Byte) : Prop :=
  ident ≠ [] ∧ kw.minkeylen ≤ ident.length ∧ ident.length ≤ kw.maxkeylen

instance (kw : Keywords) (ident : List Byte) : Decidable (InRange kw ident) :=
  inferInstanceAs (Decidable (_ ∧ _ ∧ _))

/-- What `$ident$` or `$ident:text$` becomes, from what is between the dollars. -/
def refField (kw : Keywords) (di : Info) (field : List Byte) : Option (List Byte) :=
  let ident := keyOf field
  if InRange kw ident then
    (kw.keywords.find? fun tag => tag.enabled && tag.ident = ident).map fun tag =>
      rendered di.expand ident (valueOf di tag)
  else none

/-- The fields of the line that are tried. -/
def refFields (kw : Keywords) (di : Info) (line : List Byte) : List (List Byte) :=
  tried 36 (refField kw di) line

/-- The line with its keywords replaced, and its length; `none` where there is none. -/
def reference (kw : Keywords) (di : Info) (line : List Byte) : Option (List Byte × Nat) :=
  if di.expand = .old ∨ di.expand = .binary then none
  else if (refFields kw di line).any fun field => (refField kw di field).isSome then
    some (substFields 36 (refField kw di) line, (substFields 36 (refField kw di) line).length)
  else none

/-- Of a field that is tried, the keyword does not begin with an `ident` and a NUL, and
its date is read where one is needed. -/
def Clear (kw : Keywords) (di : Info) (field : List Byte) : Prop :=
  (InRange kw (keyOf field) → ∀ tag ∈ kw.keywords, tag.enabled = true →
    ¬tag.ident ++ [0] <+: keyOf field) ∧
  (di.expand = .key ∨ (rcsdatetotm di.revdate).isSome ∨ refField kw di field = none)

/-! ## Keywords of the table -/

theorem Tag.at_of_lt {tag : Tag} {i : Nat} (h : i < tag.ident.length) :
    tag.at i = tag.ident[i] := by
  simp [Tag.at, List.getD_eq_getElem?_getD, List.getElem?_append_left h, h]

theorem Tag.at_length (tag : Tag) : tag.at tag.ident.length = 0 := by
  simp [Tag.at, List.getD_eq_getElem?_getD]

/-- `strncmp` with all of an `ident`, or with what is left of it, also stops at its NUL. -/
theorem strncmpEq_iff {tag : Tag} (ht : 0 ∉ tag.ident) (key : List Byte) {i : Nat}
    (hi : i ≤ tag.ident.length) : strncmpEq tag.at i key = true ↔
      key <+: tag.ident.drop i ∨ tag.ident.drop i ++ [0] <+: key := by
  induction key generalizing i with
  | nil => simp [strncmpEq]
  | cons c key ih =>
    simp only [strncmpEq, Bool.and_eq_true, Bool.or_eq_true, decide_eq_true_eq]
    rcases Nat.lt_or_eq_of_le hi with hlt | rfl
    · have hne : tag.ident[i] ≠ 0 := fun h => ht (h ▸ List.getElem_mem hlt)
      rw [Tag.at_of_lt hlt, List.drop_eq_getElem_cons hlt, ih (by omega), List.cons_append,
        List.cons_prefix_cons, List.cons_prefix_cons]
      constructor
      · rintro ⟨rfl, h | h | h⟩
        · exact absurd h hne
        · exact .inl ⟨rfl, h⟩
        · exact .inr ⟨rfl, h⟩
      · rintro (⟨rfl, h⟩ | ⟨h', h⟩)
        · exact ⟨rfl, .inr (.inl h)⟩
        · exact ⟨h', .inr (.inr h)⟩
    · rw [Tag.at_length, List.drop_length, List.nil_append, List.cons_prefix_cons]
      constructor
      · rintro ⟨rfl, -⟩
        exact .inr ⟨rfl, List.nil_prefix⟩
      · rintro (h | ⟨rfl, -⟩)
        · simp at h
        · exact ⟨rfl, .inl rfl⟩

theorem named_iff {tag : Tag} (ht : 0 ∉ tag.ident) {key : List Byte}
    (h : ¬tag.ident ++ [0] <+: key) : tag.named key = decide (tag.ident = key) := by
  have hiff := strncmpEq_iff ht key (Nat.zero_le _)
  rw [List.drop_zero, or_iff_left h] at hiff
  rw [Tag.named, Bool.eq_iff_iff]
  simp only [Bool.and_eq_true, hiff, decide_eq_true_eq]
  constructor
  · rintro ⟨hpre, hat⟩
    refine (hpre.eq_of_length (Nat.le_antisymm hpre.length_le (Nat.not_lt.mp fun hlt => ?_))).symm
    rw [Tag.at_of_lt hlt] at hat
    exact ht (hat ▸ List.getElem_mem hlt)
  · rintro rfl
    exact ⟨List.prefix_rfl, tag.at_length⟩

section Lookup

variable {key : List Byte} {tags : List Tag} (ht : ∀ tag ∈ tags, 0 ∉ tag.ident)

include ht

theorem lookup_eq (h : ∀ tag ∈ tags, ¬tag.ident ++ [0] <+: key) :
    lookup key tags = .ok (tags.find? fun tag => tag.ident = key) := by
  induction tags with
  | nil => rfl
  | cons tag tags ih =>
    have ih := ih (fun t h => ht t (List.mem_cons_of_mem _ h)) fun t h' => h t (List.mem_cons_of_mem _ h')
    have hiff := strncmpEq_iff (ht tag List.mem_cons_self) key (Nat.zero_le _)
    rw [List.drop_zero] at hiff
    have hno := h tag List.mem_cons_self
    rw [lookup, ih, List.find?_cons]
    by_cases hs : strncmpEq tag.at 0 key = true
    · have hpre : key <+: tag.ident := (hiff.mp hs).resolve_right hno
      have hle := hpre.length_le
      rw [if_pos hs, if_neg (by omega)]
      by_cases heq : tag.ident = key
      · subst heq
        rw [if_pos (Tag.at_length tag)]
        simp
      · have hlt : key.length < tag.ident.length :=
          Nat.lt_of_le_of_ne hle fun h => heq (hpre.eq_of_length h).symm
        have hne : tag.at key.length ≠ 0 := by
          rw [Tag.at_of_lt hlt]
          exact fun h => ht tag List.mem_cons_self (h ▸ List.getElem_mem hlt)
        simp [hne, heq]
    · have heq : tag.ident ≠ key := fun h => hs (hiff.mpr (.inl (h ▸ List.prefix_rfl)))
      simp [hs, heq]

theorem lookup_undefined (h : ∃ tag ∈ tags, tag.ident ++ [0] <+: key) :
    lookup key tags = .error .undefined := by
  have hzero : 0 ∈ key := by
    obtain ⟨tag, -, hp⟩ := h
    exact hp.subset (by simp)
  induction tags with
  | nil => simp at h
  | cons tag tags ih =>
    have hiff := strncmpEq_iff (ht tag List.mem_cons_self) key (Nat.zero_le _)
    rw [List.drop_zero] at hiff
    rw [lookup]
    by_cases hp : tag.ident ++ [0] <+: key
    · have hlen : tag.ident.length + 1 ≤ key.length := by simpa using hp.length_le
      rw [if_pos (hiff.mpr (.inr hp)), if_pos (by omega)]
    · rw [if_neg fun hs => ?_]
      · refine ih (fun t h => ht t (List.mem_cons_of_mem _ h)) ?_
        obtain ⟨t, hmem, htp⟩ := h
        rcases List.mem_cons.mp hmem with rfl | hmem
        · exact absurd htp hp
        · exact ⟨t, hmem, htp⟩
      · have hpre := (hiff.mp hs).resolve_right hp
        exact ht tag List.mem_cons_self (hpre.subset hzero)

end Lookup

theorem putIn_eq {di : Info} (h : di.expand = .key ∨ (rcsdatetotm di.revdate).isSome) (tag : Tag)
    (key : List Byte) : putIn di tag key =
      .ok (rendered di.expand key (valueOf di tag), (rendered di.expand key (valueOf di tag)).length) := by
  by_cases hd : (rcsdatetotm di.revdate).isSome
  · have hv : tagExpandChecked tag di = .ok (tagExpand tag (di.dated hd)) := by
      rw [tagExpandChecked, dif_pos hd]
    unfold putIn rendered valueOf
    cases he : di.expand <;> simp [hv, hd, bind, Except.bind, pure, Except.pure] <;> omega
  · have he : di.expand = .key := h.resolve_right hd
    unfold putIn rendered
    rw [he]
    simp
    omega

theorem putIn_exit {di : Info} (hk : di.expand ≠ .key)
    (hd : ¬(rcsdatetotm di.revdate).isSome) (tag : Tag) (key : List Byte) :
    putIn di tag key = .error .exit := by
  have hv : tagExpandChecked tag di = .error .exit := by rw [tagExpandChecked, dif_neg hd]
  unfold putIn
  cases he : di.expand <;> simp_all [bind, Except.bind]

/-! ## One round -/

theorem memchrChecked_append (a rest : List Byte) (c : Byte) :
    memchrChecked (a ++ rest) a.length c rest.length =
      .ok ((cut c rest).map fun p => a.length + p.1.length) := by
  rw [memchrChecked, if_pos (by simp), memchr_append]

section

variable {kw : Keywords} {di : Info} {a w field after : List Byte} {newline : Bool}

/-- A scan at the end of `a`. -/
abbrev Vars.at (a rest : List Byte) (newline : Bool) : Vars :=
  ⟨a ++ rest, newline, a.length, rest.length, a.length + rest.length⟩

theorem checkedStep_none (kw : Keywords) (di : Info) (a : List Byte) (newline : Bool)
    {rest : List Byte} (h : 36 ∉ rest ∨ ∃ w r, 36 ∉ w ∧ 36 ∉ r ∧ rest = w ++ 36 :: r) :
    checkedStep kw di (Vars.at a rest newline) = .ok none := by
  rcases h with h | ⟨w, r, hw, hr, rfl⟩
  · simp only [checkedStep, memchrChecked_append, cut_eq_none.mpr h, Option.map_none, bind,
      Except.bind, pure, Except.pure]
  · have hline : a ++ (w ++ 36 :: r) = (a ++ w ++ [36]) ++ r := by simp
    have hstart : a.length + w.length + 1 = (a ++ w ++ [36]).length := by simp; omega
    have hleft : (w ++ 36 :: r).length - (a.length + w.length + 1 - a.length) = r.length := by
      simp only [List.length_append, List.length_cons]
      omega
    have hv : memchrChecked (a ++ (w ++ 36 :: r)) (a.length + w.length + 1) 36
        ((w ++ 36 :: r).length - (a.length + w.length + 1 - a.length)) = .ok none := by
      rw [hleft, hline, hstart, memchrChecked_append, cut_eq_none.mpr hr, Option.map_none]
    simp only [checkedStep, memchrChecked_append, cut_append hw, Option.map_some, hv, bind,
      Except.bind, pure, Except.pure]

/-- A round over a field. -/
theorem checkedStep_field (kw : Keywords) (di : Info) (a after : List Byte) (newline : Bool)
    (hw : 36 ∉ w) (hf : 36 ∉ field) :
    checkedStep kw di (Vars.at a (w ++ 36 :: (field ++ 36 :: after)) newline) =
      if InRange kw (keyOf field) then do
        match ← lookup (keyOf field) kw.keywords with
        | some tag =>
          let (new, newlen) ← putIn di tag (keyOf field)
          let size := a.length + w.length + newlen + after.length
          return some ⟨a ++ w ++ new ++ after, true, (a ++ w ++ new).length,
            size - (a ++ w ++ new).length, size⟩
        | none => return some (Vars.at (a ++ w ++ 36 :: field) (36 :: after) newline)
      else .ok (some (Vars.at (a ++ w ++ 36 :: field) (36 :: after) newline)) := by
  have hline : a ++ (w ++ 36 :: (field ++ 36 :: after)) =
      (a ++ w ++ [36]) ++ (field ++ 36 :: after) := by simp
  have hleft : (w ++ 36 :: (field ++ 36 :: after)).length - (a.length + w.length + 1 - a.length) =
      (field ++ 36 :: after).length := by
    simp only [List.length_append, List.length_cons]
    omega
  have hstart : a.length + w.length + 1 = (a ++ w ++ [36]).length := by simp; omega
  have hsize : a.length + (w ++ 36 :: (field ++ 36 :: after)).length =
      (a ++ w ++ [36]).length + (field ++ 36 :: after).length := by simp; omega
  have hd : memchrChecked (a ++ (w ++ 36 :: (field ++ 36 :: after))) a.length 36
      (w ++ 36 :: (field ++ 36 :: after)).length = .ok (some (a.length + w.length)) := by
    rw [memchrChecked_append, cut_append hw, Option.map_some]
  -- where the round goes on behind a field that is left alone
  have hskip (left : Nat) (h : left = after.length + 1) :
      (⟨(a ++ w ++ [36]) ++ (field ++ 36 :: after), newline, (a ++ w ++ [36]).length + field.length,
        left, (a ++ w ++ [36]).length + (field ++ 36 :: after).length⟩ : Vars) =
        Vars.at (a ++ w ++ 36 :: field) (36 :: after) newline := by
    subst h
    simp only [Vars.at, Vars.mk.injEq, List.length_append, List.length_cons, List.length_nil,
      List.append_assoc, List.cons_append, List.nil_append, true_and]
    omega
  have hv : memchrChecked (a ++ w ++ [36] ++ (field ++ 36 :: after)) (a ++ w ++ [36]).length 36
      (field ++ 36 :: after).length = .ok (some ((a ++ w ++ [36]).length + field.length)) := by
    rw [memchrChecked_append, cut_append hf, Option.map_some]
  have hcolon : memchrChecked (a ++ w ++ [36] ++ (field ++ 36 :: after)) (a ++ w ++ [36]).length 58
      (field ++ 36 :: after).length = .ok (memchr (a ++ w ++ [36] ++ (field ++ 36 :: after))
        (a ++ w ++ [36]).length 58 (field ++ 36 :: after).length) := by
    rw [memchrChecked, if_pos List.length_append.ge]
  simp only [checkedStep, hd, hleft, bind, Except.bind, pure, Except.pure]
  rw [hstart]
  simp only [hline, hsize, hv, hcolon]
  by_cases hnil : field = []
  · subst hnil
    rw [if_pos (by simp), if_neg (by simp [InRange, keyOf]), ← hskip (after.length + 1) rfl]
    simp
  have hlen : 0 < field.length := List.length_pos_of_ne_nil hnil
  rw [if_neg (by omega)]
  simp only [memchr_colon_iff hnil, valLimit_eq, Nat.add_lt_add_iff_left]
  have hleft' : (field ++ 36 :: after).length -
      ((a ++ w ++ [36]).length + field.length - (a ++ w ++ [36]).length) = after.length + 1 := by
    simp
  have hend : (a ++ w ++ [36]).length + (field ++ 36 :: after).length -
      ((a ++ w ++ [36]).length + field.length) = after.length + 1 := by
    simp only [List.length_append, List.length_cons]
    omega
  rw [hskip _ hleft', hskip _ hend]
  by_cases hk : keyOf field = []
  · rw [if_pos hk, if_neg (by simp [InRange, hk])]
  rw [if_neg hk]
  by_cases hlim : (keyOf field).length < kw.minkeylen ∨ kw.maxkeylen < (keyOf field).length
  · rw [if_pos hlim, if_neg (by simp [InRange]; omega)]
  rw [if_neg hlim, if_pos (by simp [InRange, hk]; omega)]
  have hkey : (((a ++ w ++ [36]) ++ (field ++ 36 :: after)).drop (a ++ w ++ [36]).length).take
      ((a ++ w ++ [36]).length + (keyOf field).length - (a ++ w ++ [36]).length) = keyOf field := by
    rw [List.drop_left, Nat.add_sub_cancel_left]
    have hpre : keyOf field <+: field ++ 36 :: after :=
      (List.takeWhile_prefix _).trans (List.prefix_append _ _)
    exact (List.prefix_iff_eq_take.mp hpre).symm
  have hhead : ((a ++ w ++ [36]) ++ (field ++ 36 :: after)).take (a.length + w.length) =
      a ++ w := by
    rw [List.append_assoc (a ++ w), ← List.length_append, List.take_left]
  have htail : ((a ++ w ++ [36]) ++ (field ++ 36 :: after)).drop
      ((a ++ w ++ [36]).length + field.length + 1) = after := by
    rw [Nat.add_assoc, ← List.drop_drop, List.drop_left, ← List.drop_drop, List.drop_left]
    rfl
  have hcount : (a ++ w ++ [36]).length + (field ++ 36 :: after).length -
      ((a ++ w ++ [36]).length + field.length + 1) = after.length := by
    simp
    omega
  simp only [hkey, hhead, htail, hcount, List.take_length]

theorem refFields_field (kw : Keywords) (di : Info) (after : List Byte) (hw : 36 ∉ w) (hf : 36 ∉ field) :
    refFields kw di (w ++ 36 :: (field ++ 36 :: after)) = field ::
      match refField kw di field with
      | none => refFields kw di (36 :: after)
      | some _ => refFields kw di after := by
  rw [refFields, tried_field after hw hf, tried_append hf]
  cases refField kw di field <;> rfl

variable (hident : ∀ tag ∈ kw.keywords, 0 ∉ tag.ident)

include hident

/-- A round with the enabled keywords of a table, over a field that is clear. -/
theorem checkedStep_clear (a after : List Byte) (newline : Bool) (hw : 36 ∉ w) (hf : 36 ∉ field)
    (hc : Clear kw di field) :
    checkedStep (keywordPrepare kw) di (Vars.at a (w ++ 36 :: (field ++ 36 :: after)) newline) =
      .ok (some (match refField kw di field with
        | none => Vars.at (a ++ w ++ 36 :: field) (36 :: after) newline
        | some new => Vars.at (a ++ w ++ new) after true)) := by
  rw [checkedStep_field _ _ _ _ _ hw hf]
  unfold refField
  by_cases hr : InRange kw (keyOf field)
  · have hlook : lookup (keyOf field) (keywordPrepare kw).keywords =
        .ok (kw.keywords.find? fun tag => tag.enabled && tag.ident = keyOf field) := by
      rw [lookup_eq, keywordPrepare, List.find?_filter]
      · simp
      · exact fun tag ht => hident tag (List.mem_filter.mp ht).1
      · exact fun tag ht => hc.1 hr tag (List.mem_filter.mp ht).1 (List.mem_filter.mp ht).2
    rw [if_pos hr, if_pos (show InRange (keywordPrepare kw) (keyOf field) from hr), hlook]
    cases htag : kw.keywords.find? fun tag => tag.enabled && tag.ident = keyOf field with
    | none => rfl
    | some tag =>
      have hdate : di.expand = .key ∨ (rcsdatetotm di.revdate).isSome := by
        rcases hc.2 with h | h | h
        · exact .inl h
        · exact .inr h
        · simp [refField, hr, htag] at h
      simp only [bind, Except.bind, putIn_eq hdate, pure, Except.pure, Option.map_some, Vars.at]
      congr 2
      simp
      omega
  · rw [if_neg hr, if_neg (show ¬InRange (keywordPrepare kw) (keyOf field) from hr)]

theorem checkedStep_not_clear (a after : List Byte) (newline : Bool) (hw : 36 ∉ w)
    (hf : 36 ∉ field) (hc : ¬Clear kw di field) :
    ∃ e, checkedStep (keywordPrepare kw) di
      (Vars.at a (w ++ 36 :: (field ++ 36 :: after)) newline) = .error e := by
  rw [checkedStep_field _ _ _ _ _ hw hf]
  by_cases hr : InRange kw (keyOf field)
  · rw [if_pos (show InRange (keywordPrepare kw) (keyOf field) from hr)]
    have hident' : ∀ tag ∈ (keywordPrepare kw).keywords, 0 ∉ tag.ident :=
      fun tag ht => hident tag (List.mem_filter.mp ht).1
    by_cases hz : ∃ tag ∈ (keywordPrepare kw).keywords, tag.ident ++ [0] <+: keyOf field
    · rw [lookup_undefined hident' hz]
      exact ⟨.undefined, rfl⟩
    · have hz' : ∀ tag ∈ (keywordPrepare kw).keywords, ¬tag.ident ++ [0] <+: keyOf field :=
        fun tag ht hp => hz ⟨tag, ht, hp⟩
      have hdate : di.expand ≠ .key ∧ ¬(rcsdatetotm di.revdate).isSome ∧
          refField kw di field ≠ none := by
        by_contra hno
        refine hc ⟨fun _ tag ht he => hz' tag (List.mem_filter.mpr ⟨ht, he⟩), ?_⟩
        by_contra hall
        simp only [not_or] at hall
        exact hno ⟨hall.1, hall.2.1, hall.2.2⟩
      obtain ⟨hk, hd, hsome⟩ := hdate
      rw [lookup_eq hident' hz', keywordPrepare, List.find?_filter]
      cases htag : kw.keywords.find? fun tag => tag.enabled && tag.ident = keyOf field with
      | none => simp [refField, htag] at hsome
      | some tag =>
        refine ⟨.exit, ?_⟩
        have : (kw.keywords.find? fun a => decide (a.enabled = true ∧
            decide (a.ident = keyOf field) = true)) = some tag := by
          simpa using htag
        simp only [bind, Except.bind, this, putIn_exit hk hd]
  · exact absurd ⟨fun h => absurd h hr, .inr (.inr (by simp [refField, hr]))⟩ hc

/-! ## The loop -/

theorem checkedLoop_clear (a rest : List Byte) (newline : Bool)
    (hc : ∀ field ∈ refFields kw di rest, Clear kw di field) :
    ∃ cp left, checkedLoop (keywordPrepare kw) di (Vars.at a rest newline) =
      .ok ⟨a ++ substFields 36 (refField kw di) rest,
        newline || (refFields kw di rest).any fun field => (refField kw di field).isSome, cp, left,
        (a ++ substFields 36 (refField kw di) rest).length⟩ := by
  induction hn : rest.length using Nat.strongRecOn generalizing a rest newline with
  | _ n ih =>
    rw [checkedLoop]
    rcases fields_cases 36 rest with h | ⟨w, field, after, hw, hf, rfl⟩
    · have hsub : substFields 36 (refField kw di) rest = rest := by
        rcases h with h | ⟨w, r, hw, hr, rfl⟩
        · exact substFields_notMem h
        · exact substFields_single hw hr
      have htried : refFields kw di rest = [] := tried_eq_nil h
      have hstep := checkedStep_none (keywordPrepare kw) di a newline h
      refine ⟨a.length, rest.length, ?_⟩
      split <;> rename_i hs <;> rw [hstep] at hs <;> cases hs
      simp [hsub, htried]
    · rw [refFields_field kw di after hw hf] at hc ⊢
      have hstep := checkedStep_clear hident a after newline hw hf
        (hc field List.mem_cons_self)
      simp only [List.length_append, List.length_cons] at hn
      split <;> rename_i hs <;> rw [hstep] at hs <;> cases hs
      cases h : refField kw di field with
      | none =>
        rw [h] at hc
        obtain ⟨cp, left, hloop⟩ := ih (after.length + 1) (by omega) (a ++ w ++ 36 :: field)
          (36 :: after) newline (fun f hf => hc f (List.mem_cons_of_mem _ hf)) rfl
        have hfront : substFields 36 (refField kw di) (w ++ 36 :: (field ++ 36 :: after)) =
            w ++ 36 :: field ++ substFields 36 (refField kw di) (36 :: after) := by
          rw [substFields_none hw hf h, substFields_append hf]
          simp
        refine ⟨cp, left, ?_⟩
        simp only [hfront, List.any_cons, h, Option.isSome_none, Bool.false_or,
          ← List.append_assoc] at hloop ⊢
        exact hloop
      | some new =>
        rw [h] at hc
        obtain ⟨cp, left, hloop⟩ := ih after.length (by omega) (a ++ w ++ new) after true
          (fun f hf => hc f (List.mem_cons_of_mem _ hf)) rfl
        refine ⟨cp, left, ?_⟩
        simp only [substFields_some hw hf h, List.any_cons, h, Option.isSome_some, Bool.true_or,
          Bool.or_true, ← List.append_assoc] at hloop ⊢
        exact hloop

theorem checkedLoop_not_clear (a rest : List Byte) (newline : Bool)
    (hc : ¬∀ field ∈ refFields kw di rest, Clear kw di field) :
    ∃ e, checkedLoop (keywordPrepare kw) di (Vars.at a rest newline) = .error e := by
  induction hn : rest.length using Nat.strongRecOn generalizing a rest newline with
  | _ n ih =>
    rw [checkedLoop]
    rcases fields_cases 36 rest with h | ⟨w, field, after, hw, hf, rfl⟩
    · have htried : refFields kw di rest = [] := tried_eq_nil h
      exact absurd (by simp [htried]) hc
    · rw [refFields_field kw di after hw hf, List.forall_mem_cons] at hc
      simp only [List.length_append, List.length_cons] at hn
      by_cases hclear : Clear kw di field
      · have hstep := checkedStep_clear hident a after newline hw hf
          hclear
        have hrest := fun h => hc ⟨hclear, h⟩
        split <;> rename_i hs <;> rw [hstep] at hs <;> cases hs
        cases h : refField kw di field with
        | none =>
          rw [h] at hrest
          exact ih (after.length + 1) (by omega) _ _ newline hrest rfl
        | some new =>
          rw [h] at hrest
          exact ih after.length (by omega) _ _ true hrest rfl
      · obtain ⟨e, hstep⟩ := checkedStep_not_clear hident a after newline hw hf hclear
        refine ⟨e, ?_⟩
        split <;> rename_i hs <;> rw [hstep] at hs <;> cases hs
        rfl

end

theorem keywordExpandChecked_not_clear (kw : Keywords) (di : Info) (line : List Byte)
    (hident : ∀ tag ∈ kw.keywords, 0 ∉ tag.ident)
    (hmode : ¬(di.expand = .old ∨ di.expand = .binary))
    (hc : ¬∀ field ∈ refFields kw di line, Clear kw di field) :
    ∃ e, keywordExpandChecked (keywordPrepare kw) di line = .error e := by
  obtain ⟨e, he⟩ := checkedLoop_not_clear hident [] line false hc
  simp only [Vars.at, List.nil_append, List.length_nil, Nat.zero_add] at he
  exact ⟨e, by simp [keywordExpandChecked, hmode, he, bind, Except.bind]⟩

/-- `keyword_expand` is the scan from left to right if and only if, outside of the modes
that expand nothing, every field that is tried is clear. -/
theorem keywordExpandChecked_iff (kw : Keywords) (di : Info) (line : List Byte)
    (hident : ∀ tag ∈ kw.keywords, 0 ∉ tag.ident) :
    keywordExpandChecked (keywordPrepare kw) di line = .ok (reference kw di line) ↔
      di.expand = .old ∨ di.expand = .binary ∨ ∀ field ∈ refFields kw di line, Clear kw di field := by
  by_cases hmode : di.expand = .old ∨ di.expand = .binary
  · refine iff_of_true ?_ (by rwa [← or_assoc, or_iff_left_of_imp fun _ => hmode])
    rw [keywordExpandChecked, if_pos hmode, reference, if_pos hmode]
  · have hmode' := not_or.mp hmode
    simp only [hmode'.1, hmode'.2, false_or]
    constructor
    · intro h
      by_contra hc
      obtain ⟨e, he⟩ := keywordExpandChecked_not_clear kw di line hident hmode hc
      rw [he] at h
      cases h
    · intro hc
      obtain ⟨cp, left, hloop⟩ := checkedLoop_clear hident [] line false hc
      simp only [Vars.at, List.nil_append, List.length_nil, Nat.zero_add, Bool.false_or] at hloop
      simp only [keywordExpandChecked, reference, if_neg hmode, hloop, bind, Except.bind, pure,
        Except.pure]

/-- Where all is clear, the scan of `Keyword.Defs` is this one. -/
theorem keywordScan_clear {kw : Keywords} {di : Info} (hd : (rcsdatetotm di.revdate).isSome)
    {line : List Byte} (hident : ∀ tag ∈ kw.keywords, 0 ∉ tag.ident)
    (hc : ∀ field ∈ refFields kw di line, Clear kw di field) :
    (keywordScan (keywordPrepare kw) (di.dated hd) line).getD line =
      substFields 36 (refField kw di) line := by
  rw [keywordScan_getD]
  refine substFields_congr fun field hf => ?_
  have hclear := (hc field hf).1
  unfold expandField refField
  by_cases hr : InRange kw (keyOf field)
  · have hnamed : ∀ tag ∈ kw.keywords, (tag.enabled && tag.named (keyOf field)) =
        (tag.enabled && tag.ident = keyOf field) := by
      intro tag ht
      by_cases he : tag.enabled = true
      · simp only [he, Bool.true_and]
        rw [named_iff (hident tag ht) (hclear hr tag ht he)]
      · simp [he]
    have hfind : (keywordPrepare kw).keywords.find? (·.named (keyOf field)) =
        kw.keywords.find? fun tag => tag.enabled && tag.ident = keyOf field := by
      rw [keywordPrepare, List.find?_filter, ← List.head?_filter, ← List.head?_filter]
      refine congrArg _ (List.filter_congr fun tag ht => ?_)
      simpa using hnamed tag ht
    have hno : ¬(keyOf field = [] ∨ (keyOf field).length < (keywordPrepare kw).minkeylen ∨
        (keywordPrepare kw).maxkeylen < (keyOf field).length) := by
      obtain ⟨h1, h2, h3⟩ := hr
      exact fun h => h.elim h1 fun h => by
        have : (keyOf field).length < kw.minkeylen ∨ kw.maxkeylen < (keyOf field).length := h
        omega
    rw [if_neg hno, if_pos hr, hfind]
    refine congrFun (congrArg _ (funext fun tag => ?_)) _
    unfold rendered valueOf
    rw [dif_pos hd]
    rfl
  · have hno : keyOf field = [] ∨ (keyOf field).length < (keywordPrepare kw).minkeylen ∨
        (keywordPrepare kw).maxkeylen < (keyOf field).length := by
      by_contra h
      simp only [not_or, not_lt] at h
      exact hr ⟨h.1, h.2.1, h.2.2⟩
    rw [if_pos hno, if_neg hr]

/-- A line with a keyword. -/
def idLine : List Byte := [36, 73, 100, 36]

/-- A line with a keyword that has a NUL and a letter behind its `Id`. -/
def nulLine : List Byte := [36, 73, 100, 0, 120, 36]

def someInfo : Info :=
  ⟨[102, 44, 118], none, [49, 46, 49],
    [50, 48, 48, 54, 46, 48, 49, 46, 48, 50, 46, 48, 51, 46, 48, 52, 46, 48, 53], [109, 117, 120],
    none, none, .default⟩

theorem refFields_single (kw : Keywords) (di : Info) (field : List Byte) (hf : 36 ∉ field) :
    refFields kw di (36 :: (field ++ [36])) = [field] := by
  have h := refFields_field kw di (w := []) [] List.not_mem_nil hf
  rw [List.nil_append] at h
  rw [h]
  cases refField kw di field with
  | none => exact congrArg _ (tried_eq_nil (.inr ⟨[], [], by simp, by simp, rfl⟩))
  | some new => exact congrArg _ (tried_eq_nil (.inl (by simp)))

theorem keywordExpandChecked_iff_id :
    keywordExpandChecked (keywordPrepare (keywordNew fun _ => 0)) someInfo idLine =
      .ok (reference (keywordNew fun _ => 0) someInfo idLine) := by
  refine (keywordExpandChecked_iff _ someInfo idLine (by decide)).mpr (.inr (.inr fun field hf => ?_))
  obtain rfl : field = [73, 100] := by
    rw [show idLine = 36 :: ([73, 100] ++ [36]) from rfl,
      refFields_single _ _ [73, 100] (by decide)] at hf
    simpa using hf
  exact ⟨fun _ => by decide, .inr (.inl (by decide))⟩

/-- The byte that is looked at behind `Id` in the line `$Id\0x$` is none of the table. -/
theorem not_keywordExpandChecked : ∃ e,
    keywordExpandChecked (keywordPrepare (keywordNew fun _ => 0)) someInfo nulLine = .error e ∧
      reference (keywordNew fun _ => 0) someInfo nulLine = none := by
  have hfields : refFields (keywordNew fun _ => 0) someInfo nulLine = [[73, 100, 0, 120]] :=
    refFields_single _ _ [73, 100, 0, 120] (by decide)
  obtain ⟨e, he⟩ := keywordExpandChecked_not_clear (keywordNew fun _ => 0) someInfo nulLine
    (by decide) (by decide) (by
      rw [hfields]
      intro h
      have hid : tagNew (fun _ => 0) (bytes ['I', 'd']) .id ∈ (keywordNew fun _ => 0).keywords :=
        @List.mem_of_getElem? _ _ 4 _ rfl
      exact (h _ List.mem_cons_self).1 (by decide) _ hid rfl ⟨[120], rfl⟩)
  refine ⟨e, he, ?_⟩
  rw [reference, if_neg (by decide), hfields]
  decide

end Csup.Keyword
