import Csup.Framework.Settings
import Csup.Keyword.Checked

/-!
# How a table of keywords is set up

The server adds keywords to a table, and enables and disables keywords of it; then `keyword_prepare`
removes those that are disabled. The table is kept for the next exchange with a server, behind a
failure: the same commands then find what the first ones left.

* `setups_iff`: when all commands are accepted;
* `mem_prepare`: which keywords `keyword_prepare` leaves;
* `view_again`: the same commands once more, on the table that is left;
* `expand_again`: the lines that are expanded with the one and with the other table.
-/

namespace Csup.Keyword

open Csup.Framework (lastValue lastValue_cons substFields_congr tried_subset)

/-- What the server says of a table: `KEYALIAS`, `KEYON` and `KEYOFF`. -/
inductive Setup
  | keyalias (ident rcskey : List Byte)
  | keyon (ident : List Byte)
  | keyoff (ident : List Byte)
  deriving DecidableEq

def names (tags : List Tag) : List (List Byte) := tags.map (·.ident)

/-- The table behind a command; `none` where the function that is called returns -1. -/
def Setup.run (behind : Nat → Byte) (kw : Keywords) : Setup → Option Keywords
  | .keyalias ident rcskey => keywordAlias behind kw ident rcskey
  | .keyon ident =>
    if ident = [46] ∨ (kw.keywords.find? (·.ident = ident)).isSome then
      some (keywordEnable kw ident)
    else none
  | .keyoff ident =>
    if ident = [46] ∨ (kw.keywords.find? (·.ident = ident)).isSome then
      some (keywordDisable kw ident)
    else none

def setups (behind : Nat → Byte) (kw : Keywords) (cs : List Setup) : Option Keywords :=
  cs.foldlM (Setup.run behind) kw

/-- The keyword that must be in the table. -/
def Setup.needs : Setup → Option (List Byte)
  | .keyalias _ rcskey => some rcskey
  | .keyon ident => if ident = [46] then none else some ident
  | .keyoff ident => if ident = [46] then none else some ident

/-- The keyword that is added. -/
def Setup.adds : Setup → Option (List Byte)
  | .keyalias ident _ => some ident
  | _ => none

def added (cs : List Setup) : List (List Byte) := cs.filterMap Setup.adds

variable {behind : Nat → Byte} {kw kw' : Keywords} {c : Setup} {cs : List Setup}

/-! ## Names -/

theorem names_setEnabled (b : Bool) (ident : List Byte) (tags : List Tag) :
    names (setEnabled b ident tags) = names tags := by
  induction tags with
  | nil => rfl
  | cons tag tags ih =>
    rw [setEnabled]
    split
    · exact congrArg (tag.ident :: ·) ih
    · split
      · rfl
      · exact congrArg (tag.ident :: ·) ih

theorem find_rcskey (tags : List Tag) (rcskey : List Byte) :
    (tags.find? (·.ident = rcskey)).isSome ↔ rcskey ∈ names tags := by
  rw [List.find?_isSome, names, List.mem_map]
  exact exists_congr fun tag => and_congr_right fun _ => decide_eq_true_iff

theorem run_iff (behind : Nat → Byte) (kw : Keywords) (c : Setup) :
    (∃ kw', c.run behind kw = some kw') ↔ ∀ n ∈ c.needs, n ∈ names kw.keywords := by
  have hset : ∀ (ident : List Byte) (k : Keywords),
      (∃ kw', (if ident = [46] ∨ (kw.keywords.find? (·.ident = ident)).isSome then some k
        else none) = some kw') ↔
        ∀ n ∈ (if ident = [46] then none else some ident), n ∈ names kw.keywords := by
    intro ident k
    simp only [find_rcskey]
    by_cases h : ident = [46]
    · simp [h]
    · simp [h]
  cases c with
  | keyalias ident rcskey =>
    show (∃ kw', keywordAlias behind kw ident rcskey = some kw') ↔ ∀ n ∈ some rcskey, _
    have hfind := find_rcskey kw.keywords rcskey
    unfold keywordAlias
    cases h : kw.keywords.find? (·.ident = rcskey) with
    | none =>
      rw [h] at hfind
      simpa using hfind
    | some tag =>
      rw [h] at hfind
      simpa using hfind
  | keyon ident => exact hset ident _
  | keyoff ident => exact hset ident _

theorem run_keyalias {ident rcskey : List Byte}
    (h : (Setup.keyalias ident rcskey).run behind kw = some kw') :
    ∃ tag, kw.keywords.find? (·.ident = rcskey) = some tag ∧
      kw' = { kw with keywords := tagNew behind ident tag.key :: kw.keywords } := by
  have h : keywordAlias behind kw ident rcskey = some kw' := h
  unfold keywordAlias at h
  split at h
  · cases h
  · rename_i tag hfind
    exact ⟨tag, hfind, (Option.some.inj h).symm⟩

theorem run_keyon {ident : List Byte} (h : (Setup.keyon ident).run behind kw = some kw') :
    kw' = keywordEnable kw ident := by
  have h : (if ident = [46] ∨ (kw.keywords.find? (·.ident = ident)).isSome then
    some (keywordEnable kw ident) else none) = some kw' := h
  split at h
  · exact (Option.some.inj h).symm
  · cases h

theorem run_keyoff {ident : List Byte} (h : (Setup.keyoff ident).run behind kw = some kw') :
    kw' = keywordDisable kw ident := by
  have h : (if ident = [46] ∨ (kw.keywords.find? (·.ident = ident)).isSome then
    some (keywordDisable kw ident) else none) = some kw' := h
  split at h
  · exact (Option.some.inj h).symm
  · cases h

/-- What a command adds stands in front. -/
theorem names_run (h : c.run behind kw = some kw') :
    names kw'.keywords = c.adds.toList ++ names kw.keywords := by
  cases c with
  | keyalias ident rcskey =>
    obtain ⟨tag, -, rfl⟩ := run_keyalias h
    rfl
  | keyon ident =>
    obtain rfl := run_keyon h
    exact names_setEnabled true ident _
  | keyoff ident =>
    obtain rfl := run_keyoff h
    exact names_setEnabled false ident _

theorem setups_cons (behind : Nat → Byte) (kw : Keywords) (c : Setup) (cs : List Setup) :
    setups behind kw (c :: cs) = c.run behind kw >>= (setups behind · cs) := rfl

theorem added_cons (c : Setup) (cs : List Setup) : added (c :: cs) = c.adds.toList ++ added cs := by
  unfold added
  cases h : c.adds <;> simp [h]

theorem names_setups (h : setups behind kw cs = some kw') :
    names kw'.keywords = (added cs).reverse ++ names kw.keywords := by
  induction cs generalizing kw with
  | nil =>
    obtain rfl := Option.some.inj h
    rfl
  | cons c cs ih =>
    obtain ⟨kw1, h1, h⟩ := Option.bind_eq_some_iff.mp h
    rw [ih h, names_run h1, added_cons, List.reverse_append, List.append_assoc]
    cases c.adds <;> rfl

/-- All commands are accepted when each of them is about a keyword of the table, or about one that
was added before it. -/
theorem setups_iff (behind : Nat → Byte) (kw : Keywords) (cs : List Setup) :
    (∃ kw', setups behind kw cs = some kw') ↔
      ∀ front c back, cs = front ++ c :: back → ∀ n ∈ c.needs,
        n ∈ added front ∨ n ∈ names kw.keywords := by
  induction cs generalizing kw with
  | nil => exact ⟨fun _ front c back h => by simp at h, fun _ => ⟨kw, rfl⟩⟩
  | cons c cs ih =>
    constructor
    · rintro ⟨kw', h⟩
      obtain ⟨kw1, h1, h⟩ := Option.bind_eq_some_iff.mp h
      intro front d back heq n hn
      cases front with
      | nil =>
        obtain ⟨rfl, rfl⟩ := List.cons.inj heq
        exact .inr ((run_iff behind kw c).mp ⟨kw1, h1⟩ n hn)
      | cons c' front =>
        obtain ⟨rfl, rfl⟩ := List.cons.inj heq
        have hrest := (ih kw1).mp ⟨kw', h⟩ front d back rfl n hn
        rw [names_run h1, List.mem_append] at hrest
        rw [added_cons, List.mem_append]
        exact hrest.elim (fun h => .inl (.inr h)) fun h => h.elim (fun h => .inl (.inl h)) .inr
    · intro h
      obtain ⟨kw1, h1⟩ := (run_iff behind kw c).mpr fun n hn =>
        (h [] c cs rfl n hn).resolve_left List.not_mem_nil
      obtain ⟨kw', hrest⟩ := (ih kw1).mpr fun front d back heq n hn => by
        have hn := h (c :: front) d back (by rw [heq]; rfl) n hn
        rw [added_cons, List.mem_append] at hn
        rw [names_run h1, List.mem_append]
        exact hn.elim (fun h => h.elim (fun h => .inr (.inl h)) .inl) fun h => .inr (.inr h)
      exact ⟨kw', Option.bind_eq_some_iff.mpr ⟨kw1, h1, hrest⟩⟩

/-! ## What is found under a name -/

/-- The key of the first keyword of a name, and whether it is enabled. -/
def view (tags : List Tag) (ident : List Byte) : Option (Rcskey × Bool) :=
  (tags.find? (·.ident = ident)).map fun tag => (tag.key, tag.enabled)

theorem view_cons (tag : Tag) (tags : List Tag) (j : List Byte) :
    view (tag :: tags) j = if tag.ident = j then some (tag.key, tag.enabled) else view tags j := by
  unfold view
  rw [List.find?_cons]
  by_cases h : tag.ident = j <;> simp [h]

theorem view_ne_none {tags : List Tag} {j : List Byte} : view tags j ≠ none ↔ j ∈ names tags := by
  rw [← find_rcskey, ← Option.isSome_iff_ne_none, view, Option.isSome_map]

theorem view_setEnabled (b : Bool) (ident : List Byte) (tags : List Tag) (j : List Byte) :
    view (setEnabled b ident tags) j =
      if ident = [46] ∨ ident = j then (view tags j).map fun v => (v.1, b) else view tags j := by
  induction tags with
  | nil => simp [setEnabled, view]
  | cons tag tags ih =>
    rw [setEnabled]
    by_cases hdot : ident = [46]
    · rw [if_pos hdot, view_cons, view_cons, ih]
      simp only [hdot, true_or, if_true]
      by_cases hj : tag.ident = j
      · rw [if_pos hj, if_pos hj]
        rfl
      · rw [if_neg hj, if_neg hj]
    · rw [if_neg hdot]
      by_cases hi : tag.ident = ident
      · rw [if_pos hi, view_cons, view_cons]
        by_cases hj : tag.ident = j
        · rw [if_pos hj, if_pos hj, if_pos (.inr (hi.symm.trans hj))]
          rfl
        · have hij : ¬(ident = [46] ∨ ident = j) := not_or.mpr ⟨hdot, fun h => hj (hi.trans h)⟩
          rw [if_neg hj, if_neg hj, if_neg hij]
      · rw [if_neg hi, view_cons, view_cons, ih]
        by_cases hj : tag.ident = j
        · have hij : ¬(ident = [46] ∨ ident = j) := not_or.mpr ⟨hdot, fun h => hi (hj.trans h.symm)⟩
          rw [if_pos hj, if_pos hj, if_neg hij]
        · rw [if_neg hj, if_neg hj]

/-- What a command does to what is found under a name. -/
def Setup.act (tags : List Tag) (j : List Byte) (c : Setup) (v : Option (Rcskey × Bool)) :
    Option (Rcskey × Bool) :=
  match c with
  | .keyalias ident rcskey =>
    if ident = j then (view tags rcskey).map fun w => (w.1, true) else v
  | .keyon ident => if ident = [46] ∨ ident = j then v.map fun w => (w.1, true) else v
  | .keyoff ident => if ident = [46] ∨ ident = j then v.map fun w => (w.1, false) else v

theorem view_run (h : c.run behind kw = some kw') (j : List Byte) :
    view kw'.keywords j = c.act kw.keywords j (view kw.keywords j) := by
  cases c with
  | keyalias ident rcskey =>
    obtain ⟨tag, hfind, rfl⟩ := run_keyalias h
    have hkey : view kw.keywords rcskey = some (tag.key, tag.enabled) := by
      rw [view, hfind]
      rfl
    rw [view_cons, Setup.act, hkey]
    rfl
  | keyon ident =>
    obtain rfl := run_keyon h
    exact view_setEnabled true ident _ j
  | keyoff ident =>
    obtain rfl := run_keyoff h
    exact view_setEnabled false ident _ j

/-- The key of a name that is not added is kept. -/
theorem key_setups (h : setups behind kw cs = some kw') {j : List Byte} (hj : j ∉ added cs) :
    (view kw'.keywords j).map Prod.fst = (view kw.keywords j).map Prod.fst := by
  induction cs generalizing kw with
  | nil =>
    obtain rfl := Option.some.inj h
    rfl
  | cons c cs ih =>
    obtain ⟨kw1, h1, h⟩ := Option.bind_eq_some_iff.mp h
    rw [added_cons, List.mem_append, not_or] at hj
    rw [ih h hj.2, view_run h1]
    cases c with
    | keyalias ident rcskey =>
      have hne : ident ≠ j := fun heq => hj.1 (by simp [Setup.adds, heq])
      rw [Setup.act, if_neg hne]
    | keyon ident | keyoff ident =>
      rw [Setup.act]
      split
      · rw [Option.map_map]
        rfl
      · rfl

/-! ## What is left of a table -/

/-- What is found behind `keyword_prepare`, where a keyword that is disabled hides none. -/
theorem view_filter {tags : List Tag} {j : List Byte}
    (h : ∀ k, view tags j = some (k, false) → ∀ tag ∈ tags, tag.ident = j → tag.enabled = false) :
    view (tags.filter (·.enabled)) j = (view tags j).filter Prod.snd := by
  induction tags with
  | nil => rfl
  | cons tag tags ih =>
    cases he : tag.enabled with
    | true =>
      rw [List.filter_cons_of_pos he, view_cons, view_cons, he]
      by_cases hj : tag.ident = j
      · rw [if_pos hj, if_pos hj]
        rfl
      · rw [if_neg hj, if_neg hj]
        refine ih fun k hk t ht => h k ?_ t (.tail _ ht)
        rw [view_cons, if_neg hj, hk]
    | false =>
      rw [List.filter_cons_of_neg (by rw [he]; exact Bool.false_ne_true), view_cons, he]
      by_cases hj : tag.ident = j
      · have hnone : view (tags.filter (·.enabled)) j = none := by
          by_contra hne
          obtain ⟨t, ht, hid⟩ := List.mem_map.mp (view_ne_none.mp hne)
          obtain ⟨ht, hon⟩ := List.mem_filter.mp ht
          have hoff := h tag.key (by rw [view_cons, if_pos hj, he]) t (.tail _ ht) hid
          rw [hoff] at hon
          cases hon
        rw [if_pos hj, hnone]
        rfl
      · rw [if_neg hj]
        refine ih fun k hk t ht => h k ?_ t (.tail _ ht)
        rw [view_cons, if_neg hj, hk]

/-- A name that is in the table once hides nothing. -/
theorem hides_nothing {tags : List Tag} {j : List Byte} (h : (names tags).count j ≤ 1) {k : Rcskey}
    (hk : view tags j = some (k, false)) : ∀ tag ∈ tags, tag.ident = j → tag.enabled = false := by
  induction tags with
  | nil => exact fun tag ht => absurd ht List.not_mem_nil
  | cons t tags ih =>
    rw [view_cons] at hk
    by_cases hj : t.ident = j
    · rw [if_pos hj] at hk
      have hoff : t.enabled = false := congrArg Prod.snd (Option.some.inj hk)
      have hcount : (names tags).count j = 0 := by
        have : (names (t :: tags)).count j = (names tags).count j + 1 := by
          rw [names, List.map_cons, hj, List.count_cons_self]
          rfl
        omega
      rw [List.forall_mem_cons]
      refine ⟨fun _ => hoff, fun tag ht hid => ?_⟩
      exact absurd (List.mem_map.mpr ⟨tag, ht, hid⟩) (List.count_eq_zero.mp hcount)
    · rw [if_neg hj] at hk
      have hcount : (names (t :: tags)).count j = (names tags).count j := by
        rw [names, List.map_cons, List.count_cons_of_ne hj]
        rfl
      rw [List.forall_mem_cons]
      exact ⟨fun hid => absurd hid hj, ih (hcount ▸ h) hk⟩

theorem enabled_of_view {tags : List Tag} (hon : ∀ tag ∈ tags, tag.enabled = true) {j : List Byte}
    {k : Rcskey} {e : Bool} (h : view tags j = some (k, e)) : e = true := by
  obtain ⟨tag, hfind, heq⟩ := Option.map_eq_some_iff.mp h
  exact (congrArg Prod.snd heq).symm.trans (hon tag (List.mem_of_find?_eq_some hfind))

theorem nodup_setups (hfresh : (added cs ++ names kw.keywords).Nodup)
    (h : setups behind kw cs = some kw') : (names kw'.keywords).Nodup := by
  rw [names_setups h]
  exact ((List.reverse_perm _).append_right _).nodup_iff.mpr hfresh

theorem view_prepare (h : (names kw.keywords).Nodup) (j : List Byte) :
    view (keywordPrepare kw).keywords j = (view kw.keywords j).filter Prod.snd :=
  view_filter fun _ hk => hides_nothing (List.nodup_iff_count.mp h j) hk

/-- Whether a command turns a keyword on or off. -/
def Setup.turns (j : List Byte) : Setup → Option Bool
  | .keyalias ident _ => if ident = j then some true else none
  | .keyon ident => if ident = [46] ∨ ident = j then some true else none
  | .keyoff ident => if ident = [46] ∨ ident = j then some false else none

theorem lastValue_of_added {j : List Byte} (h : j ∈ added cs) :
    lastValue (Setup.turns j) cs ≠ none := by
  induction cs with
  | nil => exact absurd h List.not_mem_nil
  | cons c cs ih =>
    rw [added_cons, List.mem_append, Option.mem_toList] at h
    rw [lastValue_cons]
    rcases h with h | h
    · have hturns : c.turns j = some true := by
        cases c with
        | keyalias ident rcskey => exact if_pos (Option.some.inj h)
        | keyon ident | keyoff ident => cases h
      rw [hturns]
      cases lastValue (Setup.turns j) cs <;> simp
    · cases hl : lastValue (Setup.turns j) cs with
      | none => exact absurd hl (ih h)
      | some b => simp

/-- A keyword that is there behind a command is as the command turns it, or as it was. -/
theorem turned_run (h : c.run behind kw = some kw') {j : List Byte} :
    (view kw'.keywords j).map Prod.snd = (c.turns j).or ((view kw.keywords j).map Prod.snd) ∨
      view kw.keywords j = none ∧ view kw'.keywords j = none := by
  have hview := view_run h j
  cases c with
  | keyalias ident rcskey =>
    left
    rw [hview, Setup.act, Setup.turns]
    by_cases hj : ident = j
    · rw [if_pos hj, if_pos hj]
      cases hkey : view kw.keywords rcskey with
      | none =>
        have hin := (run_iff behind kw _).mp ⟨kw', h⟩ rcskey rfl
        exact absurd hkey (view_ne_none.mpr hin)
      | some x => rfl
    · rw [if_neg hj, if_neg hj, Option.none_or]
  | keyon ident | keyoff ident =>
    rw [Setup.act] at hview
    rw [hview, Setup.turns]
    by_cases hj : ident = [46] ∨ ident = j
    · rw [if_pos hj, if_pos hj]
      cases view kw.keywords j with
      | none => exact .inr ⟨rfl, rfl⟩
      | some x => exact .inl rfl
    · rw [if_neg hj, if_neg hj]
      exact .inl (Option.none_or).symm

theorem turned_setups (h : setups behind kw cs = some kw') {j : List Byte}
    (hj : view kw'.keywords j ≠ none) : (view kw'.keywords j).map Prod.snd =
      (lastValue (Setup.turns j) cs).or ((view kw.keywords j).map Prod.snd) := by
  induction cs generalizing kw with
  | nil =>
    obtain rfl := Option.some.inj h
    rfl
  | cons c cs ih =>
    obtain ⟨kw1, h1, h⟩ := Option.bind_eq_some_iff.mp h
    rw [ih h, lastValue_cons]
    rcases turned_run (j := j) h1 with heq | ⟨hnone, hnone1⟩
    · rw [heq, Option.or_assoc]
    · -- it is added behind the command
      have hadded : j ∈ added cs := by
        have hin := view_ne_none.mp hj
        rw [names_setups h, List.mem_append, List.mem_reverse] at hin
        exact hin.resolve_right fun hin => view_ne_none.mpr hin hnone1
      cases hl : lastValue (Setup.turns j) cs with
      | none => exact absurd hl (lastValue_of_added hadded)
      | some b => rfl

/-- The keywords that are left: those that are not turned off in the end. -/
theorem mem_prepare {v : Keywords} (hon : ∀ tag ∈ kw.keywords, tag.enabled = true)
    (hfresh : (added cs ++ names kw.keywords).Nodup) (h : setups behind kw cs = some v)
    (j : List Byte) : j ∈ names (keywordPrepare v).keywords ↔
      j ∈ added cs ++ names kw.keywords ∧ lastValue (Setup.turns j) cs ≠ some false := by
  have hin : j ∈ names v.keywords ↔ j ∈ added cs ++ names kw.keywords := by
    rw [names_setups h, List.mem_append, List.mem_reverse, List.mem_append]
  rw [← view_ne_none, view_prepare (nodup_setups hfresh h), ← hin, ← view_ne_none]
  cases hview : view v.keywords j with
  | none => simp
  | some x =>
    obtain ⟨k, b⟩ := x
    have hturned := turned_setups h (j := j) (by rw [hview]; exact Option.some_ne_none _)
    rw [hview] at hturned
    have hlast : lastValue (Setup.turns j) cs = some false ↔ b = false := by
      cases hl : lastValue (Setup.turns j) cs with
      | some b' =>
        rw [hl] at hturned
        have hb : b = b' := Option.some.inj hturned
        rw [hb, Option.some.injEq]
      | none =>
        rw [hl, Option.none_or] at hturned
        obtain ⟨⟨k', b'⟩, hkw, hb⟩ := Option.map_eq_some_iff.mp hturned.symm
        obtain rfl : b' = b := hb
        rw [enabled_of_view hon hkw]
        exact iff_of_false nofun nofun
    simp only [ne_eq, hlast]
    cases b <;> simp

/-! ## The second time -/

/-- The tables while the commands are carried out for the first and for the second time, where `cs`
are to come: what is found in the second one is found in the first. -/
structure Alike (cs : List Setup) (kw kw2 : Keywords) : Prop where
  fresh : ∀ j ∈ added cs, view kw.keywords j = none
  settled : ∀ j, j ∉ added cs →
    view kw2.keywords j = none ∨ view kw2.keywords j = view kw.keywords j

theorem Alike.step {kw2 kw1 kw3 : Keywords} (ha : Alike (c :: cs) kw kw2)
    (hnodup : (added (c :: cs)).Nodup) (h : c.run behind kw = some kw1)
    (h2 : c.run behind kw2 = some kw3) : Alike cs kw1 kw3 := by
  have hsub : ∀ j ∈ added cs, j ∈ added (c :: cs) := fun j hj => by
    rw [added_cons]
    exact List.mem_append_right _ hj
  cases c with
  | keyalias ident rcskey =>
    have hadds : added (.keyalias ident rcskey :: cs) = ident :: added cs := added_cons _ _
    rw [hadds, List.nodup_cons] at hnodup
    -- the keyword that is named has one key in both tables
    have hview : view kw.keywords rcskey ≠ none := view_ne_none.mpr
      ((run_iff behind kw _).mp ⟨kw1, h⟩ rcskey rfl)
    have hview2 : view kw2.keywords rcskey ≠ none := view_ne_none.mpr
      ((run_iff behind kw2 _).mp ⟨kw3, h2⟩ rcskey rfl)
    have heq : view kw2.keywords rcskey = view kw.keywords rcskey :=
      (ha.settled rcskey fun hj => hview (ha.fresh rcskey hj)).resolve_left hview2
    refine ⟨fun j hj => ?_, fun j hj => ?_⟩
    · rw [view_run h, Setup.act, if_neg fun (hij : ident = j) => hnodup.1 (hij ▸ hj)]
      exact ha.fresh j (hsub j hj)
    · rw [view_run h, view_run h2, Setup.act, Setup.act]
      by_cases hij : ident = j
      · rw [if_pos hij, if_pos hij, heq]
        exact .inr rfl
      · rw [if_neg hij, if_neg hij]
        refine ha.settled j ?_
        rw [hadds]
        exact fun hmem => (List.mem_cons.mp hmem).elim (Ne.symm hij) hj
  | keyon ident | keyoff ident =>
    refine ⟨fun j hj => ?_, fun j hj => ?_⟩
    · rw [view_run h, ha.fresh j (hsub j hj), Setup.act]
      split <;> rfl
    · rw [view_run h, view_run h2, Setup.act, Setup.act]
      rcases ha.settled j hj with hn | heq
      · rw [hn]
        exact .inl (by split <;> rfl)
      · rw [heq]
        exact .inr rfl

theorem Alike.run {kw2 v w : Keywords} (ha : Alike cs kw kw2) (hnodup : (added cs).Nodup)
    (h : setups behind kw cs = some v) (h2 : setups behind kw2 cs = some w) (j : List Byte) :
    view w.keywords j = none ∨ view w.keywords j = view v.keywords j := by
  induction cs generalizing kw kw2 with
  | nil =>
    obtain rfl := Option.some.inj h
    obtain rfl := Option.some.inj h2
    exact ha.settled j List.not_mem_nil
  | cons c cs ih =>
    obtain ⟨kw1, h1, h⟩ := Option.bind_eq_some_iff.mp h
    obtain ⟨kw3, h3, h2⟩ := Option.bind_eq_some_iff.mp h2
    have hrest : (added cs).Nodup := by
      rw [added_cons] at hnodup
      exact (List.nodup_append.mp hnodup).2.1
    exact ih (ha.step hnodup h1 h3) hrest h h2

/-- The same commands once more, behind `keyword_prepare`: under every name the same keyword is
found. No keyword that is added has a name of the table, or that of another one. -/
theorem view_again {v w : Keywords} (hon : ∀ tag ∈ kw.keywords, tag.enabled = true)
    (hfresh : (added cs ++ names kw.keywords).Nodup) (h : setups behind kw cs = some v)
    (h2 : setups behind (keywordPrepare v) cs = some w) (j : List Byte) :
    view (keywordPrepare w).keywords j = view (keywordPrepare v).keywords j := by
  obtain ⟨hadded, -, hdisjoint⟩ := List.nodup_append.mp hfresh
  -- what is found behind the first commands
  have hv := view_prepare (nodup_setups hfresh h)
  have halike : Alike cs kw (keywordPrepare v) := by
    refine ⟨fun j hj => ?_, fun j hj => ?_⟩
    · by_contra hne
      exact hdisjoint j hj j (view_ne_none.mp hne) rfl
    · have hkey := key_setups h hj
      rw [hv j]
      cases hview : view v.keywords j with
      | none => exact .inl rfl
      | some x =>
        obtain ⟨k, e⟩ := x
        cases e with
        | false => exact .inl rfl
        | true =>
          right
          rw [hview] at hkey
          obtain ⟨x, hkw, hx⟩ := Option.map_eq_some_iff.mp hkey.symm
          obtain ⟨k', e⟩ := x
          obtain rfl : k' = k := hx
          obtain rfl := enabled_of_view hon hkw
          rw [hkw]
          rfl
  have hall := halike.run hadded h h2
  -- a keyword that is found enabled is in the table from the beginning
  have hthere : ∀ {j k}, view v.keywords j = some (k, true) → view w.keywords j ≠ none := by
    intro j k hview
    have hin : j ∈ names (keywordPrepare v).keywords := view_ne_none.mp (by rw [hv j, hview]; simp)
    rw [view_ne_none, names_setups h2]
    exact List.mem_append_right _ hin
  have hw : view (keywordPrepare w).keywords j = (view w.keywords j).filter Prod.snd := by
    refine view_filter fun k hk => hides_nothing ?_ hk
    have hout : j ∉ names (keywordPrepare v).keywords := by
      intro hin
      have hview := view_ne_none.mpr hin
      rw [hv j] at hview
      rcases hall j with hnone | heq
      · rw [hk] at hnone
        cases hnone
      · rw [← heq, hk] at hview
        exact hview rfl
    rw [names_setups h2, List.count_append, List.count_eq_zero.mpr hout, List.count_reverse]
    exact List.nodup_iff_count.mp hadded j
  rw [hw, hv j]
  rcases hall j with hnone | heq
  · rw [hnone]
    cases hview : view v.keywords j with
    | none => rfl
    | some x =>
      obtain ⟨k, e⟩ := x
      cases e with
      | false => rfl
      | true => exact absurd hnone (hthere hview)
  · rw [heq]

/-! ## What is made of a line -/

theorem lens_run (h : c.run behind kw = some kw') :
    kw'.minkeylen = kw.minkeylen ∧ kw'.maxkeylen = kw.maxkeylen := by
  cases c with
  | keyalias ident rcskey =>
    obtain ⟨tag, -, rfl⟩ := run_keyalias h
    exact ⟨rfl, rfl⟩
  | keyon ident =>
    obtain rfl := run_keyon h
    exact ⟨rfl, rfl⟩
  | keyoff ident =>
    obtain rfl := run_keyoff h
    exact ⟨rfl, rfl⟩

/-- The bounds on the length of a keyword are those of the table in the beginning. -/
theorem lens_setups (h : setups behind kw cs = some kw') :
    kw'.minkeylen = kw.minkeylen ∧ kw'.maxkeylen = kw.maxkeylen := by
  induction cs generalizing kw with
  | nil =>
    obtain rfl := Option.some.inj h
    exact ⟨rfl, rfl⟩
  | cons c cs ih =>
    obtain ⟨kw1, h1, h⟩ := Option.bind_eq_some_iff.mp h
    exact ⟨(ih h).1.trans (lens_run h1).1, (ih h).2.trans (lens_run h1).2⟩

theorem replacement_congr (di : Diffinfo) {t t' : Tag} (h : t.key = t'.key) (key : List Byte) :
    replacement di t key = replacement di t' key := by
  have hexpand : tagExpand t di = tagExpand t' di := by
    unfold tagExpand
    rw [h]
  unfold replacement
  rw [hexpand]

/-- The keyword of a field is looked up by its name. -/
theorem find_named {tags : List Tag} (hident : ∀ n ∈ names tags, 0 ∉ n) {key : List Byte}
    (hkey : 0 ∉ key) : tags.find? (·.named key) = tags.find? (·.ident = key) := by
  rw [← List.head?_filter, ← List.head?_filter]
  refine congrArg _ (List.filter_congr fun tag ht => ?_)
  refine named_iff (hident _ (List.mem_map.mpr ⟨tag, ht, rfl⟩)) fun hpre => hkey ?_
  exact hpre.subset (List.mem_append_right _ (List.mem_singleton.mpr rfl))

theorem expandField_congr {v w : Keywords} (hident : ∀ n ∈ names v.keywords, 0 ∉ n)
    (hident' : ∀ n ∈ names w.keywords, 0 ∉ n)
    (hlens : w.minkeylen = v.minkeylen ∧ w.maxkeylen = v.maxkeylen)
    (hview : ∀ j, (view w.keywords j).map Prod.fst = (view v.keywords j).map Prod.fst)
    (di : Diffinfo) {field : List Byte} (hfield : 0 ∉ field) :
    expandField w di field = expandField v di field := by
  have hkey : 0 ∉ keyOf field := fun hmem => hfield (List.takeWhile_subset _ hmem)
  unfold expandField
  rw [hlens.1, hlens.2]
  refine if_congr Iff.rfl rfl ?_
  rw [find_named hident hkey, find_named hident' hkey]
  have hfound := hview (keyOf field)
  unfold view at hfound
  rw [Option.map_map, Option.map_map] at hfound
  cases hv : v.keywords.find? (·.ident = keyOf field) with
  | none =>
    rw [hv] at hfound
    rw [Option.map_eq_none_iff.mp hfound]
  | some t =>
    rw [hv] at hfound
    obtain ⟨t', ht', hkeys⟩ := Option.map_eq_some_iff.mp hfound
    rw [ht']
    exact congrArg some (replacement_congr di hkeys _)

/-- The same commands once more: every line is expanded as before. -/
theorem expand_again {v w : Keywords} (hon : ∀ tag ∈ kw.keywords, tag.enabled = true)
    (hfresh : (added cs ++ names kw.keywords).Nodup)
    (hident : ∀ n ∈ added cs ++ names kw.keywords, 0 ∉ n) (h : setups behind kw cs = some v)
    (h2 : setups behind (keywordPrepare v) cs = some w) (di : Diffinfo) {line : List Byte}
    (hline : 0 ∉ line) :
    (keywordScan (keywordPrepare w) di line).getD line =
      (keywordScan (keywordPrepare v) di line).getD line := by
  have hsub : ∀ {tags : List Tag}, names (tags.filter (·.enabled)) ⊆ names tags := fun {tags} =>
    List.map_subset _ (List.filter_subset_self _)
  have hv : ∀ n ∈ names v.keywords, 0 ∉ n := by
    intro n hn
    rw [names_setups h, List.mem_append, List.mem_reverse, ← List.mem_append] at hn
    exact hident n hn
  have hw : ∀ n ∈ names w.keywords, 0 ∉ n := by
    intro n hn
    rw [names_setups h2, List.mem_append, List.mem_reverse] at hn
    exact hn.elim (fun hn => hident n (List.mem_append_left _ hn)) fun hn => hv n (hsub hn)
  have hlens : w.minkeylen = (keywordPrepare v).minkeylen ∧
      w.maxkeylen = (keywordPrepare v).maxkeylen := lens_setups h2
  rw [keywordScan_getD, keywordScan_getD]
  refine substFields_congr fun field hf => ?_
  refine expandField_congr (v := keywordPrepare v) (w := keywordPrepare w)
    (fun n hn => hv n (hsub hn)) (fun n hn => hw n (hsub hn)) hlens
    (fun j => congrArg _ (view_again hon hfresh h h2 j)) di fun hmem => ?_
  exact hline (tried_subset hf hmem)

end Csup.Keyword
