import Csup.Framework.Fields
import Csup.Framework.Glob
import Csup.Globtree.Fnmatch

/-!
# What `fnmatch` matches

`items` are the wildcards of a pattern. With `FNM_PATHNAME`, `FNM_LEADING_DIR` and
`FNM_PREFIX_DIRS` (and any of the last two) `fnmatch` accepts what they accept
(`fnmatch_eq_zero_iff`), for names that do not end with a slash.
-/

namespace Csup.Globtree

open Csup.Framework
open Csup.Framework.Glob

/-- `FNM_PATHNAME`, with `FNM_LEADING_DIR` and `FNM_PREFIX_DIRS` or not. -/
def pathFlags (below above : Bool) : Flags := ⟨false, true, false, below, false, above⟩

/-! ## Bracket expressions -/

section Bracket

variable {flags : Flags} {p q : List Byte} {b : Byte}

/-- The end of a bracket expression does not depend on the byte that is tested. -/
theorem rangeLoop_snd (test test' : Byte) (p : List Byte) (ok ok' : Bool) :
    (rangeLoop flags test p ok).map Prod.snd = (rangeLoop flags test' p ok').map Prod.snd := by
  fun_induction rangeLoop flags test p ok generalizing ok' with
  | case1 p ok hc =>
    rw [rangeLoop, if_pos hc]
    rfl
  | case2 p ok hc hstep =>
    rw [rangeLoop, if_neg hc]
    split
    · rfl
    · rename_i h
      rw [hstep] at h
      cases h
  | case3 p ok hc step q hstep ih =>
    rw [rangeLoop.eq_def _ test', if_neg hc]
    split
    · rename_i h
      rw [hstep] at h
      cases h
    · rename_i h
      rw [hstep] at h
      cases h
      exact ih _

theorem rangeStep_pathFlags (below above below' above' : Bool) (p : List Byte) :
    rangeStep (pathFlags below above) p = rangeStep (pathFlags below' above') p := rfl

theorem rangeLoop_pathFlags (below above below' above' : Bool) (test : Byte) (p : List Byte)
    (ok : Bool) :
    rangeLoop (pathFlags below above) test p ok = rangeLoop (pathFlags below' above') test p ok := by
  fun_induction rangeLoop (pathFlags below above) test p ok with
  | case1 p ok hc => rw [rangeLoop, if_pos hc]
  | case2 p ok hc hstep =>
    rw [rangeStep_pathFlags below above below' above'] at hstep
    rw [rangeLoop, if_neg hc]
    split
    · rfl
    · rename_i h
      rw [hstep] at h
      cases h
  | case3 p ok hc step q hstep ih =>
    rw [rangeStep_pathFlags below above below' above'] at hstep
    rw [ih, rangeLoop.eq_def _ test p, if_neg hc]
    split
    · rename_i h
      rw [hstep] at h
      cases h
    · rename_i h
      rw [hstep] at h
      cases h
      rfl

/-- The pattern behind the negation of a bracket expression. -/
def members (p : List Byte) : List Byte :=
  if p.head? = some 33 ∨ p.head? = some 94 then p.tail else p

/-- The pattern behind a bracket expression. -/
def bracket (p : List Byte) : Option (List Byte) :=
  (rangeLoop (pathFlags true true) 0 (members p) false).map Prod.snd

theorem bracket_le (h : bracket p = some q) : q.length ≤ p.length := by
  obtain ⟨⟨ok, q⟩, hloop, rfl⟩ := Option.map_eq_some_iff.mp h
  have := rangeLoop_lt hloop
  rw [members] at this
  split at this
  · rw [List.length_tail] at this
    show q.length ≤ _
    omega
  · show q.length ≤ _
    omega

/-- The class of a bracket expression. -/
def inClass (p : List Byte) (b : Byte) : Bool := (rangematch (pathFlags true true) p b).isSome

theorem rangematch_members (p : List Byte) (b : Byte) :
    rangematch (pathFlags true true) p b =
      match rangeLoop (pathFlags true true) b (members p) false with
      | none => none
      | some (ok, q) =>
        if ok = decide (p.head? = some 33 ∨ p.head? = some 94) then none else some q := rfl

theorem rangematch_eq (below above : Bool) (p : List Byte) (b : Byte) :
    rangematch (pathFlags below above) p b = if inClass p b then bracket p else none := by
  have hb : bracket p = (rangeLoop (pathFlags true true) b (members p) false).map Prod.snd :=
    rangeLoop_snd 0 b (members p) false false
  have hflags : rangematch (pathFlags below above) p b = rangematch (pathFlags true true) p b := by
    simp only [rangematch]
    rw [rangeLoop_pathFlags below above true true]
    rfl
  rw [hflags, hb, inClass, rangematch_members]
  rcases rangeLoop (pathFlags true true) b (members p) false with - | ⟨ok, q⟩
  · rfl
  · simp only [Option.map_some]
    split <;> rfl

end Bracket

/-! ## Wildcards -/

/-- The items of a pattern. Nothing is in a bracket expression that is not closed. -/
def items (pattern : List Byte) : List (Item Byte) :=
  match pattern with
  | [] => []
  | c :: p =>
    if c = 63 then .any :: items p
    else if c = 42 then .star :: items (stars p)
    else if c = 91 then
      match _h : bracket p with
      | none => [.cls fun _ => false]
      | some q => .cls (inClass p) :: items q
    else
      .lit (literal (pathFlags true true) c p).1 :: items (literal (pathFlags true true) c p).2
  termination_by pattern.length
  decreasing_by
    · simp
    · have := stars_le p
      simp only [List.length_cons]
      omega
    · have := bracket_le _h
      simp only [List.length_cons]
      omega
    · have := literal_le (pathFlags true true) c p
      simp only [List.length_cons]
      omega

/-- A byte of a pattern that stands for itself or escapes the next one. -/
def Plain (c : Byte) : Prop := c ≠ 63 ∧ c ≠ 42 ∧ c ≠ 91

theorem items_nil : items [] = [] := by rw [items]

theorem items_any (p : List Byte) : items (63 :: p) = .any :: items p := by
  rw [items, if_pos rfl]

theorem items_star (p : List Byte) : items (42 :: p) = .star :: items (stars p) := by
  rw [items, if_neg (by decide), if_pos rfl]

theorem items_bracket (p : List Byte) :
    items (91 :: p) =
      match bracket p with
      | none => [.cls fun _ => false]
      | some q => .cls (inClass p) :: items q := by
  rw [items, if_neg (by decide), if_neg (by decide), if_pos rfl]
  split <;> simp_all

theorem items_plain {c : Byte} (hc : Plain c) (p : List Byte) :
    items (c :: p) =
      .lit (literal (pathFlags true true) c p).1 :: items (literal (pathFlags true true) c p).2 := by
  rw [items, if_neg hc.1, if_neg hc.2.1, if_neg hc.2.2]

/-- Behind stars there is no star. -/
theorem head_stars (p : List Byte) : (stars p).head? ≠ some 42 := by
  intro h
  have := List.head?_dropWhile_not (fun c => decide (c = 42)) p
  rw [← stars, h] at this
  cases this

theorem items_cons {c : Byte} (hc : c ≠ 42) (p : List Byte) :
    ∃ i rest, items (c :: p) = i :: rest ∧ i ≠ .star := by
  by_cases h63 : c = 63
  · subst h63
    exact ⟨_, _, items_any p, by simp⟩
  · by_cases h91 : c = 91
    · subst h91
      rw [items_bracket]
      rcases bracket p with - | q
      · exact ⟨_, _, rfl, by simp⟩
      · exact ⟨_, _, rfl, by simp⟩
    · exact ⟨_, _, items_plain ⟨h63, hc, h91⟩ p, by simp⟩

/-! ## `fnmatch` -/

/-- The loop behind a star tries the places up to the next slash, but not the end. -/
theorem starLoop_eq_zero_iff {flags : Flags} (hpath : flags.pathname = true)
    (inner : List Byte → Int) (s : List Byte) :
    starLoop flags inner s = 0 ↔ ∃ u t, s = u ++ t ∧ 47 ∉ u ∧ t ≠ [] ∧ inner t = 0 := by
  induction s with
  | nil =>
    refine iff_of_false (by simp [starLoop, FNM_NOMATCH]) ?_
    rintro ⟨u, t, h, -, ht, -⟩
    exact ht (List.append_eq_nil_iff.mp h.symm).2
  | cons b s ih =>
    rw [starLoop]
    split
    · rename_i h
      exact iff_of_true rfl ⟨[], b :: s, rfl, by simp, by simp, h⟩
    · rename_i hin
      split
      · rename_i h
        refine iff_of_false (by decide) ?_
        rintro ⟨u, t, hs, hu, -, h0⟩
        rcases u with - | ⟨a, u⟩
        · exact hin (hs ▸ h0)
        · rw [List.cons_append] at hs
          exact hu (by rw [← (List.cons.inj hs).1, h.1]; exact List.mem_cons_self ..)
      · rename_i h
        have hb : b ≠ 47 := fun hb => h ⟨hb, hpath⟩
        rw [ih]
        constructor
        · rintro ⟨u, t, rfl, hu, ht, h0⟩
          exact ⟨b :: u, t, rfl, by simp [hu, Ne.symm hb], ht, h0⟩
        · rintro ⟨u, t, hs, hu, ht, h0⟩
          rcases u with - | ⟨a, u⟩
          · exact absurd (hs ▸ h0) hin
          · rw [List.cons_append] at hs
            obtain ⟨rfl, rfl⟩ := List.cons.inj hs
            exact ⟨u, t, rfl, fun hu' => hu (List.mem_cons_of_mem _ hu'), ht, h0⟩

/-- Where `FNM_PREFIX_DIRS` says what it is meant to: the name does not end with a
slash, and it is not the end of an empty one. -/
def Fit (above : Bool) (before s : List Byte) : Prop :=
  above = true → s.getLast? ≠ some 47 ∧ (s = [] → before ≠ [] ∧ before ≠ [47])

theorem Fit.tail {above : Bool} {before s : List Byte} {b : Byte} (h : Fit above before (b :: s)) :
    Fit above (before ++ [b]) s := by
  intro ha
  obtain ⟨hlast, -⟩ := h ha
  rcases s with - | ⟨c, s⟩
  · refine ⟨by simp, fun _ => ⟨by simp, fun hb => hlast ?_⟩⟩
    rcases before with - | ⟨d, before⟩
    · simpa using hb
    · simp at hb
  · rw [List.getLast?_cons_cons] at hlast
    exact ⟨hlast, fun hnil => by cases hnil⟩

theorem Fit.drop {above : Bool} {before u t : List Byte} (h : Fit above before (u ++ t))
    (ht : t ≠ []) (before' : List Byte) : Fit above before' t := by
  intro ha
  obtain ⟨hlast, -⟩ := h ha
  rw [List.getLast?_append_of_ne_nil _ ht] at hlast
  exact ⟨hlast, fun hnil => absurd hnil ht⟩

/-! ## The first slash -/

theorem exists_first_slash {s : List Byte} (h : 47 ∈ s) : ∃ u t, s = u ++ 47 :: t ∧ 47 ∉ u := by
  obtain ⟨u, t, hs, hu⟩ := List.eq_append_cons_of_mem h
  exact ⟨u, t, hs, hu⟩

theorem ne_slash {u : List Byte} (hu : 47 ∉ u) : ∀ b ∈ u, decide (b ≠ 47) = true := by
  intro b hb
  have : b ≠ 47 := fun h => hu (h ▸ hb)
  simpa using this

theorem takeWhile_slash {u : List Byte} (hu : 47 ∉ u) (t : List Byte) :
    (u ++ 47 :: t).takeWhile (· ≠ 47) = u := by
  rw [List.takeWhile_append_of_pos (ne_slash hu)]
  simp

theorem dropWhile_slash {u : List Byte} (hu : 47 ∉ u) (t : List Byte) :
    (u ++ 47 :: t).dropWhile (· ≠ 47) = 47 :: t := by
  rw [List.dropWhile_append_of_pos (ne_slash hu)]
  simp

/-- The stars of a pattern, when the rest of it is known. -/
theorem fnmatchAt_star_eq_zero_iff {below above : Bool} {p before s : List Byte}
    (hfit : Fit above before s)
    (ih : ∀ before t, Fit above before t →
      (fnmatchAt (pathFlags below above) (stars p) before t = 0 ↔
        Accepts 47 below above (items (stars p)) t)) :
    fnmatchAt (pathFlags below above) (42 :: p) before s = 0 ↔
      Accepts 47 below above (items (42 :: p)) s := by
  have hperiod : leadingPeriod (pathFlags below above) before s = false := by
    simp [leadingPeriod, pathFlags]
  rw [fnmatchAt_star, hperiod, items_star, accepts_star, if_neg (by decide)]
  rcases hp : stars p with - | ⟨d, q⟩
  · -- stars at the end
    simp only [items_nil, accepts_nil]
    show (if true = true ∧ below = false ∧ 47 ∈ s then FNM_NOMATCH else 0) = 0 ↔ _
    split
    · rename_i h
      obtain ⟨-, hb, hs⟩ := h
      refine iff_of_false (by decide) ?_
      rintro ⟨u, t, rfl, hu, rfl | ⟨ht, -⟩, -⟩
      · exact hu (by simpa using hs)
      · rw [hb] at ht
        cases ht
    · rename_i h
      refine iff_of_true rfl ?_
      by_cases hs : 47 ∈ s
      · obtain ⟨u, t, rfl, hu⟩ := exists_first_slash hs
        refine ⟨u, 47 :: t, rfl, hu, .inr ⟨?_, rfl⟩, by simp⟩
        simpa [hs] using h
      · exact ⟨s, [], by simp, hs, .inl rfl, by simp⟩
  · rw [hp] at ih
    simp only
    by_cases hd : d = 47
    · -- the next slash
      subst hd
      have hitems : items (47 :: q) = .lit 47 :: items q := by
        rw [items_plain ⟨by decide, by decide, by decide⟩]
        rfl
      rw [if_pos ⟨rfl, rfl⟩]
      by_cases hs : 47 ∈ s
      · obtain ⟨u, t, rfl, hu⟩ := exists_first_slash hs
        rw [if_pos hs, takeWhile_slash hu t, dropWhile_slash hu t,
          ih _ _ (hfit.drop (by simp) _), hitems]
        constructor
        · intro h
          exact ⟨u, 47 :: t, rfl, hu, h, by simp⟩
        · rintro ⟨u', t', heq, hu', h, hend⟩
          have ht' : ∃ r, t' = 47 :: r := by
            rcases (accepts_one (by simp)).mp h with ⟨a, r, rfl, ha, -⟩ | ⟨-, -, rfl⟩
            · obtain rfl : a = 47 := by simpa [Item.takes] using ha
              exact ⟨r, rfl⟩
            · exact absurd ⟨rfl, by simp⟩ hend
          obtain ⟨r, rfl⟩ := ht'
          have hcut := congrArg (cut 47) heq
          rw [cut_append hu, cut_append hu'] at hcut
          cases hcut
          exact h
      · rw [if_neg hs]
        refine iff_of_false (by decide) ?_
        rintro ⟨u, t, rfl, hu, h, hend⟩
        rw [hitems] at h hend
        rcases (accepts_one (by simp)).mp h with ⟨a, r, rfl, ha, -⟩ | ⟨-, -, rfl⟩
        · obtain rfl : a = 47 := by simpa [Item.takes] using ha
          exact hs (by simp)
        · exact hend ⟨rfl, rfl⟩
    · -- the calls from inside
      have hstar : d ≠ 42 := by
        rintro rfl
        exact head_stars p (by rw [hp]; rfl)
      obtain ⟨i, rest, hitems, hi⟩ := items_cons hstar q
      rw [if_neg fun h => hd h.1, starLoop_eq_zero_iff rfl]
      constructor
      · rintro ⟨u, t, rfl, hu, ht, h⟩
        exact ⟨u, t, rfl, hu, (ih [] t (hfit.drop ht [])).mp h, fun h => ht h.1⟩
      · rintro ⟨u, t, rfl, hu, h, hend⟩
        have ht : t ≠ [] := by
          rintro rfl
          rw [hitems] at h hend
          rcases (accepts_one hi).mp h with ⟨a, r, hnil, -⟩ | ⟨-, rfl, -⟩
          · cases hnil
          · exact hend ⟨rfl, rfl⟩
        exact ⟨u, t, rfl, hu, ht, (ih [] t (hfit.drop ht [])).mpr h⟩

/-- The loop of `fnmatch`, at every place of the pattern and the name. -/
theorem fnmatchAt_eq_zero_iff (below above : Bool) (pattern before s : List Byte)
    (hfit : Fit above before s) :
    fnmatchAt (pathFlags below above) pattern before s = 0 ↔
      Accepts 47 below above (items pattern) s := by
  induction hn : pattern.length using Nat.strongRecOn generalizing pattern before s with
  | _ n ih =>
  have hnomatch : FNM_NOMATCH ≠ 0 := by decide
  rcases pattern with - | ⟨c, p⟩
  · rw [fnmatchAt.eq_def, items_nil, accepts_nil]
    show (if below = true ∧ s.head? = some 47 then 0 else if s = [] then 0 else FNM_NOMATCH) = 0 ↔ _
    split_ifs <;> simp_all
  · have hp : p.length < n := by
      rw [← hn]
      exact Nat.lt_succ_self _
    by_cases h42 : c = 42
    · subst h42
      exact fnmatchAt_star_eq_zero_iff hfit fun before t ht =>
        ih _ (Nat.lt_of_le_of_lt (stars_le p) hp) _ before t ht rfl
    by_cases h63 : c = 63
    · subst h63
      rw [items_any, accepts_one (by simp)]
      rcases s with - | ⟨b, s⟩
      · simp [fnmatchAt_end, hnomatch]
      · rw [fnmatchAt_any]
        by_cases hb : b = 47
        · rw [if_pos ⟨hb, rfl⟩]
          simp [hnomatch, hb, Item.takes]
        · rw [if_neg fun h => hb h.1, if_neg (by simp [leadingPeriod, pathFlags]),
            ih p.length hp p _ s hfit.tail rfl]
          simp [Item.takes, hb]
    by_cases h91 : c = 91
    · subst h91
      have hlen (q : List Byte) (hq : bracket p = some q) : q.length < n :=
        Nat.lt_of_le_of_lt (bracket_le hq) hp
      rw [items_bracket]
      rcases s with - | ⟨b, s⟩
      · rw [fnmatchAt_end _ _ (.inr rfl)]
        refine iff_of_false hnomatch ?_
        rcases bracket p with - | q <;> simp [accepts_one]
      · rw [fnmatchAt_bracket, rangematch_eq]
        by_cases hb : b = 47
        · rw [if_pos ⟨hb, rfl⟩]
          refine iff_of_false hnomatch ?_
          rcases bracket p with - | q <;> simp [accepts_one, Item.takes, hb]
        · rw [if_neg fun h => hb h.1]
          rcases hq : bracket p with - | q
          · simp [accepts_one, Item.takes, hnomatch]
          · by_cases hin : inClass p b = true
            · simp only [hin, if_true]
              rw [ih q.length (hlen q hq) q _ s hfit.tail rfl]
              simp [accepts_one, Item.takes, hb, hin]
            · simp [accepts_one, Item.takes, hin, hnomatch]
    · have hlen := Nat.lt_of_le_of_lt (literal_le (pathFlags true true) c p) hp
      rw [fnmatchAt_plain _ h63 h42 h91, items_plain ⟨h63, h42, h91⟩, accepts_one (by simp),
        show literal (pathFlags below above) c p = literal (pathFlags true true) c p from rfl]
      generalize literal (pathFlags true true) c p = l at hlen ⊢
      rcases s with - | ⟨b, s⟩
      · have hend : (above = true ∧ (l.1 = 47 ∧ before ≠ [] ∨ before = [47])) ↔
            above = true ∧ l.1 = 47 := by
          apply and_congr_right
          intro ha
          obtain ⟨hne, h47⟩ := (hfit ha).2 rfl
          simp [hne, h47]
        show (if above = true ∧ _ then 0 else FNM_NOMATCH) = 0 ↔ _
        simp [hend, hnomatch]
      · show (if l.1 = b then _ else FNM_NOMATCH) = 0 ↔ _
        by_cases hb : l.1 = b
        · rw [if_pos hb, ih _ hlen _ _ s hfit.tail rfl]
          simp [Item.takes, hb]
        · simp [Item.takes, hb, Ne.symm hb, hnomatch]

/-- `fnmatch` of a name that does not end with a slash. -/
theorem fnmatch_eq_zero_iff (p : List Byte) {s : List Byte} (hne : s ≠ [])
    (hs : s.getLast? ≠ some 47) :
    fnmatch p s (FNM_PATHNAME ||| FNM_LEADING_DIR ||| FNM_PREFIX_DIRS) = 0 ↔
      Accepts 47 true true (items p) s :=
  fnmatchAt_eq_zero_iff true true p [] s fun _ => ⟨hs, fun h => absurd h hne⟩

/-- `fnmatch` with `FNM_PATHNAME` only. -/
theorem fnmatch_pathname_iff (p s : List Byte) :
    fnmatch p s FNM_PATHNAME = 0 ↔ Matches 47 (items p) s := by
  rw [show fnmatch p s FNM_PATHNAME = fnmatchAt (pathFlags false false) p [] s from rfl,
    fnmatchAt_eq_zero_iff false false p [] s fun h => by cases h]
  simp [Accepts]

end Csup.Globtree
