import Mathlib.Data.List.Basic

/-!
# Wildcard patterns over separated names

A pattern is a list of items: a byte of some kind, or a run of bytes (`star`). Only
a literal takes the separator (`Matches`).

`Accepts` adds the two ways of accepting more: below a name that is matched, and
above one, where a separator of the pattern comes next. The second has no effect
behind a star.

* `Matches.split`: a separator of the name is one of the pattern;
* `Matches.count`: there are as many of them;
* `accepts_one`, `accepts_star`: what is left to accept behind an item;
* `Accepts.ancestor`, `accepts_part`: what accepts a name accepts those above it, but
  for the stars.
-/

namespace Csup.Framework.Glob

inductive Item (α : Type*)
  | any
  | star
  | cls (ok : α → Bool)
  | lit (a : α)

variable {α : Type*} [DecidableEq α] {sep : α} {i : Item α} {p : List (Item α)} {s : List α}

/-- Whether an item takes one byte. -/
def Item.takes (sep : α) : Item α → α → Bool
  | any, a => a ≠ sep
  | star, _ => false
  | cls ok, a => a ≠ sep && ok a
  | lit b, a => a = b

inductive Matches (sep : α) : List (Item α) → List α → Prop
  | nil : Matches sep [] []
  | one {i : Item α} {a : α} {p : List (Item α)} {s : List α} (ha : i.takes sep a = true)
    (h : Matches sep p s) : Matches sep (i :: p) (a :: s)
  | star {u : List α} {p : List (Item α)} {s : List α} (hu : sep ∉ u) (h : Matches sep p s) :
    Matches sep (.star :: p) (u ++ s)

theorem takes_sep : i.takes sep sep = true ↔ i = .lit sep := by
  rcases i with - | - | ok | b
  · simp [Item.takes]
  · simp [Item.takes]
  · simp [Item.takes]
  · simp [Item.takes, eq_comm]

theorem matches_nil : Matches sep [] s ↔ s = [] := by
  constructor
  · rintro ⟨⟩
    rfl
  · rintro rfl
    exact .nil

theorem matches_one (hi : i ≠ .star) :
    Matches sep (i :: p) s ↔ ∃ a t, s = a :: t ∧ i.takes sep a = true ∧ Matches sep p t := by
  constructor
  · rintro (- | ⟨ha, h⟩ | -)
    · exact ⟨_, _, rfl, ha, h⟩
    · exact absurd rfl hi
  · rintro ⟨a, t, rfl, ha, h⟩
    exact .one ha h

theorem matches_star :
    Matches sep (.star :: p) s ↔ ∃ u t, s = u ++ t ∧ sep ∉ u ∧ Matches sep p t := by
  constructor
  · rintro (- | ⟨ha, -⟩ | ⟨hu, h⟩)
    · cases ha
    · exact ⟨_, _, rfl, hu, h⟩
  · rintro ⟨u, t, rfl, hu, h⟩
    exact .star hu h

/-- A separator behind a part of the name is behind a part of the pattern. -/
theorem Matches.split {d r : List α} (h : Matches sep p (d ++ sep :: r)) :
    ∃ p₁ p₂, p = p₁ ++ .lit sep :: p₂ ∧ Matches sep p₁ d ∧ Matches sep p₂ r := by
  generalize hs : d ++ sep :: r = s at h
  induction h generalizing d with
  | nil => simp at hs
  | @one i a p s ha h ih =>
    rcases List.cons_eq_append_iff.mp hs.symm with ⟨rfl, hsep⟩ | ⟨d, rfl, hd⟩
    · obtain ⟨rfl, rfl⟩ := List.cons.inj hsep
      obtain rfl := takes_sep.mp ha
      exact ⟨[], p, rfl, .nil, h⟩
    · obtain ⟨p₁, p₂, rfl, h₁, h₂⟩ := ih hd.symm
      exact ⟨i :: p₁, p₂, rfl, h₁.one ha, h₂⟩
  | @star u p s hu h ih =>
    rcases List.append_eq_append_iff.mp hs with ⟨t, rfl, ht⟩ | ⟨t, rfl, ht⟩
    · rcases t with - | ⟨a, t⟩
      · obtain ⟨p₁, p₂, rfl, h₁, h₂⟩ := @ih [] (by simpa using ht)
        refine ⟨.star :: p₁, p₂, rfl, ?_, h₂⟩
        have := h₁.star hu
        simpa using this
      · rw [List.cons_append] at ht
        exact absurd (by simp [(List.cons.inj ht).1]) hu
    · obtain ⟨p₁, p₂, rfl, h₁, h₂⟩ := ih ht.symm
      exact ⟨.star :: p₁, p₂, rfl, h₁.star hu, h₂⟩

/-- The separators of a pattern. -/
def seps (sep : α) (p : List (Item α)) : Nat := p.countP fun i => i.takes sep sep

theorem Matches.count (h : Matches sep p s) : s.count sep = seps sep p := by
  induction h with
  | nil => rfl
  | @one i a p s ha h ih =>
    rw [seps, List.countP_cons, ← seps, List.count_cons, ih]
    congr 1
    by_cases hi : i = .lit sep
    · subst hi
      simp_all [Item.takes]
    · have : a ≠ sep := by
        rintro rfl
        exact hi (takes_sep.mp ha)
      simp [this, takes_sep, hi]
  | @star u p s hu h ih =>
    rw [seps, List.countP_cons, ← seps, List.count_append, ih, List.count_eq_zero.mpr hu]
    simp [Item.takes]

/-! ## Above and below -/

/-- What `p` accepts: what it matches, with `below` also what is below a name that it
matches, with `above` also what a part of it matches that is in front of a separator
and not behind a star. -/
def Accepts (sep : α) (below above : Bool) (p : List (Item α)) (s : List α) : Prop :=
  Matches sep p s ∨ (below = true ∧ ∃ g r, s = g ++ sep :: r ∧ Matches sep p g) ∨
    (above = true ∧ ∃ p₁ p₂, p = p₁ ++ .lit sep :: p₂ ∧ p₁.getLast? ≠ some .star ∧
      Matches sep p₁ s)

variable {below above : Bool}

theorem accepts_nil :
    Accepts sep below above [] s ↔ s = [] ∨ below = true ∧ s.head? = some sep := by
  rw [Accepts, matches_nil]
  apply or_congr_right
  constructor
  · rintro (⟨hb, g, r, rfl, hg⟩ | ⟨-, p₁, p₂, hp, -⟩)
    · rw [matches_nil.mp hg]
      exact ⟨hb, rfl⟩
    · simp at hp
  · rintro ⟨hb, hs⟩
    obtain ⟨r, rfl⟩ := List.head?_eq_some_iff.mp hs
    exact .inl ⟨hb, [], r, rfl, .nil⟩

theorem accepts_one (hi : i ≠ .star) :
    Accepts sep below above (i :: p) s ↔
      (∃ a t, s = a :: t ∧ i.takes sep a = true ∧ Accepts sep below above p t) ∨
        (above = true ∧ i = .lit sep ∧ s = []) := by
  constructor
  · rintro (h | ⟨hb, g, r, rfl, h⟩ | ⟨ha, p₁, p₂, hp, hlast, h⟩)
    · obtain ⟨a, t, rfl, htake, h⟩ := (matches_one hi).mp h
      exact .inl ⟨a, t, rfl, htake, .inl h⟩
    · obtain ⟨a, t, rfl, htake, h⟩ := (matches_one hi).mp h
      exact .inl ⟨a, _, rfl, htake, .inr (.inl ⟨hb, t, r, rfl, h⟩)⟩
    · rcases List.cons_eq_append_iff.mp hp with ⟨rfl, hp⟩ | ⟨p₁, rfl, rfl⟩
      · obtain ⟨rfl, rfl⟩ := List.cons.inj hp
        exact .inr ⟨ha, rfl, matches_nil.mp h⟩
      · obtain ⟨a, t, rfl, htake, h⟩ := (matches_one hi).mp h
        refine .inl ⟨a, t, rfl, htake, .inr (.inr ⟨ha, p₁, p₂, rfl, fun hstar => hlast ?_, h⟩)⟩
        rw [List.getLast?_cons, hstar]
        rfl
  · rintro (⟨a, t, rfl, htake, h | ⟨hb, g, r, rfl, h⟩ | ⟨ha, p₁, p₂, rfl, hlast, h⟩⟩ |
      ⟨ha, rfl, rfl⟩)
    · exact .inl (.one htake h)
    · exact .inr (.inl ⟨hb, a :: g, r, rfl, .one htake h⟩)
    · refine .inr (.inr ⟨ha, i :: p₁, p₂, rfl, ?_, .one htake h⟩)
      rcases p₁ with - | ⟨j, p₁⟩
      · simpa using hi
      · rwa [List.getLast?_cons_cons]
    · exact .inr (.inr ⟨ha, [], p, rfl, by simp, .nil⟩)

/-- What matches the empty name does not begin with a separator. -/
theorem Matches.head_ne (h : Matches sep p []) : p.head? ≠ some (.lit sep) := by
  intro hp
  obtain ⟨p, rfl⟩ := List.head?_eq_some_iff.mp hp
  obtain ⟨a, t, hnil, -⟩ := (matches_one (by simp)).mp h
  cases hnil

/-- Behind a star the separator of the pattern is not looked for at the end. -/
theorem accepts_star :
    Accepts sep below above (.star :: p) s ↔
      ∃ u t, s = u ++ t ∧ sep ∉ u ∧ Accepts sep below above p t ∧
        ¬ (t = [] ∧ p.head? = some (.lit sep)) := by
  constructor
  · rintro (h | ⟨hb, g, r, rfl, h⟩ | ⟨ha, p₁, p₂, hp, hlast, h⟩)
    · obtain ⟨u, t, rfl, hu, h⟩ := matches_star.mp h
      refine ⟨u, t, rfl, hu, .inl h, ?_⟩
      rintro ⟨rfl, hp⟩
      exact h.head_ne hp
    · obtain ⟨u, t, rfl, hu, h⟩ := matches_star.mp h
      refine ⟨u, t ++ sep :: r, by simp, hu, .inr (.inl ⟨hb, t, r, rfl, h⟩), by simp⟩
    · rcases List.cons_eq_append_iff.mp hp with ⟨rfl, hp⟩ | ⟨p₁, rfl, rfl⟩
      · cases (List.cons.inj hp).1
      · obtain ⟨u, t, rfl, hu, h⟩ := matches_star.mp h
        have hne : p₁ ≠ [] := by
          rintro rfl
          exact hlast rfl
        obtain ⟨j, p₁, rfl⟩ := List.exists_cons_of_ne_nil hne
        rw [List.getLast?_cons_cons] at hlast
        refine ⟨u, t, rfl, hu, .inr (.inr ⟨ha, j :: p₁, p₂, rfl, hlast, h⟩), ?_⟩
        rintro ⟨rfl, hp⟩
        exact h.head_ne hp
  · rintro ⟨u, t, rfl, hu, h | ⟨hb, g, r, rfl, h⟩ | ⟨ha, p₁, p₂, rfl, hlast, h⟩, hend⟩
    · exact .inl (.star hu h)
    · exact .inr (.inl ⟨hb, u ++ g, r, by simp, .star hu h⟩)
    · refine .inr (.inr ⟨ha, .star :: p₁, p₂, rfl, ?_, .star hu h⟩)
      rcases p₁ with - | ⟨j, p₁⟩
      · exact absurd ⟨matches_nil.mp h, rfl⟩ hend
      · rwa [List.getLast?_cons_cons]

/-- What accepts a name goes on behind any name above it, or matches it or a name
above it. -/
theorem Accepts.ancestor {d r : List α} (h : Accepts sep true true p (d ++ sep :: r)) :
    (∃ p₁ p₂, p = p₁ ++ .lit sep :: p₂ ∧ Matches sep p₁ d) ∨ Accepts sep true false p d := by
  rcases h with h | ⟨-, g, r', hs, h⟩ | ⟨-, p₁, p₂, rfl, -, h⟩
  · obtain ⟨p₁, p₂, hp, h₁, -⟩ := h.split
    exact .inl ⟨p₁, p₂, hp, h₁⟩
  · rcases List.append_eq_append_iff.mp hs with ⟨t, rfl, ht⟩ | ⟨t, rfl, ht⟩
    · rcases t with - | ⟨a, t⟩
      · rw [List.append_nil] at h
        exact .inr (.inl h)
      · obtain ⟨rfl, -⟩ := List.cons.inj ht
        obtain ⟨p₁, p₂, hp, h₁, -⟩ := h.split
        exact .inl ⟨p₁, p₂, hp, h₁⟩
    · rcases t with - | ⟨a, t⟩
      · rw [List.append_nil]
        exact .inr (.inl h)
      · obtain ⟨rfl, -⟩ := List.cons.inj ht
        exact .inr (.inr (.inl ⟨rfl, g, t, rfl, h⟩))
  · obtain ⟨q₁, q₂, rfl, h₁, -⟩ := h.split
    exact .inl ⟨q₁, q₂ ++ .lit sep :: p₂, by simp, h₁⟩

/-- A part in front of a separator accepts what it matches, but for a star at its
end. -/
theorem accepts_part {p₁ p₂ : List (Item α)} (h : Matches sep p₁ s)
    (hstar : p₁.getLast? ≠ some .star) :
    Accepts sep below true (p₁ ++ .lit sep :: p₂) s :=
  .inr (.inr ⟨rfl, p₁, p₂, rfl, hstar, h⟩)

theorem Accepts.above_of (h : Accepts sep below false p s) : Accepts sep below above p s := by
  rcases h with h | h | ⟨ha, -⟩
  · exact .inl h
  · exact .inr (.inl h)
  · cases ha

end Csup.Framework.Glob
