import Mathlib.Data.List.Pairwise
import Mathlib.Data.List.TakeWhile
import Mathlib.Order.Lattice

/-!
# Updates of a sorted list

A list is sorted by a rank. Updates in the order of their ranks each put an element in the
place of the one with its rank, or drop that one; they are carried out while the list is
passed by once (`updated`).

* `pairwise_updated`: what comes out is sorted;
* `mem_updated`: it is what was put, and what was there and has not been updated.
-/

namespace Csup.Framework

variable {ρ β : Type*} [LinearOrder β]

inductive Update (ρ β : Type*)
  | put (x : ρ)
  | drop (k : β)

/-- The rank that an update is for. -/
def Update.rank (f : ρ → β) : Update ρ β → β
  | put x => f x
  | drop k => k

/-- The element that an update adds. -/
def Update.added : Update ρ β → List ρ
  | put x => [x]
  | drop _ => []

/-- What is passed by on the way to a rank. -/
def below (f : ρ → β) (k : β) (xs : List ρ) : List ρ := xs.takeWhile fun x => decide (f x < k)

/-- What is behind the place of a rank. -/
def above (f : ρ → β) (k : β) (xs : List ρ) : List ρ := xs.dropWhile fun x => decide (f x ≤ k)

def updated (f : ρ → β) : List ρ → List (Update ρ β) → List ρ
  | xs, [] => xs
  | xs, u :: us => below f (u.rank f) xs ++ u.added ++ updated f (above f (u.rank f) xs) us

section

variable {f : ρ → β} {xs : List ρ} {k : β} {x : ρ}

theorem lt_of_mem_below (h : x ∈ below f k xs) : f x < k := by
  simpa using List.mem_takeWhile_imp h

theorem mem_of_mem_below (h : x ∈ below f k xs) : x ∈ xs := (List.takeWhile_sublist _).mem h

theorem above_sublist : (above f k xs).Sublist xs := List.dropWhile_sublist _

/-- A sorted list is what is passed by, at most one element of the rank, and what is behind. -/
theorem exists_at (h : xs.Pairwise fun a b => f a < f b) :
    ∃ here, xs = below f k xs ++ here ++ above f k xs ∧ ∀ x ∈ here, f x = k := by
  induction xs with
  | nil => exact ⟨[], rfl, nofun⟩
  | cons x xs ih =>
    obtain ⟨hx, hxs⟩ := List.pairwise_cons.mp h
    obtain ⟨l, hl, hall⟩ := ih hxs
    rcases lt_trichotomy (f x) k with hlt | heq | hgt
    · refine ⟨l, ?_, hall⟩
      rw [below, above, List.takeWhile_cons_of_pos (by simpa using hlt),
        List.dropWhile_cons_of_pos (by simpa using hlt.le)]
      exact congrArg (x :: ·) hl
    · -- what is behind it is greater
      have hgt : ∀ y ∈ xs, k < f y := fun y hy => heq ▸ hx y hy
      refine ⟨[x], ?_, by simpa using heq⟩
      have habove : xs.dropWhile (fun y => decide (f y ≤ k)) = xs := by
        cases xs with
        | nil => rfl
        | cons y ys => exact List.dropWhile_cons_of_neg (by simpa using hgt y (.head _))
      rw [below, above, List.takeWhile_cons_of_neg (by simp [heq]),
        List.dropWhile_cons_of_pos (by simp [heq]), habove]
      rfl
    · refine ⟨[], ?_, nofun⟩
      rw [below, above, List.takeWhile_cons_of_neg (by simpa using hgt.le),
        List.dropWhile_cons_of_neg (by simpa using hgt)]
      rfl

/-- Where passing by ends. -/
theorem while_append {p : ρ → Bool} {xs ys : List ρ} (hxs : ∀ x ∈ xs, p x)
    (hys : ∀ y ∈ ys.head?, p y = false) :
    (xs ++ ys).takeWhile p = xs ∧ (xs ++ ys).dropWhile p = ys := by
  rw [List.takeWhile_append_of_pos hxs, List.dropWhile_append_of_pos hxs]
  cases ys with
  | nil => simp
  | cons y ys =>
    have hy := hys y rfl
    simp [hy]

theorem lt_of_mem_above (h : xs.Pairwise fun a b => f a < f b) (hx : x ∈ above f k xs) :
    k < f x := by
  cases hs : above f k xs with
  | nil => simp [hs] at hx
  | cons y ys =>
    have hy : ¬f y ≤ k := by
      have := List.head?_dropWhile_not (fun x => decide (f x ≤ k)) xs
      rw [← above, hs] at this
      simpa using this
    have hsorted := h.sublist (above_sublist (f := f) (k := k))
    rw [hs] at hx hsorted
    rcases List.mem_cons.mp hx with rfl | hx
    · exact not_le.mp hy
    · exact (not_le.mp hy).trans (List.rel_of_pairwise_cons hsorted hx)

/-- An element with another rank is on one of the sides. -/
theorem mem_below_or_above (h : xs.Pairwise fun a b => f a < f b) (hx : x ∈ xs) (hne : f x ≠ k) :
    x ∈ below f k xs ∨ x ∈ above f k xs := by
  obtain ⟨l, hl, hall⟩ := exists_at (k := k) h
  rw [hl, List.mem_append, List.mem_append] at hx
  rcases hx with (hx | hx) | hx
  · exact .inl hx
  · exact absurd (hall x hx) hne
  · exact .inr hx

theorem mem_updated {us : List (Update ρ β)} (h : xs.Pairwise fun a b => f a < f b)
    (hus : us.Pairwise fun u v => u.rank f < v.rank f) :
    x ∈ updated f xs us ↔ .put x ∈ us ∨ x ∈ xs ∧ ∀ u ∈ us, u.rank f ≠ f x := by
  induction us generalizing xs with
  | nil => simp [updated]
  | cons u us ih =>
    obtain ⟨hu, hus⟩ := List.pairwise_cons.mp hus
    have hadded : x ∈ u.added ↔ Update.put x = u := by
      cases u <;> simp [Update.added, eq_comm]
    rw [updated, List.mem_append, List.mem_append, ih (h.sublist above_sublist) hus, hadded,
      List.mem_cons, List.forall_mem_cons]
    constructor
    · rintro ((hx | rfl) | hx | ⟨hx, hall⟩)
      · have hlt := lt_of_mem_below hx
        exact .inr ⟨mem_of_mem_below hx, hlt.ne', fun v hv => (hlt.trans (hu v hv)).ne'⟩
      · exact .inl (.inl rfl)
      · exact .inl (.inr hx)
      · exact .inr ⟨above_sublist.mem hx, (lt_of_mem_above h hx).ne, hall⟩
    · rintro ((hx | hx) | ⟨hx, hne, hall⟩)
      · exact .inl (.inr hx)
      · exact .inr (.inl hx)
      · rcases mem_below_or_above h hx hne.symm with hx | hx
        · exact .inl (.inl hx)
        · exact .inr (.inr ⟨hx, hall⟩)

theorem pairwise_updated {us : List (Update ρ β)} (h : xs.Pairwise fun a b => f a < f b)
    (hus : us.Pairwise fun u v => u.rank f < v.rank f) :
    (updated f xs us).Pairwise fun a b => f a < f b := by
  induction us generalizing xs with
  | nil => exact h
  | cons u us ih =>
    obtain ⟨hu, hus⟩ := List.pairwise_cons.mp hus
    have habove := h.sublist (above_sublist (f := f) (k := u.rank f))
    have hrank : ∀ x ∈ u.added, f x = u.rank f := by
      cases u <;> simp [Update.added, Update.rank]
    -- what is behind the place is greater
    have hgt : ∀ x ∈ updated f (above f (u.rank f) xs) us, u.rank f < f x := by
      intro x hx
      rcases (mem_updated habove hus).mp hx with hx | ⟨hx, -⟩
      · exact hu _ hx
      · exact lt_of_mem_above h hx
    have hadded : u.added.Pairwise fun a b => f a < f b := by
      cases u <;> simp [Update.added]
    rw [updated, List.pairwise_append, List.pairwise_append]
    refine ⟨⟨h.sublist (List.takeWhile_sublist _), hadded, fun x hx y hy => ?_⟩, ih habove hus,
      fun x hx y hy => ?_⟩
    · exact hrank y hy ▸ lt_of_mem_below hx
    · rcases List.mem_append.mp hx with hx | hx
      · exact (lt_of_mem_below hx).trans (hgt y hy)
      · exact hrank x hx ▸ hgt y hy

end

end Csup.Framework
