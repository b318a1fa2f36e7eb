import Mathlib.Data.List.Basic

/-!
# Lines

A list of symbols cut after every occurrence of a separator `nl`, the way a
line reader returns it: each line keeps its separator, and only the last one
may lack it.

* `splitLines`: the lines of a list, and `flatten_splitLines`: put together
  again they are the list;
* `IsText`: the lists of lines that are the lines of something, and
  `splitLines_flatten`: cutting a text put together gives its lines back.
-/

namespace Csup.Framework

variable {α : Type*} {nl : α}

/-! ## Texts -/

/-- A line with its separator: the separator is its last symbol and occurs
nowhere else. -/
def FullLine (nl : α) (l : List α) : Prop :=
  ∃ w, nl ∉ w ∧ l = w ++ [nl]

/-- The last line of a text: it may lack the separator, but is not empty. -/
def LastLine (nl : α) (l : List α) : Prop :=
  l ≠ [] ∧ nl ∉ l.dropLast

/-- A list of lines of which only the last may lack its separator. -/
def IsText (nl : α) : List (List α) → Prop
  | [] => True
  | [l] => LastLine nl l
  | l :: ls => FullLine nl l ∧ IsText nl ls

theorem FullLine.lastLine {l : List α} (h : FullLine nl l) : LastLine nl l := by
  obtain ⟨w, hw, rfl⟩ := h
  exact ⟨by simp, by simpa using hw⟩

theorem LastLine.full {l : List α} (h : LastLine nl l) (hl : l.getLast? = some nl) :
    FullLine nl l := by
  refine ⟨l.dropLast, h.2, ?_⟩
  rw [List.getLast?_eq_some_iff] at hl
  obtain ⟨ys, rfl⟩ := hl
  simp

@[simp] theorem isText_nil : IsText nl ([] : List (List α)) := trivial

@[simp] theorem isText_singleton {l : List α} : IsText nl [l] ↔ LastLine nl l := Iff.rfl

theorem isText_cons {l : List α} {ls : List (List α)} (hls : ls ≠ []) :
    IsText nl (l :: ls) ↔ FullLine nl l ∧ IsText nl ls := by
  cases ls with
  | nil => exact absurd rfl hls
  | cons l' ls => exact Iff.rfl

theorem IsText.tail {l : List α} {ls : List (List α)} (h : IsText nl (l :: ls)) : IsText nl ls := by
  cases ls with
  | nil => trivial
  | cons l' ls => exact h.2

theorem IsText.lastLine {ls : List (List α)} (h : IsText nl ls) : ∀ l ∈ ls, LastLine nl l := by
  induction ls with
  | nil => intro l hl; cases hl
  | cons a ls ih =>
    intro l hl
    rcases List.mem_cons.mp hl with rfl | hl
    · cases ls with
      | nil => exact h
      | cons b ls => exact h.1.lastLine
    · exact ih h.tail l hl

/-- Two lists of lines, the second not empty, make a text iff the first has
only full lines and the second is a text. -/
theorem isText_append {xs ys : List (List α)} (hys : ys ≠ []) :
    IsText nl (xs ++ ys) ↔ (∀ l ∈ xs, FullLine nl l) ∧ IsText nl ys := by
  induction xs with
  | nil => simp
  | cons x xs ih =>
    rw [List.cons_append, isText_cons (by simp [hys]), ih]
    simp [and_assoc]

theorem IsText.append_right {xs ys : List (List α)} (h : IsText nl (xs ++ ys)) : IsText nl ys := by
  by_cases hys : ys = []
  · simp [hys]
  · exact ((isText_append hys).mp h).2

theorem IsText.append_left {xs ys : List (List α)} (h : IsText nl (xs ++ ys)) : IsText nl xs := by
  induction xs with
  | nil => trivial
  | cons x xs ih =>
    cases xs with
    | nil => exact IsText.lastLine h x (by simp)
    | cons x' xs => exact ⟨h.1, ih h.2⟩

theorem isText_of_full {ls : List (List α)} (h : ∀ l ∈ ls, FullLine nl l) : IsText nl ls := by
  induction ls with
  | nil => trivial
  | cons l ls ih =>
    cases ls with
    | nil => exact (h l (by simp)).lastLine
    | cons l' ls => exact ⟨h l (by simp), ih fun x hx => h x (by simp [hx])⟩

/-! ## Cutting -/

variable [DecidableEq α]

/-- The lines of a list, each with its separator. -/
def splitLines (nl : α) : List α → List (List α)
  | [] => []
  | a :: as =>
    if a = nl then [a] :: splitLines nl as
    else match splitLines nl as with
      | [] => [[a]]
      | l :: ls => (a :: l) :: ls

theorem flatten_splitLines (nl : α) (as : List α) : (splitLines nl as).flatten = as := by
  induction as with
  | nil => rfl
  | cons a as ih =>
    simp only [splitLines]
    split
    · rw [List.flatten_cons, ih]; rfl
    · split <;> rename_i h <;> rw [h] at ih
      · rw [← ih]; rfl
      · rw [← ih]; rfl

theorem splitLines_append_full {w as : List α} (hw : nl ∉ w) :
    splitLines nl (w ++ nl :: as) = (w ++ [nl]) :: splitLines nl as := by
  induction w with
  | nil => simp [splitLines]
  | cons a w ih =>
    have ha : a ≠ nl := fun h => hw (by simp [h])
    have := ih fun h => hw (by simp [h])
    simp only [List.cons_append, splitLines, if_neg ha, this]

theorem splitLines_of_notMem {w : List α} (hw : nl ∉ w) (hne : w ≠ []) :
    splitLines nl w = [w] := by
  induction w with
  | nil => exact absurd rfl hne
  | cons a w ih =>
    have ha : a ≠ nl := fun h => hw (by simp [h])
    have hw' : nl ∉ w := fun h => hw (by simp [h])
    simp only [splitLines, if_neg ha]
    by_cases h : w = []
    · subst h; rfl
    · rw [ih hw' h]

theorem splitLines_lastLine {l : List α} (h : LastLine nl l) : splitLines nl l = [l] := by
  obtain ⟨hne, hw⟩ := h
  rcases List.eq_nil_or_concat l with rfl | ⟨w, a, rfl⟩
  · exact absurd rfl hne
  rw [List.concat_eq_append, List.dropLast_concat] at hw
  rw [List.concat_eq_append]
  by_cases ha : a = nl
  · subst ha
    rw [splitLines_append_full hw]; rfl
  · exact splitLines_of_notMem (by simpa using ⟨hw, fun h => ha h.symm⟩) (by simp)

theorem splitLines_fullLine {l as : List α} (h : FullLine nl l) :
    splitLines nl (l ++ as) = l :: splitLines nl as := by
  obtain ⟨w, hw, rfl⟩ := h
  rw [List.append_assoc]
  exact splitLines_append_full hw

/-- The lines of a text put together are those of the text. -/
theorem splitLines_flatten {ls : List (List α)} (h : IsText nl ls) :
    splitLines nl ls.flatten = ls := by
  induction ls with
  | nil => rfl
  | cons l ls ih =>
    cases ls with
    | nil => simpa using splitLines_lastLine h
    | cons l' ls =>
      rw [List.flatten_cons, splitLines_fullLine h.1, ih h.2]

/-- What a line reader returns is a text. -/
theorem isText_splitLines (nl : α) (as : List α) : IsText nl (splitLines nl as) := by
  induction as with
  | nil => trivial
  | cons a as ih =>
    simp only [splitLines]
    split
    · rename_i h
      subst h
      by_cases hs : splitLines a as = []
      · rw [hs]; exact ⟨by simp, by simp⟩
      · exact (isText_cons hs).mpr ⟨⟨[], by simp, rfl⟩, ih⟩
    · rename_i ha
      split <;> rename_i hs <;> rw [hs] at ih
      · exact ⟨by simp, by simp⟩
      · rename_i l ls
        cases ls with
        | nil =>
          obtain ⟨hne, hl⟩ := ih
          refine ⟨by simp, ?_⟩
          rw [List.dropLast_cons_of_ne_nil hne]
          simpa using ⟨fun h => ha h.symm, hl⟩
        | cons l' ls =>
          obtain ⟨⟨w, hw, rfl⟩, ht⟩ := ih
          exact ⟨⟨a :: w, by simpa using ⟨fun h => ha h.symm, hw⟩, rfl⟩, ht⟩

end Csup.Framework
