import Mathlib.Data.List.Basic
import Mathlib.Data.List.TakeWhile

/-!
# Scanners that take their input in runs

A scanner takes a buffer in rounds, each of which consumes a run of it or only
changes the state. When a round leaves to the rest of the buffer what it has not
done itself of a machine that takes one item at a time (`Rounds.foldl_turn`),
and something is left to do less after it (`Rounds.todo_turn`), the loop ends and
is that machine (`Rounds.loop_eq`). So it does not matter in which pieces the
input comes (`Rounds.foldl_loop`).
-/

namespace Csup.Framework

variable {σ α : Type*}

/-! ## Runs -/

theorem dropWhile_eq_cons {p : α → Bool} {l rest : List α} {c : α}
    (h : l.dropWhile p = c :: rest) : l = l.takeWhile p ++ c :: rest ∧ p c = false := by
  refine ⟨by rw [← h, List.takeWhile_append_dropWhile], ?_⟩
  have := List.head_dropWhile_not p (l := l) (by rw [h]; simp)
  simpa [h] using this

theorem takeWhile_of_dropWhile {p : α → Bool} {l : List α} (h : l.dropWhile p = []) :
    l.takeWhile p = l := by
  have := List.takeWhile_append_dropWhile (p := p) (l := l)
  rwa [h, List.append_nil] at this

theorem all_takeWhile {p : α → Bool} {l : List α} : ∀ c ∈ l.takeWhile p, p c = true :=
  fun _ hc => List.mem_takeWhile_imp hc

/-! ## The loop -/

/-- The loop, for so many rounds: the state and what is left of the buffer. -/
def loop (turn : σ → List α → σ × List α) : Nat → σ → List α → σ × List α
  | _, s, [] => (s, [])
  | 0, s, c :: l => (s, c :: l)
  | n + 1, s, c :: l => loop turn n (turn s (c :: l)).1 (turn s (c :: l)).2

/-- Rounds of a scanner beside the machine that takes one item at a time; `todo`
bounds the rounds that are left. -/
structure Rounds (σ α : Type*) where
  turn : σ → List α → σ × List α
  step : σ → α → σ
  todo : σ → List α → Nat
  foldl_turn (s : σ) (l : List α) : (turn s l).2.foldl step (turn s l).1 = l.foldl step s
  todo_turn (s : σ) (c : α) (l : List α) :
    todo (turn s (c :: l)).1 (turn s (c :: l)).2 < todo s (c :: l)

namespace Rounds

variable (R : Rounds σ α)

theorem loop_eq {n : Nat} {s : σ} {l : List α} (h : R.todo s l ≤ n) :
    loop R.turn n s l = (l.foldl R.step s, []) := by
  induction n generalizing s l with
  | zero =>
    rcases l with - | ⟨c, l⟩
    · rfl
    · have := R.todo_turn s c l
      omega
  | succ n ih =>
    rcases l with - | ⟨c, l⟩
    · rfl
    · have hlt := R.todo_turn s c l
      rw [loop, ih (by omega), R.foldl_turn]

/-- The loop on one piece after the other is the loop on the whole. -/
theorem foldl_loop {fuel : List α → Nat} (hf : ∀ s l, R.todo s l ≤ fuel l) (s : σ)
    (ls : List (List α)) :
    ls.foldl (fun s l => (loop R.turn (fuel l) s l).1) s =
      (loop R.turn (fuel ls.flatten) s ls.flatten).1 := by
  rw [R.loop_eq (hf _ _), List.foldl_flatten]
  congr 1
  funext s l
  rw [R.loop_eq (hf _ _)]

end Rounds

end Csup.Framework
