import Mathlib.Data.List.TakeWhile

/-!
# A string in memory

An array of bytes that is read and written by offset (`load`, `store`), and the
string that begins at an offset and ends before the first NUL (`str`). An access
outside of the array has no result.

`terminated s` is the array of the string `s`:

* `store_restore`: a byte that is written back restores the array;
* `str_terminated`: what a pointer into the string points to;
* `str_cut`, `str_cut_before`: the same while a NUL is written over a byte.
-/

namespace Csup.Framework

/-- An array of bytes. -/
abbrev Cells := List UInt8

namespace Cells

def load (m : Cells) (i : Nat) : Option UInt8 := m[i]?

def store (m : Cells) (i : Nat) (c : UInt8) : Option Cells :=
  if i < m.length then some (m.set i c) else none

/-- The string at an offset; a search for its NUL that leaves the array has no result. -/
def str (m : Cells) (i : Nat) : Option (List UInt8) :=
  if 0 ∈ m.drop i then some ((m.drop i).takeWhile (· != 0)) else none

/-- A string and its NUL. -/
def terminated (s : List UInt8) : Cells := s ++ [0]

@[simp] theorem length_terminated (s : List UInt8) : (terminated s).length = s.length + 1 := by
  simp [terminated]

theorem load_isSome {m : Cells} {i : Nat} : (m.load i).isSome ↔ i < m.length := by
  simp [load]

theorem store_restore {m : Cells} {i : Nat} {tmp : UInt8} (h : m.load i = some tmp) (c : UInt8) :
    store (m.set i c) i tmp = some m := by
  obtain ⟨hi, htmp⟩ := List.getElem?_eq_some_iff.mp h
  rw [store, List.length_set, if_pos hi, List.set_set, ← htmp, List.set_getElem_self]

/-- The string in front of the first NUL. -/
theorem str_of_drop {m : Cells} {i : Nat} {t : List UInt8} (ht : 0 ∉ t) (rest : Cells)
    (h : m.drop i = t ++ 0 :: rest) : m.str i = some t := by
  have hne : ∀ c ∈ t, (c != 0) = true := fun c hc => by
    simpa using fun h0 : c = 0 => ht (h0 ▸ hc)
  rw [str, h, if_pos (by simp), List.takeWhile_append_of_pos hne]
  simp

section Terminated

variable {s : List UInt8} (h : 0 ∉ s)
include h

theorem str_terminated {i : Nat} (hi : i ≤ s.length) : (terminated s).str i = some (s.drop i) := by
  refine str_of_drop (fun h0 => h (List.mem_of_mem_drop h0)) [] ?_
  rw [terminated, List.drop_append_of_le_length hi]

/-- A string is cut where a NUL is written. -/
theorem str_cut {i fin : Nat} (hi : i ≤ fin) (hfin : fin ≤ s.length) :
    str ((terminated s).set fin 0) i = some ((s.drop i).take (fin - i)) := by
  refine str_of_drop (fun h0 => h (List.mem_of_mem_drop (List.mem_of_mem_take h0)))
    ((terminated s).drop (fin + 1)) ?_
  have hlen : fin < (terminated s).length := by
    rw [length_terminated]
    exact Nat.lt_succ_of_le hfin
  have htake : (terminated s).take fin = s.take fin := List.take_append_of_le_length hfin
  rw [List.set_eq_take_append_cons_drop, if_pos hlen, htake,
    List.drop_append_of_le_length (by rw [List.length_take]; omega), List.drop_take]

/-- A NUL that is written in front of a string does not change it. -/
theorem str_cut_before {i fin : Nat} (hi : fin < i) (hs : i ≤ s.length) :
    str ((terminated s).set fin 0) i = some (s.drop i) := by
  have hdrop : ((terminated s).set fin 0).drop i = (terminated s).drop i :=
    List.drop_set_of_lt hi
  rw [str, hdrop]
  exact str_terminated h hs

omit h in
theorem load_terminated {i : Nat} (hi : i ≤ s.length) {c : UInt8} (hc : c ≠ 0) :
    (terminated s).load i = some c ↔ ∃ t, s.drop i = c :: t := by
  constructor
  · intro hload
    rcases Nat.lt_or_eq_of_le hi with hlt | rfl
    · rw [load, terminated, List.getElem?_append_left hlt, List.getElem?_eq_getElem hlt,
        Option.some.injEq] at hload
      exact ⟨_, hload ▸ List.drop_eq_getElem_cons hlt⟩
    · simp only [load, terminated, List.getElem?_concat_length, Option.some.injEq] at hload
      exact absurd hload.symm hc
  · rintro ⟨t, ht⟩
    have hlt : i < s.length := by
      have := congrArg List.length ht
      simp only [List.length_drop, List.length_cons] at this
      omega
    have hget := List.drop_eq_getElem_cons hlt
    rw [ht, List.cons.injEq] at hget
    rw [load, terminated, List.getElem?_append_left hlt, List.getElem?_eq_getElem hlt, hget.1]

end Terminated

end Cells

end Csup.Framework
