import Mathlib.Data.List.Basic
import Mathlib.Logic.Function.Basic

/-!
# Ring buffers

A buffer of `size` elements in an array of `size + 1` cells: elements are taken
at `head` and added at `tail`, and `head = tail` when there are none. A block
that reaches behind the last cell goes on at the first.

`Holds b xs` says that `xs` are the elements in `b`, the oldest first. The
operations are specified by it: `Holds.peek`, `Holds.drop`, `Holds.put`, and the
two halves of `put`, `Holds.fill` and `Holds.grow`, between which `ahead` are the
elements that are there and not counted. `Holds.store` is for cells that are filled
one by one.
-/

namespace Csup.Framework

structure RingBuffer (α : Type*) where
  data : Nat → α
  size : Nat
  tail : Nat
  head : Nat

variable {α : Type*}

/-- `xs` copied to the cells from `off` on. -/
def memcpy (data : Nat → α) (off : Nat) (xs : List α) : Nat → α := fun i =>
  if off ≤ i then (xs[i - off]?).getD (data i) else data i

/-- `n` cells from `off` on. -/
def slice (data : Nat → α) (off n : Nat) : List α := (List.range n).map fun i => data (off + i)

/-- The cell `n` behind `pos`. -/
def advance (size pos n : Nat) : Nat := if pos + n > size then pos + n - (size + 1) else pos + n

namespace RingBuffer

variable (b : RingBuffer α)

/-- The number of elements. -/
def count : Nat :=
  if b.tail ≥ b.head then b.tail - b.head else b.size + 1 + b.tail - b.head

/-- How many more there is room for. -/
def avail : Nat :=
  if b.head > b.tail then b.head - b.tail - 1 else b.size + b.head - b.tail

/-- `xs` copied to behind the elements. -/
def fill (xs : List α) : RingBuffer α :=
  let len := b.size + 1 - b.tail
  { b with
    data :=
      if len < xs.length then memcpy (memcpy b.data b.tail (xs.take len)) 0 (xs.drop len)
      else memcpy b.data b.tail xs }

/-- The `n` cells behind the elements become elements. -/
def grow (n : Nat) : RingBuffer α := { b with tail := advance b.size b.tail n }

def put (xs : List α) : RingBuffer α := (b.fill xs).grow xs.length

/-- The first `n` elements. -/
def peek (n : Nat) : List α :=
  let len := b.size + 1 - b.head
  if len < n then slice b.data b.head len ++ slice b.data 0 (n - len) else slice b.data b.head n

def drop (n : Nat) : RingBuffer α := { b with head := advance b.size b.head n }

/-- What is in the `n` cells behind the elements. -/
def ahead (n : Nat) : List α := (List.range n).map fun i => b.data (advance b.size b.tail i)

/-- `x` in one cell. -/
def store (j : Nat) (x : α) : RingBuffer α := { b with data := Function.update b.data j x }

/-- The elements of a buffer. -/
structure Holds (xs : List α) : Prop where
  head_le : b.head ≤ b.size
  tail_le : b.tail ≤ b.size
  count_eq : b.count = xs.length
  get : ∀ i (h : i < xs.length), b.data (advance b.size b.head i) = xs[i]

end RingBuffer

/-! ## Cells -/

theorem memcpy_of_lt {data : Nat → α} {off i : Nat} {xs : List α} (h : i < xs.length) :
    memcpy data off xs (off + i) = xs[i] := by
  simp [memcpy, h]

theorem memcpy_of_not {data : Nat → α} {off j : Nat} {xs : List α}
    (h : j < off ∨ off + xs.length ≤ j) : memcpy data off xs j = data j := by
  unfold memcpy
  split
  · rw [List.getElem?_eq_none (by omega)]
    rfl
  · rfl

theorem advance_le {size pos n : Nat} (hp : pos ≤ size) (hn : n ≤ size + 1) :
    advance size pos n ≤ size := by
  unfold advance
  split <;> omega

theorem advance_advance {size pos m n : Nat} (hp : pos ≤ size) (h : m + n ≤ size + 1) :
    advance size (advance size pos m) n = advance size pos (m + n) := by
  unfold advance
  repeat' split
  all_goals omega

theorem advance_inj {size pos i j : Nat} (hi : i ≤ size) (hj : j ≤ size)
    (h : advance size pos i = advance size pos j) : i = j := by
  unfold advance at h
  split at h <;> split at h <;> omega

@[simp] theorem length_slice (data : Nat → α) (off n : Nat) : (slice data off n).length = n := by
  simp [slice]

namespace RingBuffer

variable {b : RingBuffer α} {xs ys : List α} {n : Nat}

@[simp] theorem fill_size : (b.fill ys).size = b.size := rfl

@[simp] theorem grow_size : (b.grow n).size = b.size := rfl

@[simp] theorem put_size : (b.put ys).size = b.size := rfl

@[simp] theorem drop_size : (b.drop n).size = b.size := rfl

@[simp] theorem store_size (j : Nat) (x : α) : (b.store j x).size = b.size := rfl

@[simp] theorem ahead_drop (m : Nat) : (b.drop n).ahead m = b.ahead m := rfl

/-- The cells that are filled. -/
theorem fill_data {i : Nat} (ht : b.tail ≤ b.size) (hlen : ys.length ≤ b.size + 1)
    (hi : i < ys.length) : (b.fill ys).data (advance b.size b.tail i) = ys[i] := by
  unfold fill advance
  dsimp only
  split
  · split
    · -- behind the last cell
      have heq : b.tail + i - (b.size + 1) = 0 + (i - (b.size + 1 - b.tail)) := by omega
      rw [heq, memcpy_of_lt (by rw [List.length_drop]; omega), List.getElem_drop]
      congr 1
      omega
    · rw [memcpy_of_not (by rw [List.length_drop]; omega),
        memcpy_of_lt (by rw [List.length_take]; omega), List.getElem_take]
  · split
    · omega
    · exact memcpy_of_lt hi

/-- The cells that are not. -/
theorem fill_data_of_ne {j : Nat} (ht : b.tail ≤ b.size) (hj : j ≤ b.size)
    (hne : ∀ i < ys.length, advance b.size b.tail i ≠ j) : (b.fill ys).data j = b.data j := by
  unfold fill
  dsimp only
  split
  · rename_i hlt
    have h1 : ¬j < ys.length - (b.size + 1 - b.tail) := fun h => by
      have := hne (j + (b.size + 1 - b.tail)) (by omega)
      unfold advance at this
      split at this <;> omega
    have h2 : ¬(b.tail ≤ j) := fun h => by
      have := hne (j - b.tail) (by omega)
      unfold advance at this
      split at this <;> omega
    rw [memcpy_of_not (by rw [List.length_drop]; omega),
      memcpy_of_not (by rw [List.length_take]; omega)]
  · refine memcpy_of_not ?_
    by_contra h
    have := hne (j - b.tail) (by omega)
    unfold advance at this
    split at this <;> omega

theorem peek_eq (hh : b.head ≤ b.size) :
    b.peek n = (List.range n).map fun i => b.data (advance b.size b.head i) := by
  unfold peek
  dsimp only
  split
  · rename_i hlt
    apply List.ext_getElem
    · simp only [List.length_append, length_slice, List.length_map, List.length_range]
      omega
    · intro i h1 h2
      simp only [List.length_append, length_slice] at h1
      rw [List.getElem_map, List.getElem_range, List.getElem_append]
      unfold advance
      split
      · rename_i hi
        rw [length_slice] at hi
        simp only [slice, List.getElem_map, List.getElem_range]
        rw [if_neg (by omega)]
      · rename_i hi
        simp only [length_slice] at hi
        simp only [slice, List.getElem_map, List.getElem_range, List.length_map, List.length_range]
        rw [if_pos (by omega)]
        congr 1
        omega
  · refine List.map_congr_left fun i hi => ?_
    rw [List.mem_range] at hi
    unfold advance
    rw [if_neg (by omega)]

/-! ## The operations -/

/-- An empty buffer. -/
theorem holds_new (data : Nat → α) (size : Nat) : (RingBuffer.mk data size 0 0).Holds [] where
  head_le := Nat.zero_le _
  tail_le := Nat.zero_le _
  count_eq := rfl
  get := fun i h => absurd h (Nat.not_lt_zero i)

theorem Holds.length_le (h : b.Holds xs) : xs.length ≤ b.size := by
  obtain ⟨hh, ht, hc, -⟩ := h
  unfold count at hc
  split at hc <;> omega

theorem Holds.avail_eq (h : b.Holds xs) : b.avail = b.size - xs.length := by
  obtain ⟨hh, ht, hc, -⟩ := h
  unfold count at hc
  unfold avail
  split at hc <;> split <;> omega

theorem Holds.peek (h : b.Holds xs) (hn : n ≤ xs.length) : b.peek n = xs.take n := by
  rw [peek_eq h.head_le]
  apply List.ext_getElem
  · simp [hn]
  · intro i h1 h2
    rw [List.length_map, List.length_range] at h1
    rw [List.getElem_map, List.getElem_range, List.getElem_take]
    exact h.get i (Nat.lt_of_lt_of_le h1 hn)

theorem Holds.drop (h : b.Holds xs) (hn : n ≤ xs.length) : (b.drop n).Holds (xs.drop n) := by
  have hlen := h.length_le
  refine ⟨advance_le h.head_le (by omega), h.tail_le, ?_, fun i hi => ?_⟩
  · obtain ⟨hh, ht, hc, -⟩ := h
    rw [List.length_drop, ← hc]
    unfold count RingBuffer.drop advance at *
    dsimp only at *
    split at hc <;> repeat' split
    all_goals omega
  · rw [List.length_drop] at hi
    show b.data (advance b.size (advance b.size b.head n) i) = _
    rw [advance_advance h.head_le (by omega), List.getElem_drop]
    exact h.get (n + i) (by omega)

/-- The cells behind the elements are not those of the elements. -/
theorem Holds.advance_ne (h : b.Holds xs) {i j : Nat} (hn : xs.length + n ≤ b.size)
    (hi : i < xs.length) (hj : j < n) :
    advance b.size b.tail j ≠ advance b.size b.head i := by
  obtain ⟨hh, ht, hc, -⟩ := h
  unfold count at hc
  unfold advance
  split at hc <;> repeat' split
  all_goals omega

theorem Holds.fill (h : b.Holds xs) (hys : xs.length + ys.length ≤ b.size) :
    (b.fill ys).Holds xs := by
  refine ⟨h.head_le, h.tail_le, h.count_eq, fun i hi => ?_⟩
  have hle : advance b.size b.head i ≤ b.size := advance_le h.head_le (by omega)
  exact (fill_data_of_ne h.tail_le hle fun j hj => h.advance_ne hys hi hj).trans (h.get i hi)

theorem Holds.store (h : b.Holds xs) {j : Nat} (x : α)
    (hj : ∀ i < xs.length, advance b.size b.head i ≠ j) : (b.store j x).Holds xs := by
  refine ⟨h.head_le, h.tail_le, h.count_eq, fun i hi => ?_⟩
  show Function.update b.data j x (advance b.size b.head i) = _
  rw [Function.update_of_ne (hj i hi)]
  exact h.get i hi

/-- What was copied is ahead. -/
theorem ahead_fill (ht : b.tail ≤ b.size) (hlen : ys.length ≤ b.size + 1) :
    (b.fill ys).ahead ys.length = ys := by
  apply List.ext_getElem
  · simp [ahead]
  · intro i h1 h2
    simp only [ahead, List.getElem_map, List.getElem_range]
    exact fill_data ht hlen h2

theorem ahead_succ (n : Nat) :
    b.ahead (n + 1) = b.ahead n ++ [b.data (advance b.size b.tail n)] := by
  simp [ahead, List.range_succ]

/-- The next cell behind the elements, written. -/
theorem ahead_store (x : α) (hn : n ≤ b.size) :
    (b.store (advance b.size b.tail n) x).ahead (n + 1) = b.ahead n ++ [x] := by
  rw [ahead_succ]
  congr 1
  · refine List.map_congr_left fun i hi => ?_
    rw [List.mem_range] at hi
    refine Function.update_of_ne (fun heq => ?_) x b.data
    have := advance_inj (by omega) hn heq
    omega
  · show [Function.update b.data _ x _] = _
    rw [store_size]
    exact congrArg (fun y => [y]) (Function.update_self _ _ _)

theorem Holds.grow (h : b.Holds xs) (hn : xs.length + n ≤ b.size) :
    (b.grow n).Holds (xs ++ b.ahead n) := by
  have hah : (b.ahead n).length = n := by simp [ahead]
  refine ⟨h.head_le, advance_le h.tail_le (by omega), ?_, fun i hi => ?_⟩
  · obtain ⟨hh, ht, hc, -⟩ := h
    rw [List.length_append, hah, ← hc]
    unfold count RingBuffer.grow advance at *
    dsimp only at *
    split at hc <;> repeat' split
    all_goals omega
  · rw [List.length_append, hah] at hi
    rw [List.getElem_append]
    split
    · rename_i hlt
      exact h.get i hlt
    · rename_i hge
      simp only [ahead, List.getElem_map, List.getElem_range]
      show b.data (advance b.size b.head i) = _
      congr 1
      obtain ⟨hh, ht, hc, -⟩ := h
      unfold count at hc
      unfold advance
      split at hc <;> repeat' split
      all_goals omega

theorem Holds.put (h : b.Holds xs) (hys : xs.length + ys.length ≤ b.size) :
    (b.put ys).Holds (xs ++ ys) := by
  have := (h.fill hys).grow hys
  rwa [ahead_fill h.tail_le (by omega)] at this

end RingBuffer

end Csup.Framework
