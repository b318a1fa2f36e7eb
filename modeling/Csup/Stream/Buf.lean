import Csup.Base.Clib
import Csup.Framework.RingBuffer

/-!
# The buffers of a stream: `struct buf`

The memory of a buffer has `size + 1` bytes; a function is `none` where an assertion
fails, or where a byte is not in the buffer. `buf_new` and `buf_grow` do not fail. What
new memory holds is not known; here it is what the function `buf` says.

`Buf.Ok` is what holds of a buffer between the functions, and `Buf.data` are its bytes.
-/

namespace Csup.Stream

open Csup.Framework (memcpy memcpy_of_lt memcpy_of_not slice length_slice)

/-- `struct buf`; `count` is its `in`. -/
structure Buf where
  buf : Nat → Byte
  size : Nat
  count : Nat
  off : Nat

/-- `STREAM_BUFSIZ` -/
def streamBufsiz : Nat := 1023

namespace Buf

/-- `buf_new` -/
def new (size : Nat) : Buf := ⟨fun _ => 0, size, 0, 0⟩

/-- `buf_avail` -/
def avail (b : Buf) : Nat := b.size - b.off - b.count

/-- The loop of `buf_grow`. -/
def growTo (need size : Nat) : Nat :=
  if size < need then growTo need (size * 2 + 1) else size
  termination_by need - size

/-- `buf_grow` -/
def grow (b : Buf) (need : Nat) : Option Buf :=
  if need = 0 then some { b with size := b.size * 2 + 1 }
  else if need > b.size then some { b with size := growTo need b.size }
  else none

/-- `buf_more` -/
def more (b : Buf) (n : Nat) : Option Buf :=
  if n ≤ b.avail then some { b with count := b.count + n } else none

/-- `buf_less` -/
def less (b : Buf) (n : Nat) : Option Buf :=
  if n ≤ b.count then
    some { b with count := b.count - n, off := if b.count - n = 0 then 0 else b.off + n }
  else none

/-- `xs` stored at `buf[i]`. -/
def store (b : Buf) (i : Nat) (xs : List Byte) : Option Buf :=
  if i + xs.length ≤ b.size + 1 then some { b with buf := memcpy b.buf i xs } else none

/-- The `n` bytes at `buf[i]`. -/
def load (b : Buf) (i n : Nat) : Option (List Byte) :=
  if i + n ≤ b.size + 1 then some (slice b.buf i n) else none

/-- The `memmove` of `buf_prewrite`. -/
def toFront (b : Buf) : Option Buf := do
  let moved ← b.load b.off b.count
  let b ← b.store 0 moved
  return { b with off := 0 }

/-- `buf_prewrite` -/
def prewrite (b : Buf) : Option Buf :=
  (if b.count = b.size then b.grow 0 else some b).bind fun b =>
    if b.count > 0 ∧ b.avail = 0 then b.toFront else some b

/-! ## What holds of a buffer -/

/-- The bytes that were added and not taken. -/
def data (b : Buf) : List Byte := slice b.buf b.off b.count

structure Ok (b : Buf) : Prop where
  pos : 0 < b.size
  bound : b.off + b.count ≤ b.size
  front : b.count = 0 → b.off = 0

theorem ok_new {size : Nat} (h : 0 < size) : (new size).Ok := ⟨h, by simp [new], by simp [new]⟩

@[simp] theorem data_new (size : Nat) : (new size).data = [] := rfl

@[simp] theorem length_data (b : Buf) : b.data.length = b.count := length_slice ..

theorem le_growTo (need size : Nat) : need ≤ growTo need size ∧ size ≤ growTo need size := by
  induction size using growTo.induct need with
  | case1 size h ih =>
    rw [growTo, if_pos h]
    omega
  | case2 size h =>
    rw [growTo, if_neg h]
    omega

theorem slice_append (f : Nat → Byte) (i n m : Nat) :
    slice f i (n + m) = slice f i n ++ slice f (i + n) m := by
  simp only [slice, List.range_add, List.map_append, List.map_map]
  congr 1
  refine List.map_congr_left fun k _ => ?_
  simp [Nat.add_assoc]

theorem slice_congr {f g : Nat → Byte} {i n : Nat} (h : ∀ k, i ≤ k → k < i + n → f k = g k) :
    slice f i n = slice g i n :=
  List.map_congr_left fun k hk => h _ (by omega) (by have := List.mem_range.mp hk; omega)

/-- What was copied there. -/
theorem slice_memcpy (f : Nat → Byte) (i : Nat) (xs : List Byte) :
    slice (memcpy f i xs) i xs.length = xs := by
  refine List.ext_getElem (length_slice ..) fun k hk hk' => ?_
  simp [slice, memcpy, hk']

/-- What lies elsewhere. -/
theorem slice_memcpy_of_le (f : Nat → Byte) {i j n : Nat} {xs : List Byte}
    (h : j + n ≤ i ∨ i + xs.length ≤ j) : slice (memcpy f i xs) j n = slice f j n := by
  refine slice_congr fun k hk hk' => ?_
  unfold memcpy
  split
  · rw [List.getElem?_eq_none (by omega), Option.getD_none]
  · rfl

section

variable {b : Buf} {n : Nat} (h : b.Ok)

include h

theorem Ok.grow {need : Nat} (hn : need = 0 ∨ b.size < need) : ∃ b', b.grow need = some b' ∧
    b'.Ok ∧ b'.data = b.data ∧ b'.count = b.count ∧ need ≤ b'.size ∧ b.size < b'.size := by
  have hle := le_growTo need b.size
  have hpos := h.pos
  have hbound := h.bound
  have hsize (size : Nat) (hs : b.size ≤ size) : ({ b with size } : Buf).Ok :=
    ⟨by show 0 < size; omega, by show b.off + b.count ≤ size; omega, h.front⟩
  unfold Buf.grow
  rcases Nat.eq_zero_or_pos need with rfl | hpos'
  · exact ⟨_, if_pos rfl, hsize (b.size * 2 + 1) (by omega), rfl, rfl, by simp, by show b.size < b.size * 2 + 1; omega⟩
  · rw [if_neg (by omega), if_pos (by omega)]
    exact ⟨_, rfl, hsize _ hle.2, rfl, rfl, hle.1, by show b.size < growTo need b.size; omega⟩

/-- What is stored behind the bytes that are there does not change these. -/
theorem Ok.store {xs : List Byte} (hx : b.off + b.count + xs.length ≤ b.size + 1) : ∃ b',
    b.store (b.off + b.count) xs = some b' ∧ b'.Ok ∧ b'.data = b.data ∧ b'.size = b.size ∧
      b'.off = b.off ∧ b'.count = b.count ∧ slice b'.buf (b.off + b.count) xs.length = xs :=
  ⟨_, if_pos hx, ⟨h.pos, h.bound, h.front⟩, slice_memcpy_of_le _ (.inl (Nat.le_refl _)), rfl, rfl,
    rfl, slice_memcpy ..⟩

theorem Ok.more (hn : n ≤ b.avail) : ∃ b', b.more n = some b' ∧ b'.Ok ∧
    b'.data = b.data ++ slice b.buf (b.off + b.count) n ∧ b'.count = b.count + n := by
  have hbound := h.bound
  have hn' : n ≤ b.size - b.off - b.count := hn
  refine ⟨_, if_pos hn, ⟨h.pos, ?_, fun hc => h.front ?_⟩, slice_append .., rfl⟩
  · show b.off + (b.count + n) ≤ b.size
    omega
  · have : b.count + n = 0 := hc
    omega

/-- Bytes added behind those that are there. -/
theorem Ok.append {xs : List Byte} (hx : xs.length ≤ b.avail) : ∃ b',
    (do (← b.store (b.off + b.count) xs).more xs.length) = some b' ∧ b'.Ok ∧
      b'.data = b.data ++ xs ∧ b'.count = b.count + xs.length := by
  have hbound := h.bound
  have hx' : xs.length ≤ b.size - b.off - b.count := hx
  obtain ⟨s, hs, hok, hdata, hsize, hoff, hcount, hslice⟩ := h.store (show b.off + b.count + xs.length ≤ b.size + 1 by omega)
  have hn : xs.length ≤ s.avail := by
    show xs.length ≤ s.size - s.off - s.count
    omega
  obtain ⟨b', hb', hok', hdata', hcount'⟩ := hok.more hn
  refine ⟨b', ?_, hok', ?_, by omega⟩
  · rw [hs]
    exact hb'
  · rw [hdata', hdata, hoff, hcount, hslice]

theorem Ok.less (hn : n ≤ b.count) : ∃ b', b.less n = some b' ∧ b'.Ok ∧
    b'.data = b.data.drop n ∧ b'.count = b.count - n ∧ b'.buf = b.buf ∧ b'.size = b.size := by
  have hbound := h.bound
  refine ⟨_, if_pos hn, ⟨h.pos, ?_, fun hc => if_pos hc⟩, ?_, rfl, rfl, rfl⟩
  · show (if b.count - n = 0 then 0 else b.off + n) + (b.count - n) ≤ b.size
    split <;> omega
  · show slice b.buf (if b.count - n = 0 then 0 else b.off + n) (b.count - n) =
      (slice b.buf b.off b.count).drop n
    have hsplit := slice_append b.buf b.off n (b.count - n)
    rw [Nat.add_sub_cancel' hn] at hsplit
    rw [hsplit, List.drop_left' (length_slice ..)]
    split
    · rename_i hc
      rw [hc]
      rfl
    · rfl

theorem Ok.toFront (hc : b.count < b.size) : ∃ b', b.toFront = some b' ∧ b'.Ok ∧
    b'.data = b.data ∧ b'.count = b.count ∧ 0 < b'.avail := by
  have hbound := h.bound
  have hload : b.load b.off b.count = some b.data := if_pos (by omega)
  have hstore : b.store 0 b.data = some { b with buf := memcpy b.buf 0 b.data } :=
    if_pos (by rw [length_data]; omega)
  refine ⟨{ b with buf := memcpy b.buf 0 b.data, off := 0 }, ?_,
    ⟨h.pos, by show 0 + b.count ≤ b.size; omega, fun _ => rfl⟩, ?_, rfl, ?_⟩
  · simp only [Buf.toFront, hload, hstore, bind, Option.bind, pure]
  · show slice (memcpy b.buf 0 b.data) 0 b.count = b.data
    have := slice_memcpy b.buf 0 b.data
    rwa [length_data] at this
  · show 0 < b.size - 0 - b.count
    omega

/-- There is room behind `buf_prewrite`. -/
theorem Ok.prewrite : ∃ b', b.prewrite = some b' ∧ b'.Ok ∧ b'.data = b.data ∧
    b'.count = b.count ∧ 0 < b'.avail := by
  have hbound := h.bound
  obtain ⟨g, hg, hok, hdata, hcount, hlt⟩ : ∃ g,
      (if b.count = b.size then b.grow 0 else some b) = some g ∧ g.Ok ∧ g.data = b.data ∧
        g.count = b.count ∧ g.count < g.size := by
    split
    · obtain ⟨g, hg, hok, hdata, hcount, -, hlt⟩ := h.grow (.inl rfl)
      exact ⟨g, hg, hok, hdata, hcount, by omega⟩
    · exact ⟨b, rfl, h, rfl, rfl, by omega⟩
  rw [Buf.prewrite, hg, Option.bind_some]
  split
  · obtain ⟨b', hb', hok', hdata', hcount', havail⟩ := hok.toFront hlt
    exact ⟨b', hb', hok', hdata'.trans hdata, hcount'.trans hcount, havail⟩
  · refine ⟨g, rfl, hok, hdata, hcount, ?_⟩
    -- an empty buffer begins at the front
    rcases Nat.eq_zero_or_pos g.count with hc | hc
    · have := hok.front hc
      unfold avail
      omega
    · omega

end

end Buf

end Csup.Stream
