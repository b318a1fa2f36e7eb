import Csup.Mux.Defs

/-!
# The circular buffers

`buf_put` and `buf_get` with their assertions, and what the sender and the receiver do with
the bytes of a buffer themselves. A thread of these takes the pieces of the array
(`Step.drain`, `Step.fill`), moves the bytes while the other side goes on, one at a time
(`Step.drainByte`, `Step.fillByte`), and moves the index afterwards (`Step.drained`,
`Step.filled`). On each side there is one at a time.

`Inv`: the bytes that were put in and not taken out are those in the buffer, and the pieces
are the cells of these, or cells behind them. `fifo`: this holds throughout.

A `size_t` does not overflow here: the two sizes of the program are 16384.
-/

namespace Csup.Mux

open Csup.Framework

/-! ## Pieces of the array -/

/-- Bytes of the array: where they begin, and how many they are. -/
structure Piece where
  off : Nat
  len : Nat
  deriving DecidableEq

def Piece.cells (p : Piece) : List Nat := List.range' p.off p.len

def cells (ps : List Piece) : List Nat := ps.flatMap Piece.cells

/-- `data` copied to the pieces. -/
def scatter (dst : Nat → Byte) : List Piece → List Byte → Nat → Byte
  | [], _ => dst
  | p :: ps, data => scatter (memcpy dst p.off (data.take p.len)) ps (data.drop p.len)

/-- What is in the pieces. -/
def gather (src : Nat → Byte) (ps : List Piece) : List Byte := ps.flatMap fun p => slice src p.off p.len

/-- The pieces that `buf_put` and `buf_get` copy, from `buf->in` or `buf->out` on. -/
def copyPieces (bufsize pos size : Nat) : List Piece :=
  let len := bufsize + 1 - pos
  if len < size then [⟨pos, len⟩, ⟨0, size - len⟩] else [⟨pos, size⟩]

/-- The pieces that `sender_loop` hands to `sock_writev`. -/
def sendPieces (buf : Buf) (size : UInt16) : List Piece :=
  let len : UInt16 := .ofNat (min size.toNat (buf.size + 1 - buf.head))
  ⟨buf.head, len.toNat⟩ :: if size > len then [⟨0, (size - len).toNat⟩] else []

/-- The pieces that `receiver_loop` has `sock_readwait` fill. -/
def recvPieces (buf : Buf) (len : UInt16) : List Piece :=
  let size : UInt16 := .ofNat (min (buf.size + 1 - buf.tail) len.toNat)
  ⟨buf.tail, size.toNat⟩ :: if len > size then [⟨0, (len - size).toNat⟩] else []

/-! ## The functions -/

/-- `buf_put`; `none` is an assertion that fails. -/
def bufPut (buf : Buf) (data : List Byte) : Option Buf :=
  if 0 < data.length ∧ data.length ≤ buf.avail then
    some { buf with
      data := scatter buf.data (copyPieces buf.size buf.tail data.length) data
      tail := advance buf.size buf.tail data.length }
  else none

/-- `buf_get` -/
def bufGet (buf : Buf) (size : Nat) : Option (List Byte × Buf) :=
  if 0 < size ∧ size ≤ buf.count then
    some (gather buf.data (copyPieces buf.size buf.head size),
      { buf with head := advance buf.size buf.head size })
  else none

/-! ## The steps -/

/-- A thread that is about to move the bytes of some pieces. -/
structure Transfer where
  size : UInt16
  pieces : List Piece
  done : List Byte

/-- A buffer with the threads at it, and all the bytes that were put in and taken out. -/
structure Ring where
  buf : Buf
  sending : Option Transfer
  receiving : Option Transfer
  put : List Byte
  taken : List Byte

/-- `buf_new`, with whatever is in the memory. -/
def Ring.new (size : Nat) (data : Nat → Byte) : Ring where
  buf := ⟨data, size, 0, 0⟩
  sending := none
  receiving := none
  put := []
  taken := []

/-- One step, and the pieces of the array that it accesses or takes. -/
inductive Step (s : Ring) : List Piece → Ring → Prop
  | put (data : List Byte) {b : Buf} (hidle : s.receiving = none) (h : bufPut s.buf data = some b) :
    Step s (copyPieces s.buf.size s.buf.tail data.length) { s with buf := b, put := s.put ++ data }
  | get (size : Nat) {data : List Byte} {b : Buf} (hidle : s.sending = none)
      (h : bufGet s.buf size = some (data, b)) :
    Step s (copyPieces s.buf.size s.buf.head size) { s with buf := b, taken := s.taken ++ data }
  | drain (size : UInt16) (hidle : s.sending = none) (hpos : 0 < size)
      (h : size.toNat ≤ s.buf.count) :
    Step s (sendPieces s.buf size) { s with sending := some ⟨size, sendPieces s.buf size, []⟩ }
  | drainByte {t : Transfer} {cell : Nat} (ht : s.sending = some t)
      (h : (cells t.pieces)[t.done.length]? = some cell) :
    Step s [⟨cell, 1⟩] { s with sending := some { t with done := t.done ++ [s.buf.data cell] } }
  | drained {t : Transfer} (ht : s.sending = some t) (h : t.done.length = (cells t.pieces).length) :
    Step s []
      { s with buf := s.buf.drop t.size.toNat, sending := none, taken := s.taken ++ t.done }
  | fill (len : UInt16) (hidle : s.receiving = none) (h : len.toNat ≤ s.buf.avail) :
    Step s (recvPieces s.buf len) { s with receiving := some ⟨len, recvPieces s.buf len, []⟩ }
  | fillByte {t : Transfer} {cell : Nat} (byte : Byte) (ht : s.receiving = some t)
      (h : (cells t.pieces)[t.done.length]? = some cell) :
    Step s [⟨cell, 1⟩]
      { s with
        buf := s.buf.store cell byte
        receiving := some { t with done := t.done ++ [byte] } }
  | filled {t : Transfer} (ht : s.receiving = some t)
      (h : t.done.length = (cells t.pieces).length) :
    Step s [] { s with buf := s.buf.grow t.size.toNat, receiving := none, put := s.put ++ t.done }

inductive Reachable (size : Nat) : Ring → Prop
  | new (data : Nat → Byte) : Reachable size (Ring.new size data)
  | step {s t : Ring} {ps : List Piece} (h : Reachable size s) (hst : Step s ps t) :
    Reachable size t

/-! ## The pieces are the cells from an index on -/

/-- The `n` cells from `pos` on, around the end of the array. -/
def around (bufsize pos n : Nat) : List Nat := (List.range n).map (advance bufsize pos)

theorem around_of_le {bufsize pos n : Nat} (h : pos + n ≤ bufsize + 1) :
    around bufsize pos n = List.range' pos n := by
  rw [List.range'_eq_map_range]
  refine List.map_congr_left fun i hi => ?_
  rw [List.mem_range] at hi
  rw [advance, if_neg (by omega)]

theorem around_of_lt {bufsize pos n : Nat} (hpos : pos ≤ bufsize) (h : bufsize + 1 - pos < n) :
    around bufsize pos n =
      List.range' pos (bufsize + 1 - pos) ++ List.range' 0 (n - (bufsize + 1 - pos)) := by
  have hn : n = bufsize + 1 - pos + (n - (bufsize + 1 - pos)) := by omega
  rw [around, hn, List.range_add, List.map_append, List.map_map, Nat.add_sub_cancel_left]
  have hfirst : around bufsize pos (bufsize + 1 - pos) =
      List.range' pos (bufsize + 1 - pos) := around_of_le (by omega)
  rw [around] at hfirst
  rw [hfirst, List.range'_eq_map_range, List.range'_eq_map_range]
  congr 1
  refine List.map_congr_left fun i _ => ?_
  simp only [Function.comp_apply, advance]
  rw [if_pos (by omega)]
  omega

theorem cells_copyPieces {bufsize pos n : Nat} (hpos : pos ≤ bufsize) :
    cells (copyPieces bufsize pos n) = around bufsize pos n := by
  unfold copyPieces
  dsimp only
  split
  · rename_i h
    rw [around_of_lt hpos h]
    simp [cells, Piece.cells]
  · rw [around_of_le (by omega)]
    simp [cells, Piece.cells]

/-- The two codings of the wrap-around agree: 16 bits are enough for a piece of a packet. -/
theorem minPieces_eq {bufsize pos : Nat} (n : UInt16) {len : UInt16}
    (hlen : len.toNat = min n.toNat (bufsize + 1 - pos)) :
    (⟨pos, len.toNat⟩ :: if n > len then [⟨0, (n - len).toNat⟩] else [] : List Piece) =
      copyPieces bufsize pos n.toNat := by
  unfold copyPieces
  dsimp only
  by_cases h : bufsize + 1 - pos < n.toNat
  · have hgt : n > len := UInt16.lt_iff_toNat_lt.mpr (by omega)
    rw [if_pos h, if_pos hgt, UInt16.toNat_sub_of_le _ _ (UInt16.le_of_lt hgt), hlen,
      Nat.min_eq_right (by omega)]
  · have hle : ¬n > len := fun hgt => by
      have := UInt16.lt_iff_toNat_lt.mp hgt
      omega
    rw [if_neg h, if_neg hle, hlen, Nat.min_eq_left (by omega)]

theorem sendPieces_eq (buf : Buf) (size : UInt16) :
    sendPieces buf size = copyPieces buf.size buf.head size.toNat := by
  refine minPieces_eq size ?_
  have := size.toNat_lt
  exact UInt16.toNat_ofNat_of_lt' (by simp [UInt16.size]; omega)

theorem recvPieces_eq (buf : Buf) (len : UInt16) :
    recvPieces buf len = copyPieces buf.size buf.tail len.toNat := by
  refine minPieces_eq len ?_
  have := len.toNat_lt
  rw [Nat.min_comm]
  exact UInt16.toNat_ofNat_of_lt' (by simp [UInt16.size]; omega)

/-- The pieces lie in the array. -/
def InArray (bufsize : Nat) (ps : List Piece) : Prop := ∀ p ∈ ps, p.off + p.len ≤ bufsize + 1

theorem inArray_copyPieces {bufsize pos n : Nat} (hpos : pos ≤ bufsize) (hn : n ≤ bufsize + 1) :
    InArray bufsize (copyPieces bufsize pos n) := by
  intro p hp
  unfold copyPieces at hp
  dsimp only at hp
  split at hp
  · rcases List.mem_cons.mp hp with rfl | hp
    · show pos + (bufsize + 1 - pos) ≤ _
      omega
    · obtain rfl := List.mem_singleton.mp hp
      show 0 + (n - (bufsize + 1 - pos)) ≤ _
      omega
  · obtain rfl := List.mem_singleton.mp hp
    show pos + n ≤ _
    omega

/-! ## The functions are those of a ring buffer -/

theorem bufPut_eq {buf b : Buf} {data : List Byte} (h : bufPut buf data = some b) :
    data.length ≤ buf.avail ∧ b = buf.put data := by
  unfold bufPut at h
  split at h
  · rename_i hlen
    refine ⟨hlen.2, ?_⟩
    obtain rfl := Option.some.inj h
    unfold RingBuffer.put RingBuffer.fill RingBuffer.grow copyPieces
    dsimp only
    congr 1
    split
    · simp [scatter, List.take_of_length_le]
    · simp [scatter]
  · cases h

theorem bufGet_eq {buf b : Buf} {n : Nat} {data : List Byte} (h : bufGet buf n = some (data, b)) :
    n ≤ buf.count ∧ data = buf.peek n ∧ b = buf.drop n := by
  unfold bufGet at h
  split at h
  · rename_i hlen
    obtain ⟨rfl, rfl⟩ := Prod.mk.inj (Option.some.inj h)
    refine ⟨hlen.2, ?_, rfl⟩
    unfold RingBuffer.peek copyPieces
    dsimp only
    split <;> simp [gather]
  · cases h

/-! ## The invariant -/

/-- The pieces of a thread are the next `t.size` cells from an index on. -/
structure Transfer.At (t : Transfer) (bufsize pos : Nat) : Prop where
  pieces : t.pieces = copyPieces bufsize pos t.size.toNat
  done : t.done.length ≤ t.size.toNat

theorem Transfer.At.cell {t : Transfer} {bufsize pos c : Nat} (h : t.At bufsize pos)
    (hpos : pos ≤ bufsize) (hc : (cells t.pieces)[t.done.length]? = some c) :
    t.done.length < t.size.toNat ∧ c = advance bufsize pos t.done.length := by
  rw [h.pieces, cells_copyPieces hpos, List.getElem?_eq_some_iff] at hc
  obtain ⟨hlt, rfl⟩ := hc
  exact ⟨by simpa [around] using hlt, by simp [around]⟩

theorem Transfer.At.all {t : Transfer} {bufsize pos : Nat} (h : t.At bufsize pos)
    (hpos : pos ≤ bufsize) (hall : t.done.length = (cells t.pieces).length) :
    t.done.length = t.size.toNat := by
  rw [hall, h.pieces, cells_copyPieces hpos]
  simp [around]

/-- The buffer holds `xs`, the bytes that were put in and not taken out. -/
structure Inv (size : Nat) (s : Ring) (xs : List Byte) : Prop where
  size_eq : s.buf.size = size
  holds : s.buf.Holds xs
  log : s.put = s.taken ++ xs
  sending : ∀ t ∈ s.sending, t.At s.buf.size s.buf.head ∧ t.size.toNat ≤ xs.length ∧
    t.done <+: xs
  receiving : ∀ t ∈ s.receiving, t.At s.buf.size s.buf.tail ∧
    xs.length + t.size.toNat ≤ s.buf.size ∧ t.done = s.buf.ahead t.done.length

theorem inv_new (size : Nat) (data : Nat → Byte) : Inv size (Ring.new size data) [] where
  size_eq := rfl
  holds := RingBuffer.holds_new data size
  log := rfl
  sending := nofun
  receiving := nofun

/-! ## The steps keep it -/

section

variable {size : Nat} {s : Ring} {xs : List Byte}

theorem Inv.room (h : Inv size s xs) {n : Nat} (hn : n ≤ s.buf.avail) :
    xs.length + n ≤ s.buf.size := by
  have hlen := h.holds.length_le
  rw [h.holds.avail_eq] at hn
  omega

/-- More bytes behind those that the sender is at. -/
theorem Inv.sending_append (h : Inv size s xs) (ys : List Byte) : ∀ t ∈ s.sending,
    t.At s.buf.size s.buf.head ∧ t.size.toNat ≤ (xs ++ ys).length ∧ t.done <+: xs ++ ys := by
  intro t ht
  obtain ⟨hat, hle, hdone⟩ := h.sending t ht
  refine ⟨hat, ?_, hdone.trans (List.prefix_append _ _)⟩
  rw [List.length_append]
  omega

theorem Inv.put (h : Inv size s xs) (hidle : s.receiving = none) {data : List Byte}
    (hlen : data.length ≤ s.buf.avail) :
    Inv size { s with buf := s.buf.put data, put := s.put ++ data } (xs ++ data) where
  size_eq := h.size_eq
  holds := h.holds.put (h.room hlen)
  log := by rw [h.log, List.append_assoc]
  sending := h.sending_append data
  receiving := fun t ht => by
    rw [hidle] at ht
    cases ht

/-- Bytes leave the buffer, while the receiver may fill it. -/
theorem Inv.take (h : Inv size s xs) {n : Nat} (hn : n ≤ xs.length) :
    Inv size { s with buf := s.buf.drop n, sending := none, taken := s.taken ++ xs.take n }
      (xs.drop n) where
  size_eq := h.size_eq
  holds := h.holds.drop hn
  log := by rw [h.log, List.append_assoc, List.take_append_drop]
  sending := nofun
  receiving := fun t ht => by
    obtain ⟨hat, hle, hdone⟩ := h.receiving t ht
    refine ⟨hat, ?_, hdone⟩
    show (xs.drop n).length + t.size.toNat ≤ s.buf.size
    rw [List.length_drop]
    omega

theorem Inv.drain (h : Inv size s xs) {n : UInt16} (hn : n.toNat ≤ s.buf.count) :
    Inv size { s with sending := some ⟨n, sendPieces s.buf n, []⟩ } xs where
  size_eq := h.size_eq
  holds := h.holds
  log := h.log
  sending := fun t ht => by
    obtain rfl := Option.some.inj ht
    rw [h.holds.count_eq] at hn
    exact ⟨⟨sendPieces_eq s.buf n, Nat.zero_le _⟩, hn, List.nil_prefix⟩
  receiving := h.receiving

/-- The next byte of the pieces is the next byte of the buffer. -/
theorem Inv.drainByte (h : Inv size s xs) {t : Transfer} {cell : Nat} (ht : s.sending = some t)
    (hc : (cells t.pieces)[t.done.length]? = some cell) :
    Inv size { s with sending := some { t with done := t.done ++ [s.buf.data cell] } } xs where
  size_eq := h.size_eq
  holds := h.holds
  log := h.log
  sending := fun u hu => by
    obtain rfl := Option.some.inj hu
    obtain ⟨hat, hle, hdone⟩ := h.sending t ht
    obtain ⟨hlt, rfl⟩ := hat.cell h.holds.head_le hc
    have hbyte := h.holds.get t.done.length (by omega)
    refine ⟨⟨hat.pieces, ?_⟩, hle, ?_⟩
    · rw [List.length_append]
      exact hlt
    · rw [hbyte]
      have htake := List.prefix_iff_eq_take.mp hdone
      have hsucc := List.take_append_getElem (show t.done.length < xs.length by omega)
      rw [← htake] at hsucc
      rw [hsucc]
      exact List.take_prefix _ _
  receiving := h.receiving

theorem Inv.drained (h : Inv size s xs) {t : Transfer} (ht : s.sending = some t)
    (hall : t.done.length = (cells t.pieces).length) :
    Inv size
      { s with buf := s.buf.drop t.size.toNat, sending := none, taken := s.taken ++ t.done }
      (xs.drop t.size.toNat) := by
  obtain ⟨hat, hle, hdone⟩ := h.sending t ht
  have htake := List.prefix_iff_eq_take.mp hdone
  rw [hat.all h.holds.head_le hall] at htake
  rw [htake]
  exact h.take hle

theorem Inv.fill (h : Inv size s xs) {n : UInt16} (hn : n.toNat ≤ s.buf.avail) :
    Inv size { s with receiving := some ⟨n, recvPieces s.buf n, []⟩ } xs where
  size_eq := h.size_eq
  holds := h.holds
  log := h.log
  sending := h.sending
  receiving := fun t ht => by
    obtain rfl := Option.some.inj ht
    exact ⟨⟨recvPieces_eq s.buf n, Nat.zero_le _⟩, h.room hn, rfl⟩

/-- The next byte of the pieces is behind those that were filled, and not in the buffer. -/
theorem Inv.fillByte (h : Inv size s xs) {t : Transfer} {cell : Nat} (byte : Byte)
    (ht : s.receiving = some t) (hc : (cells t.pieces)[t.done.length]? = some cell) :
    Inv size
      { s with
        buf := s.buf.store cell byte
        receiving := some { t with done := t.done ++ [byte] } } xs := by
  obtain ⟨hat, hle, hdone⟩ := h.receiving t ht
  obtain ⟨hlt, rfl⟩ := hat.cell h.holds.tail_le hc
  refine ⟨h.size_eq, ?_, h.log, h.sending, fun u hu => ?_⟩
  · exact h.holds.store byte fun i hi => (h.holds.advance_ne hle hi hlt).symm
  · obtain rfl := Option.some.inj hu
    refine ⟨⟨hat.pieces, by rw [List.length_append]; exact hlt⟩, hle, ?_⟩
    rw [List.length_append, List.length_singleton, RingBuffer.ahead_store byte (by omega), ← hdone]

theorem Inv.filled (h : Inv size s xs) {t : Transfer} (ht : s.receiving = some t)
    (hall : t.done.length = (cells t.pieces).length) :
    Inv size { s with buf := s.buf.grow t.size.toNat, receiving := none, put := s.put ++ t.done }
      (xs ++ t.done) := by
  obtain ⟨hat, hle, hdone⟩ := h.receiving t ht
  rw [hat.all h.holds.tail_le hall] at hdone
  refine ⟨h.size_eq, ?_, ?_, h.sending_append t.done, nofun⟩
  · rw [hdone]
    exact h.holds.grow hle
  · show s.put ++ t.done = s.taken ++ (xs ++ t.done)
    rw [h.log, List.append_assoc]

/-- The cell of one byte of the pieces. -/
theorem Inv.inArray_cell (h : Inv size s xs) {t : Transfer} {pos cell : Nat}
    (hat : t.At s.buf.size pos) (hle : t.size.toNat ≤ s.buf.size) (hpos : pos ≤ s.buf.size)
    (hc : (cells t.pieces)[t.done.length]? = some cell) : InArray size [⟨cell, 1⟩] := by
  intro p hp
  obtain rfl := List.mem_singleton.mp hp
  obtain ⟨hlt, rfl⟩ := hat.cell hpos hc
  have := advance_le (n := t.done.length) hpos (by omega)
  have := h.size_eq
  show advance _ _ _ + 1 ≤ size + 1
  omega

theorem Inv.step (h : Inv size s xs) {ps : List Piece} {s' : Ring} (hst : Step s ps s') :
    InArray size ps ∧ ∃ ys, Inv size s' ys := by
  have hlen := h.holds.length_le
  have hpieces (pos n : Nat) (hpos : pos ≤ s.buf.size) (hn : n ≤ s.buf.size) :
      InArray size (copyPieces s.buf.size pos n) :=
    h.size_eq ▸ inArray_copyPieces hpos (by omega)
  cases hst with
  | put data hidle hb =>
    obtain ⟨havail, rfl⟩ := bufPut_eq hb
    have := h.room havail
    exact ⟨hpieces _ _ h.holds.tail_le (by omega), _, h.put hidle havail⟩
  | get n hidle hb =>
    obtain ⟨hn, rfl, rfl⟩ := bufGet_eq hb
    rw [h.holds.count_eq] at hn
    have htake := h.take hn
    rw [← hidle] at htake
    refine ⟨hpieces _ _ h.holds.head_le (by omega), xs.drop n, ?_⟩
    rw [h.holds.peek hn]
    exact htake
  | drain n hidle hpos hn =>
    have hn' := h.holds.count_eq ▸ hn
    exact ⟨sendPieces_eq s.buf n ▸ hpieces _ _ h.holds.head_le (by omega), _, h.drain hn⟩
  | drainByte ht hc =>
    obtain ⟨hat, hle, -⟩ := h.sending _ ht
    exact ⟨h.inArray_cell hat (by omega) h.holds.head_le hc, _, h.drainByte ht hc⟩
  | drained ht hall => exact ⟨nofun, _, h.drained ht hall⟩
  | fill n hidle hn =>
    have := h.room hn
    exact ⟨recvPieces_eq s.buf n ▸ hpieces _ _ h.holds.tail_le (by omega), _, h.fill hn⟩
  | fillByte byte ht hc =>
    obtain ⟨hat, hle, -⟩ := h.receiving _ ht
    exact ⟨h.inArray_cell hat (by omega) h.holds.tail_le hc, _, h.fillByte byte ht hc⟩
  | filled ht hall => exact ⟨nofun, _, h.filled ht hall⟩

end

theorem Reachable.inv {size : Nat} {s : Ring} (h : Reachable size s) : ∃ xs, Inv size s xs := by
  induction h with
  | new data => exact ⟨[], inv_new size data⟩
  | step _ hst ih =>
    obtain ⟨xs, hinv⟩ := ih
    exact (hinv.step hst).2

/-- The buffers are bounded queues: the bytes that were put in are those taken out and then
those that are there, the indices and the number of these are in their bounds, what the sender
has of a packet is the first of these, and the pieces of the next step lie in the array. -/
theorem fifo {size : Nat} {s : Ring} (h : Reachable size s) :
    s.put = s.taken ++ s.buf.peek s.buf.count ∧
      s.buf.tail ≤ size ∧ s.buf.head ≤ size ∧ s.buf.count ≤ size ∧
      s.buf.count + s.buf.avail = size ∧
      (∀ t ∈ s.sending, t.done <+: s.buf.peek s.buf.count) ∧
      ∀ ps s', Step s ps s' → ∀ p ∈ ps, p.off + p.len ≤ size + 1 := by
  obtain ⟨xs, hinv⟩ := h.inv
  have hpeek : s.buf.peek s.buf.count = xs := by
    rw [hinv.holds.count_eq, hinv.holds.peek (Nat.le_refl _), List.take_length]
  have hlen := hinv.holds.length_le
  have hsize := hinv.size_eq
  have htail := hinv.holds.tail_le
  have hhead := hinv.holds.head_le
  rw [hpeek, hinv.holds.count_eq, hinv.holds.avail_eq]
  refine ⟨hinv.log, by omega, by omega, by omega, by omega, fun t ht => (hinv.sending t ht).2.2,
    fun ps s' hst => (hinv.step hst).1⟩

/-- Around the end of an array of three bytes: a byte is sent while another comes in. -/
theorem fifo_around : ∃ s : Ring, s.put = [5, 6, 7, 8] ∧ s.taken = [5, 6, 7] ∧
    s.put = s.taken ++ s.buf.peek s.buf.count := by
  have h0 : Reachable 2 (Ring.new 2 fun _ => 0) := .new _
  have h1 := h0.step (.put [5, 6] rfl rfl)
  have h2 := h1.step (.get 2 rfl rfl)
  have h3 := h2.step (.put [7] rfl rfl)
  have h4 := h3.step (.drain 1 rfl (by decide) (by decide))
  have h5 := h4.step (.fill 1 rfl (by decide))
  have h6 := h5.step (.fillByte 8 rfl rfl)
  have h7 := h6.step (.drainByte rfl rfl)
  have h8 := h7.step (.drained rfl rfl)
  have h9 := h8.step (.filled rfl rfl)
  exact ⟨_, rfl, rfl, (fifo h9).1⟩

end Csup.Mux
