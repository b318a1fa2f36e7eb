import Mathlib.Data.List.Basic

/-!
# A stream with a window

A sender sends what is written in segments, never more than it was told there is
room for; a receiver takes the segments in, has what it took in read, and tells
the sender, from time to time, how far it may go: `size` beyond what was read.

The state carries its invariant, so that an operation is defined where it keeps
it. What it gives: a segment that arrives has room (`length_le_of_flight`), and
what was read is what was written (`take_read_prefix`).
-/

namespace Csup.Framework

/-- Counts are of elements since the beginning. -/
structure Flow (α : Type*) (size : Nat) where
  written : List α
  sent : Nat
  /-- how far the sender may go -/
  limit : Nat
  /-- the segments that were sent and not taken in -/
  flight : List (List α)
  received : List α
  read : Nat
  /-- what the receiver told, and the sender was not told -/
  wins : List Nat
  received_append : received ++ flight.flatten = written.take sent
  sent_le : sent ≤ written.length
  sent_le_limit : sent ≤ limit
  read_le : read ≤ received.length
  wins_sorted : (limit :: (wins ++ [read + size])).Pairwise (· ≤ ·)

namespace Flow

variable {α : Type*} {size : Nat}

/-- Nothing is written, and the sender may not send. -/
def new (α : Type*) (size : Nat) : Flow α size where
  written := []
  sent := 0
  limit := 0
  flight := []
  received := []
  read := 0
  wins := []
  received_append := rfl
  sent_le := Nat.le_refl _
  sent_le_limit := Nat.le_refl _
  read_le := Nat.le_refl _
  wins_sorted := by simp

variable (F : Flow α size)

/-! ## What the invariant gives -/

theorem length_received_le : F.received.length + F.flight.flatten.length = F.sent := by
  rw [← List.length_append, F.received_append, List.length_take]
  exact Nat.min_eq_left F.sent_le

theorem limit_le : F.limit ≤ F.read + size :=
  (List.pairwise_cons.1 F.wins_sorted).1 _ (by simp)

/-- What the sender may send is no more than there is room for. -/
theorem limit_sub_sent_le : F.limit - F.sent ≤ size := by
  have := F.limit_le
  have := F.read_le
  have := F.length_received_le
  omega

/-- There is room for a segment that arrives. -/
theorem length_le_of_flight {seg : List α} {rest : List (List α)} (h : F.flight = seg :: rest) :
    (F.received.drop F.read).length + seg.length ≤ size := by
  have h1 := F.length_received_le
  have h2 := F.limit_le
  have h3 := F.sent_le_limit
  have h4 := F.read_le
  rw [h, List.flatten_cons, List.length_append] at h1
  rw [List.length_drop]
  omega

/-- What was read is a part of what was written, from the beginning. -/
theorem take_read_prefix : F.received.take F.read <+: F.written := by
  have h : F.received <+: F.written.take F.sent := F.received_append ▸ List.prefix_append ..
  exact (List.take_prefix ..).trans <| h.trans <| List.take_prefix ..

/-! ## The sender -/

def write (xs : List α) : Flow α size where
  written := F.written ++ xs
  sent := F.sent
  limit := F.limit
  flight := F.flight
  received := F.received
  read := F.read
  wins := F.wins
  received_append := by rw [F.received_append, List.take_append_of_le_length F.sent_le]
  sent_le := by
    have := F.sent_le
    rw [List.length_append]
    omega
  sent_le_limit := F.sent_le_limit
  read_le := F.read_le
  wins_sorted := F.wins_sorted

/-- The next `n` elements, sent. -/
def send (n : Nat) (hl : F.sent + n ≤ F.limit) (hw : F.sent + n ≤ F.written.length) :
    Flow α size where
  written := F.written
  sent := F.sent + n
  limit := F.limit
  flight := F.flight ++ [(F.written.drop F.sent).take n]
  received := F.received
  read := F.read
  wins := F.wins
  received_append := by
    rw [List.flatten_append, ← List.append_assoc, F.received_append, List.take_add]
    simp
  sent_le := hw
  sent_le_limit := hl
  read_le := F.read_le
  wins_sorted := F.wins_sorted

theorem limit_le_update {w : Nat} {ws : List Nat} (h : F.wins = w :: ws) : F.limit ≤ w := by
  have := F.wins_sorted
  rw [h, List.cons_append] at this
  exact (List.pairwise_cons.1 this).1 w (by simp)

/-- The sender is told how far it may go. -/
def update {w : Nat} {ws : List Nat} (h : F.wins = w :: ws) : Flow α size where
  written := F.written
  sent := F.sent
  limit := w
  flight := F.flight
  received := F.received
  read := F.read
  wins := ws
  received_append := F.received_append
  sent_le := F.sent_le
  sent_le_limit := Nat.le_trans F.sent_le_limit (F.limit_le_update h)
  read_le := F.read_le
  wins_sorted := by
    have := F.wins_sorted
    rw [h, List.cons_append] at this
    exact (List.pairwise_cons.1 this).2

/-- It does not listen. -/
def ignore {w : Nat} {ws : List Nat} (h : F.wins = w :: ws) : Flow α size where
  written := F.written
  sent := F.sent
  limit := F.limit
  flight := F.flight
  received := F.received
  read := F.read
  wins := ws
  received_append := F.received_append
  sent_le := F.sent_le
  sent_le_limit := F.sent_le_limit
  read_le := F.read_le
  wins_sorted := by
    refine F.wins_sorted.sublist ?_
    rw [h, List.cons_append]
    exact (List.sublist_cons_self ..).cons_cons _

/-! ## The receiver -/

/-- The first segment is taken in. -/
def deliver {seg : List α} {rest : List (List α)} (h : F.flight = seg :: rest) : Flow α size where
  written := F.written
  sent := F.sent
  limit := F.limit
  flight := rest
  received := F.received ++ seg
  read := F.read
  wins := F.wins
  received_append := by
    rw [← F.received_append, h, List.flatten_cons, List.append_assoc]
  sent_le := F.sent_le
  sent_le_limit := F.sent_le_limit
  read_le := by
    have := F.read_le
    rw [List.length_append]
    omega
  wins_sorted := F.wins_sorted

/-- The next `n` elements are read. -/
def consume (n : Nat) (h : F.read + n ≤ F.received.length) : Flow α size where
  written := F.written
  sent := F.sent
  limit := F.limit
  flight := F.flight
  received := F.received
  read := F.read + n
  wins := F.wins
  received_append := F.received_append
  sent_le := F.sent_le
  sent_le_limit := F.sent_le_limit
  read_le := h
  wins_sorted := by
    have := F.wins_sorted
    rw [← List.cons_append, List.pairwise_append] at this ⊢
    refine ⟨this.1, List.pairwise_singleton .., fun a ha b hb => ?_⟩
    rw [List.mem_singleton] at hb
    have := this.2.2 a ha _ (List.mem_singleton_self _)
    omega

/-- The receiver tells how far the sender may go. -/
def announce : Flow α size where
  written := F.written
  sent := F.sent
  limit := F.limit
  flight := F.flight
  received := F.received
  read := F.read
  wins := F.wins ++ [F.read + size]
  received_append := F.received_append
  sent_le := F.sent_le
  sent_le_limit := F.sent_le_limit
  read_le := F.read_le
  wins_sorted := by
    have := F.wins_sorted
    rw [← List.cons_append, List.pairwise_append]
    refine ⟨this, List.pairwise_singleton .., fun a ha b hb => ?_⟩
    rw [List.mem_singleton.1 hb]
    rw [← List.cons_append, List.mem_append, List.mem_singleton] at ha
    rcases ha with ha | ha
    · rw [← List.cons_append, List.pairwise_append] at this
      exact this.2.2 a ha _ (List.mem_singleton_self _)
    · exact Nat.le_of_eq ha

end Flow

end Csup.Framework
