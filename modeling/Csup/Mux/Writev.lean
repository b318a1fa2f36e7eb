import Csup.Mux.Defs
import Mathlib.Algebra.GroupWithZero.Nat

/-!
# Writes of several pieces: `sock_writev`

The entries of the vector are the bytes they point to. What the kernel does is a
parameter: a list of the results of `writev`, each of which hands over as many bytes
as it counts, from the first entry on.

* `sockWritev_all`: all the entries are handed over, unless a write ends where an entry
  ends and another follows;
* `sockWritev_short`: then, less is, and the call returns 0;
* `dataIov_flatten`: the entries of `sender_loop` are the packet.
-/

namespace Csup.Mux

open Csup.Framework (RingBuffer slice length_slice)

/-- A result of `writev`. -/
inductive Writev
  | eintr
  | error
  | count (n : Nat)

/-- The inner loop: the entries from the one on in which the count ends, and what is left of
the count for it. `none`: there is no entry to compare with. -/
def skipWritten : List (List Byte) → Nat → Option (List (List Byte) × Nat)
  | iov, 0 => some (iov, 0)
  | [], _ + 1 => none
  | e :: iov, n + 1 =>
    if e.length ≤ n + 1 then skipWritten iov (n + 1 - e.length) else some (e :: iov, n + 1)

/-- `sock_writev`, and the bytes it handed over. `none`: it is not done with these results. -/
def sockWritev (iov : List (List Byte)) : List Writev → Option (Int × List Byte)
  | [] => none
  | .eintr :: results => sockWritev iov results
  | .error :: _ => some (-1, [])
  | .count n :: results =>
    match skipWritten iov n with
    | none => none
    | some (_, 0) => some (0, iov.flatten.take n)
    | some ([], _ + 1) => none
    | some (e :: iov', left + 1) =>
      (sockWritev (e.drop (left + 1) :: iov') results).map fun r =>
        (r.1, iov.flatten.take n ++ r.2)

/-- The bytes of a result. -/
def Writev.handed : Writev → Nat
  | count n => n
  | _ => 0

/-- One of the writes ends `n` bytes from the beginning. -/
def EndsAt (results : List Writev) (n : Nat) : Prop :=
  ∃ k, ((results.take k).map Writev.handed).sum = n

/-- A write ends where an entry ends and another follows. -/
def Abuts (iov : List (List Byte)) (results : List Writev) : Prop :=
  ∃ done todo, iov = done ++ todo ∧ done ≠ [] ∧ todo ≠ [] ∧ EndsAt results done.flatten.length

section

variable {iov iov' : List (List Byte)} {results : List Writev} {handed : List Byte} {m n left : Nat}

theorem skipWritten_spec (h : skipWritten iov n = some (iov', left)) :
    ∃ done, iov = done ++ iov' ∧ done.flatten.length + left = n ∧
      (0 < left → ∃ e tl, iov' = e :: tl ∧ left < e.length) := by
  induction iov, n using skipWritten.induct with
  | case1 iov =>
    simp only [skipWritten, Option.some.injEq, Prod.mk.injEq] at h
    obtain ⟨rfl, rfl⟩ := h
    exact ⟨[], rfl, rfl, fun h0 => absurd h0 (by omega)⟩
  | case2 n => exact absurd h (by simp [skipWritten])
  | case3 e iov n hle ih =>
    rw [skipWritten, if_pos hle] at h
    obtain ⟨done, hdone, hlen, hcut⟩ := ih h
    have hsum : (e :: done).flatten.length + left = n + 1 := by
      rw [List.flatten_cons, List.length_append, Nat.add_assoc, hlen, Nat.add_sub_of_le hle]
    exact ⟨e :: done, by rw [hdone, List.cons_append], hsum, hcut⟩
  | case4 e iov n hlt =>
    rw [skipWritten, if_neg hlt] at h
    obtain ⟨rfl, rfl⟩ := Prod.mk.inj (Option.some.inj h)
    exact ⟨[], rfl, by simp, fun _ => ⟨e, iov, rfl, by omega⟩⟩

theorem endsAt_eintr (h : 0 < m) : EndsAt (.eintr :: results) m ↔ EndsAt results m := by
  constructor
  · intro ⟨k, hk⟩
    cases k with
    | zero => simp at hk; omega
    | succ k => exact ⟨k, by simpa [Writev.handed] using hk⟩
  · intro ⟨k, hk⟩
    exact ⟨k + 1, by simpa [Writev.handed] using hk⟩

theorem endsAt_count (h : 0 < m) :
    EndsAt (.count n :: results) m ↔ n ≤ m ∧ EndsAt results (m - n) := by
  constructor
  · intro ⟨k, hk⟩
    cases k with
    | zero => simp at hk; omega
    | succ k =>
      simp only [List.take_succ_cons, List.map_cons, List.sum_cons, Writev.handed] at hk
      exact ⟨by omega, k, by omega⟩
  · intro ⟨hle, k, hk⟩
    exact ⟨k + 1, by simp only [List.take_succ_cons, List.map_cons, List.sum_cons, Writev.handed]; omega⟩

theorem flatten_length_pos {pre todo : List (List Byte)} (hpos : ∀ e ∈ pre ++ todo, e ≠ [])
    (hpre : pre ≠ []) : 0 < pre.flatten.length := by
  cases pre with
  | nil => exact absurd rfl hpre
  | cons e pre =>
    have := List.length_pos_iff.mpr (hpos e (by simp))
    simp only [List.flatten_cons, List.length_append]
    omega

theorem rest_pos {done tl : List (List Byte)} {e : List Byte} (hpos : ∀ x ∈ done ++ e :: tl, x ≠ [])
    (hlt : left < e.length) : ∀ x ∈ e.drop left :: tl, x ≠ [] := by
  intro x hx
  rcases List.mem_cons.mp hx with rfl | hx
  · exact List.ne_nil_of_length_pos (by rw [List.length_drop]; omega)
  · exact hpos x (by simp [hx])

/-- Behind a write that ends in the entry `e`, what is left of it is an entry. -/
theorem abuts_count {done tl : List (List Byte)} {e : List Byte}
    (hpos : ∀ x ∈ done ++ e :: tl, x ≠ []) (hlen : done.flatten.length + left = n) (h0 : 0 < left)
    (hlt : left < e.length) :
    Abuts (done ++ e :: tl) (.count n :: results) ↔ Abuts (e.drop left :: tl) results := by
  have hdrop (pre : List (List Byte)) : (done ++ e :: pre).flatten.length =
      (e.drop left :: pre).flatten.length + n := by
    simp only [List.flatten_append, List.flatten_cons, List.length_append, List.length_drop]
    omega
  constructor
  · rintro ⟨pre, todo, heq, hpre, htodo, hends⟩
    have hp := flatten_length_pos (heq ▸ hpos) hpre
    obtain ⟨hle, hends⟩ := (endsAt_count hp).mp hends
    rcases List.append_eq_append_iff.mp heq with ⟨mid, rfl, hmid⟩ | ⟨mid, rfl, hmid⟩
    · cases mid with
      | nil => simp only [List.append_nil] at hle; omega
      | cons x mid =>
        obtain ⟨rfl, rfl⟩ := List.cons.inj hmid
        rw [hdrop, Nat.add_sub_cancel] at hends
        exact ⟨e.drop left :: mid, todo, by simp, by simp, htodo, hends⟩
    · simp only [List.flatten_append, List.length_append] at hlen
      omega
  · rintro ⟨pre, todo, heq, hpre, htodo, hends⟩
    cases pre with
    | nil => exact absurd rfl hpre
    | cons x pre =>
      obtain ⟨rfl, rfl⟩ := List.cons.inj heq
      refine ⟨done ++ e :: pre, todo, by simp, by simp, htodo, ?_⟩
      rw [hdrop]
      exact (endsAt_count (by omega)).mpr ⟨by omega, by rwa [Nat.add_sub_cancel]⟩

theorem abuts_eintr (hpos : ∀ e ∈ iov, e ≠ []) :
    Abuts iov (.eintr :: results) ↔ Abuts iov results := by
  constructor
  all_goals
    rintro ⟨pre, todo, rfl, hpre, htodo, hends⟩
    have hp := flatten_length_pos hpos hpre
  · exact ⟨pre, todo, rfl, hpre, htodo, (endsAt_eintr hp).mp hends⟩
  · exact ⟨pre, todo, rfl, hpre, htodo, (endsAt_eintr hp).mpr hends⟩

/-- A write that ends behind all the entries is behind every place where two meet. -/
theorem not_abuts_end (hpos : ∀ e ∈ iov, e ≠ []) :
    ¬Abuts iov (.count iov.flatten.length :: results) := by
  rintro ⟨pre, todo, rfl, hpre, htodo, hends⟩
  have hp := flatten_length_pos hpos hpre
  have ht := @flatten_length_pos todo pre (by simpa [or_comm] using hpos) htodo
  have hle := ((endsAt_count hp).mp hends).1
  simp only [List.flatten_append, List.length_append] at hle
  omega

/-- What the loop goes on with is the vector without what was handed over. -/
theorem flatten_split {done tl : List (List Byte)} {e : List Byte}
    (hlen : done.flatten.length + left = n) (hlt : left < e.length) :
    (done ++ e :: tl).flatten.take n ++ (e.drop left :: tl).flatten = (done ++ e :: tl).flatten := by
  have hdrop : (done ++ e :: tl).flatten.drop n = (e.drop left :: tl).flatten := by
    rw [List.flatten_append, ← hlen, List.drop_append, List.flatten_cons, List.flatten_cons,
      Nat.add_sub_cancel_left, List.drop_of_length_le (by omega), List.nil_append,
      List.drop_append_of_le_length (by omega)]
  rw [← hdrop, List.take_append_drop]

/-- One call of `writev`: it ends the call of `sock_writev`, or goes on inside an entry. -/
theorem sockWritev_count (h : sockWritev iov (.count n :: results) = some (0, handed)) :
    (∃ done todo, iov = done ++ todo ∧ done.flatten.length = n ∧ handed = done.flatten) ∨
    ∃ done e tl left more, iov = done ++ e :: tl ∧ done.flatten.length + left = n ∧ 0 < left ∧
      left < e.length ∧ sockWritev (e.drop left :: tl) results = some (0, more) ∧
      handed = iov.flatten.take n ++ more := by
  rw [sockWritev] at h
  split at h
  · cases h
  · rename_i todo hskip
    obtain ⟨done, rfl, hlen, -⟩ := skipWritten_spec hskip
    simp only [Option.some.injEq, Prod.mk.injEq, true_and] at h
    refine .inl ⟨done, todo, rfl, hlen, ?_⟩
    rw [← h, List.flatten_append, ← hlen, Nat.add_zero, List.take_left]
  · cases h
  · rename_i e tl left hskip
    obtain ⟨done, rfl, hlen, hcut⟩ := skipWritten_spec hskip
    obtain ⟨e', tl', heq, hlt⟩ := hcut (by omega)
    obtain ⟨rfl, rfl⟩ := List.cons.inj heq
    obtain ⟨⟨ret, more⟩, hmore, hr⟩ := Option.map_eq_some_iff.mp h
    obtain ⟨rfl, rfl⟩ := Prod.mk.inj hr
    exact .inr ⟨done, e, tl, left + 1, more, rfl, hlen, by omega, hlt, hmore, rfl⟩

/-- What is handed over is the vector, from its beginning on. -/
theorem sockWritev_prefix (h : sockWritev iov results = some (0, handed)) :
    ∃ lost, iov.flatten = handed ++ lost := by
  induction results generalizing iov handed with
  | nil => cases h
  | cons r results ih =>
    cases r with
    | eintr => exact ih h
    | error => cases h
    | count n =>
      rcases sockWritev_count h with ⟨done, todo, rfl, -, rfl⟩ |
        ⟨done, e, tl, left, more, rfl, hlen, -, hlt, hmore, rfl⟩
      · exact ⟨todo.flatten, List.flatten_append⟩
      · obtain ⟨lost, hlost⟩ := ih hmore
        exact ⟨lost, by rw [List.append_assoc, ← hlost, flatten_split hlen hlt]⟩

/-- `sock_writev`, where no write ends between two entries. -/
theorem sockWritev_all (hpos : ∀ e ∈ iov, e ≠ []) (hcount : ∀ n, .count n ∈ results → 0 < n)
    (h : sockWritev iov results = some (0, handed)) (hfree : ¬Abuts iov results) :
    handed = iov.flatten := by
  induction results generalizing iov handed with
  | nil => cases h
  | cons r results ih =>
    have hcount' : ∀ n, .count n ∈ results → 0 < n := fun n hn => hcount n (List.mem_cons_of_mem _ hn)
    cases r with
    | eintr => exact ih hpos hcount' h (fun ha => hfree ((abuts_eintr hpos).mpr ha))
    | error => cases h
    | count n =>
      have hn := hcount n List.mem_cons_self
      rcases sockWritev_count h with ⟨done, todo, rfl, hlen, rfl⟩ |
        ⟨done, e, tl, left, more, rfl, hlen, h0, hlt, hmore, rfl⟩
      · have hdone : done ≠ [] := by
          rintro rfl
          exact absurd hlen (Nat.ne_of_lt hn)
        have htodo : todo = [] := by
          by_contra htodo
          exact hfree ⟨done, todo, rfl, hdone, htodo, 1, by simp [Writev.handed, hlen]⟩
        rw [htodo, List.append_nil]
      · rw [ih (rest_pos hpos hlt) hcount' hmore (fun ha => hfree ((abuts_count hpos hlen h0 hlt).mpr ha)),
          flatten_split hlen hlt]

/-- `sock_writev`, where a write ends between two entries. -/
theorem sockWritev_short (hpos : ∀ e ∈ iov, e ≠ []) (h : sockWritev iov results = some (0, handed))
    (habut : Abuts iov results) : handed.length < iov.flatten.length := by
  induction results generalizing iov handed with
  | nil => cases h
  | cons r results ih =>
    cases r with
    | eintr => exact ih hpos h ((abuts_eintr hpos).mp habut)
    | error => cases h
    | count n =>
      rcases sockWritev_count h with ⟨done, todo, rfl, hlen, rfl⟩ |
        ⟨done, e, tl, left, more, rfl, hlen, h0, hlt, hmore, rfl⟩
      · have htodo : todo ≠ [] := by
          rintro rfl
          rw [List.append_nil] at hpos habut
          exact not_abuts_end hpos (hlen ▸ habut)
        have := @flatten_length_pos todo done (by simpa [or_comm] using hpos) htodo
        rw [List.flatten_append, List.length_append]
        omega
      · have := ih (rest_pos hpos hlt) hmore ((abuts_count hpos hlen h0 hlt).mp habut)
        have hlens := congrArg List.length (@flatten_split n left done tl e hlen hlt)
        simp only [List.length_append] at hlens ⊢
        omega

/-- `sock_writev` writes everything, unless a write ends where an entry ends and another
follows. -/
theorem sockWritev_all_iff (hpos : ∀ e ∈ iov, e ≠ []) (hcount : ∀ n, .count n ∈ results → 0 < n)
    (h : sockWritev iov results = some (0, handed)) :
    handed = iov.flatten ↔ ¬Abuts iov results := by
  refine ⟨fun heq habut => ?_, sockWritev_all hpos hcount h⟩
  exact Nat.lt_irrefl _ (heq ▸ sockWritev_short hpos h habut)

end

/-- A write that takes half of the second entry, and the next one the rest. -/
theorem sockWritev_all_iff_halves : [(5 : Byte), 0, 0, 2, 120, 121] = [[5, 0, 0, 2], [120, 121]].flatten ↔
    ¬Abuts [[5, 0, 0, 2], [120, 121]] [.eintr, .count 5, .count 1] :=
  @sockWritev_all_iff [[5, 0, 0, 2], [120, 121]] [.eintr, .count 5, .count 1] [5, 0, 0, 2, 120, 121]
    (by decide) (by simp) rfl

/-- The header of a packet is written, and not its data. -/
theorem sockWritev_header :
    ∃ (iov : List (List Byte)) (results : List Writev) (handed : List Byte), (∀ e ∈ iov, e ≠ []) ∧
      (∀ n, .count n ∈ results → 0 < n) ∧ sockWritev iov results = some (0, handed) ∧
      handed ≠ iov.flatten :=
  ⟨[[5, 0, 0, 2], [120, 121]], [.count 4], [5, 0, 0, 2], by simp, by simp, rfl, by simp⟩

/-! ## The packets of the sender -/

/-- The vector of `sender_loop`: a header and `size` bytes of the buffer, in two pieces where
they go on at its first cell. -/
def dataIov (h : Header) (b : Buf) (size : Nat) : List (List Byte) :=
  let len := min size (b.size + 1 - b.head)
  h.encode :: slice b.data b.head len :: if len < size then [slice b.data 0 (size - len)] else []

/-- The entries are the packet that is sent. -/
theorem dataIov_flatten (id : ChanId) (b : Buf) (size : Nat) :
    (dataIov (.data id size) b size).flatten = Packet.wire ⟨.data id size, b.peek size⟩ := by
  simp only [dataIov, Packet.wire, RingBuffer.peek]
  by_cases hlt : b.size + 1 - b.head < size
  · have hmin : min size (b.size + 1 - b.head) = b.size + 1 - b.head := by omega
    rw [if_pos hlt, if_pos (by omega), hmin]
    simp
  · have hmin : min size (b.size + 1 - b.head) = size := by omega
    rw [if_neg hlt, if_neg (by omega), hmin]
    simp

/-- The step `sendData` of the sender, where no write ends between the header and the data or
between the two pieces of it. -/
theorem sockWritev_packet {id : ChanId} {b : Buf} {size : Nat} {results : List Writev}
    {handed : List Byte} (hsize : 0 < size) (hhead : b.head ≤ b.size)
    (hcount : ∀ n, .count n ∈ results → 0 < n)
    (h : sockWritev (dataIov (.data id size) b size) results = some (0, handed))
    (hfree : ¬Abuts (dataIov (.data id size) b size) results) :
    handed = Packet.wire ⟨.data id size, b.peek size⟩ := by
  rw [← dataIov_flatten]
  refine sockWritev_all ?_ hcount h hfree
  have hlen : 0 < min size (b.size + 1 - b.head) := by omega
  intro e he
  refine List.ne_nil_of_length_pos ?_
  rcases List.mem_cons.mp he with rfl | he
  · simp [Header.encode]
  rcases List.mem_cons.mp he with rfl | he
  · rwa [length_slice]
  split at he
  · rw [List.mem_singleton.mp he, length_slice]
    omega
  · cases he

end Csup.Mux
