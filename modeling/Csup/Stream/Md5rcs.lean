import Csup.Base.Clib
import Csup.Framework.Rounds

/-!
# The checksum filter for RCS files

`md5rcsfilter_flush` of `stream.c`. The digest context is the list of the bytes it
was fed. A flush scans the buffer in runs (`turn`, one round of its loop);
`step` says what a single byte does:

* `md5rcsfilterFlush_eq`: the loop ends, and does to the filter what `step` does byte
  by byte;
* `foldl_md5rcsfilterFlush`: the flushes of the pieces are the flush of the
  whole;
* `Wrstream.close_run`: so the buffer of a stream does not matter.
-/

namespace Csup.Stream

open Csup.Framework

/-- `IS_WS` -/
def isWs (b : Byte) : Bool :=
  b = 32 || b = 10 || b = 9 || b = 8 || b = 11 || b = 12 || b = 13

/-- `IS_SPECIAL` -/
def isSpecial (b : Byte) : Bool := b = 36 || b = 44 || b = 58 || b = 59 || b = 64

/-- `IS_PRINT` -/
def isPrint (b : Byte) : Bool := !isWs b && b ≠ 64

/-- The states of the scanner. -/
inductive State
  | print | ws | string | seen
  deriving DecidableEq, Repr

/-- `struct md5filter`; `fed` is what `MD5_Update` was given. -/
structure Md5filter where
  state : State
  lastc : Byte
  fed : List Byte
  deriving DecidableEq, Repr

def md5filterInit : Md5filter := ⟨.print, 59, []⟩

namespace Md5filter

/-- `MD5_Update` -/
def update (mf : Md5filter) (bs : List Byte) : Md5filter := { mf with fed := mf.fed ++ bs }

/-- The rounds of the loop, one for each state: the filter and what is left of
the buffer. -/
def printTurn (mf : Md5filter) (buf : List Byte) : Md5filter × List Byte :=
  let run := buf.takeWhile isPrint
  let mf := { mf.update run with lastc := run.getLastD mf.lastc }
  match buf.dropWhile isPrint with
  | [] => (mf, [])
  | c :: rest =>
    if c = 64 then ({ mf.update [c] with state := .string }, rest)
    else ({ mf with state := .ws }, c :: rest)

def wsTurn (mf : Md5filter) (buf : List Byte) : Md5filter × List Byte :=
  match buf.dropWhile isWs with
  | [] => (mf, [])
  | c :: rest =>
    if c = 64 then
      let mf := if mf.lastc = 64 then mf.update [32] else mf
      ({ mf.update [c] with state := .string }, rest)
    else
      let mf := if !isSpecial c && !isSpecial mf.lastc then mf.update [32] else mf
      ({ mf with state := .print }, c :: rest)

def stringTurn (mf : Md5filter) (buf : List Byte) : Md5filter × List Byte :=
  let mf := mf.update (buf.takeWhile (· ≠ 64))
  match buf.dropWhile (· ≠ 64) with
  | [] => (mf, [])
  | c :: rest => ({ mf.update [c] with state := .seen }, rest)

def seenTurn (mf : Md5filter) : List Byte → Md5filter × List Byte
  | [] => (mf, [])
  | c :: rest =>
    if c = 64 then ({ mf.update [c] with state := .string }, rest)
    else if isWs c then ({ mf with lastc := 64, state := .ws }, c :: rest)
    else ({ mf with state := .print }, c :: rest)

def turn (mf : Md5filter) (buf : List Byte) : Md5filter × List Byte :=
  match mf.state with
  | .print => mf.printTurn buf
  | .ws => mf.wsTurn buf
  | .string => mf.stringTurn buf
  | .seen => mf.seenTurn buf

end Md5filter

/-- `md5rcsfilter_flush`. Two rounds for a byte are enough (`md5rcsfilterFlush_eq`). -/
def md5rcsfilterFlush (mf : Md5filter) (buf : List Byte) : Md5filter :=
  (loop Md5filter.turn (2 * buf.length + 1) mf buf).1

namespace Md5filter

/-! ## One byte -/

/-- A byte outside of strings that is neither white space nor `@`. -/
def printed (mf : Md5filter) (c : Byte) : Md5filter :=
  { mf.update [c] with lastc := c, state := .print }

/-- What the filter does on the next byte. -/
def step (mf : Md5filter) (c : Byte) : Md5filter :=
  match mf.state with
  | .print =>
    if c = 64 then { mf.update [c] with state := .string }
    else if isWs c then { mf with state := .ws }
    else mf.printed c
  | .ws =>
    if c = 64 then
      { (if mf.lastc = 64 then mf.update [32] else mf).update [c] with state := .string }
    else if isWs c then mf
    else (if !isSpecial c && !isSpecial mf.lastc then mf.update [32] else mf).printed c
  | .string => { mf.update [c] with state := if c = 64 then .seen else .string }
  | .seen =>
    if c = 64 then { mf.update [c] with state := .string }
    else if isWs c then { mf with lastc := 64, state := .ws }
    else mf.printed c

@[simp] theorem update_nil (mf : Md5filter) : mf.update [] = mf := by simp [update]

@[simp] theorem update_update (mf : Md5filter) (a b : List Byte) :
    (mf.update a).update b = mf.update (a ++ b) := by simp [update]

@[simp] theorem state_update (mf : Md5filter) (bs : List Byte) :
    (mf.update bs).state = mf.state := rfl

@[simp] theorem lastc_update (mf : Md5filter) (bs : List Byte) :
    (mf.update bs).lastc = mf.lastc := rfl

@[simp] theorem fed_update (mf : Md5filter) (bs : List Byte) :
    (mf.update bs).fed = mf.fed ++ bs := rfl

theorem isWs_of_not_isPrint {c : Byte} (h : isPrint c = false) (hc : c ≠ 64) : isWs c = true := by
  simpa [isPrint, hc] using h

theorem isPrint_iff {c : Byte} : isPrint c = true ↔ isWs c = false ∧ c ≠ 64 := by
  simp [isPrint]

/-! ## Runs -/

/-- A run in the state `PRINT`. -/
theorem foldl_step_print {mf : Md5filter} {run : List Byte} (hs : mf.state = .print)
    (h : ∀ c ∈ run, isPrint c = true) :
    run.foldl step mf = { mf.update run with lastc := run.getLastD mf.lastc } := by
  induction run generalizing mf with
  | nil => simp
  | cons c run ih =>
    obtain ⟨hws, hat⟩ := isPrint_iff.mp (h c (List.mem_cons_self ..))
    have hstep : mf.step c = mf.printed c := by simp [step, hs, hws, hat]
    rw [List.foldl_cons, hstep, ih rfl fun d hd => h d (List.mem_cons_of_mem _ hd)]
    simp only [printed, update, hs, List.getLastD_cons, List.append_assoc, List.singleton_append]

/-- A run in the state `WS`. -/
theorem foldl_step_ws {mf : Md5filter} {run : List Byte} (hs : mf.state = .ws)
    (h : ∀ c ∈ run, isWs c = true) : run.foldl step mf = mf := by
  induction run with
  | nil => rfl
  | cons c run ih =>
    have hws := h c (List.mem_cons_self ..)
    have hat : c ≠ 64 := by
      rintro rfl
      exact absurd hws (by decide)
    have hstep : mf.step c = mf := by simp [step, hs, hws, hat]
    rw [List.foldl_cons, hstep, ih fun d hd => h d (List.mem_cons_of_mem _ hd)]

/-- A run in the state `STRING`. -/
theorem foldl_step_string {mf : Md5filter} {run : List Byte} (hs : mf.state = .string)
    (h : ∀ c ∈ run, c ≠ 64) : run.foldl step mf = mf.update run := by
  induction run generalizing mf with
  | nil => simp
  | cons c run ih =>
    have hat := h c (List.mem_cons_self ..)
    have hstep : mf.step c = mf.update [c] := by simp [step, hs, hat, update]
    rw [List.foldl_cons, hstep, @ih (mf.update [c]) hs fun d hd => h d (List.mem_cons_of_mem _ hd)]
    simp

/-! ## One round -/

theorem foldl_printTurn {mf : Md5filter} (hs : mf.state = .print) (buf : List Byte) :
    (mf.printTurn buf).2.foldl step (mf.printTurn buf).1 = buf.foldl step mf := by
  have hrun := @foldl_step_print mf (buf.takeWhile isPrint) hs all_takeWhile
  simp only [printTurn]
  split
  · rename_i hd
    rw [takeWhile_of_dropWhile hd] at hrun ⊢
    exact hrun.symm
  · rename_i c rest hd
    obtain ⟨hbuf, hc⟩ := dropWhile_eq_cons hd
    conv_rhs => rw [hbuf, List.foldl_append, hrun, List.foldl_cons]
    split
    · rename_i hat
      congr 1
      simp [step, hs, hat, update]
    · rename_i hat
      have hws := isWs_of_not_isPrint hc hat
      rw [List.foldl_cons]
      congr 1
      simp [step, hs, hat, hws]

theorem foldl_wsTurn {mf : Md5filter} (hs : mf.state = .ws) (buf : List Byte) :
    (mf.wsTurn buf).2.foldl step (mf.wsTurn buf).1 = buf.foldl step mf := by
  have hrun := @foldl_step_ws mf (buf.takeWhile isWs) hs all_takeWhile
  simp only [wsTurn]
  split
  · rename_i hd
    rw [takeWhile_of_dropWhile hd] at hrun
    exact hrun.symm
  · rename_i c rest hd
    obtain ⟨hbuf, hc⟩ := dropWhile_eq_cons hd
    conv_rhs => rw [hbuf, List.foldl_append, hrun, List.foldl_cons]
    split
    · rename_i hat
      congr 1
      simp [step, hs, hat]
    · rename_i hat
      rw [List.foldl_cons]
      congr 1
      simp [step, hs, hat, hc, printed, update]

theorem foldl_stringTurn {mf : Md5filter} (hs : mf.state = .string) (buf : List Byte) :
    (mf.stringTurn buf).2.foldl step (mf.stringTurn buf).1 = buf.foldl step mf := by
  have hrun := @foldl_step_string mf (buf.takeWhile (· ≠ 64)) hs
    fun c hc => by simpa using all_takeWhile c hc
  simp only [stringTurn]
  split
  · rename_i hd
    rw [takeWhile_of_dropWhile hd] at hrun ⊢
    exact hrun.symm
  · rename_i c rest hd
    obtain ⟨hbuf, hc⟩ := dropWhile_eq_cons hd
    have hat : c = 64 := by simpa using hc
    conv_rhs => rw [hbuf, List.foldl_append, hrun, List.foldl_cons]
    congr 1
    simp [step, hs, hat, update]

theorem foldl_seenTurn {mf : Md5filter} (hs : mf.state = .seen) (buf : List Byte) :
    (mf.seenTurn buf).2.foldl step (mf.seenTurn buf).1 = buf.foldl step mf := by
  rcases buf with - | ⟨c, rest⟩
  · rfl
  · simp only [seenTurn]
    split
    · rename_i hat
      simp [step, hs, hat]
    · rename_i hat
      split
      · rename_i hws
        simp [step, hs, hat, hws]
      · rename_i hws
        simp [step, hs, hat, hws, printed, update]

/-- A round leaves what it has not yet done to the rest of the buffer. -/
theorem foldl_turn (mf : Md5filter) (buf : List Byte) :
    (mf.turn buf).2.foldl step (mf.turn buf).1 = buf.foldl step mf := by
  simp only [turn]
  split
  · exact foldl_printTurn ‹_› buf
  · exact foldl_wsTurn ‹_› buf
  · exact foldl_stringTurn ‹_› buf
  · exact foldl_seenTurn ‹_› buf

/-! ## The loop -/

/-- Whether the next round does no more than to change the state. -/
def stuck (mf : Md5filter) : List Byte → Bool
  | [] => false
  | c :: _ =>
    match mf.state with
    | .print => isWs c
    | .ws => isPrint c
    | .string => false
    | .seen => c ≠ 64

/-- A bound of the rounds that are left. -/
def todo (mf : Md5filter) (buf : List Byte) : Nat := 2 * buf.length + (mf.stuck buf).toNat

theorem todo_le (mf : Md5filter) (buf : List Byte) : mf.todo buf ≤ 2 * buf.length + 1 := by
  have := Bool.toNat_le (mf.stuck buf)
  simp only [todo]
  omega

theorem todo_lt_of_length {mf mf' : Md5filter} {buf rest : List Byte}
    (h : rest.length < buf.length) : mf'.todo rest < mf.todo buf := by
  have := mf'.todo_le rest
  have : 2 * buf.length ≤ mf.todo buf := Nat.le_add_right ..
  omega

theorem todo_lt_of_stuck {mf mf' : Md5filter} {buf : List Byte} (h : mf.stuck buf = true)
    (h' : mf'.stuck buf = false) : mf'.todo buf < mf.todo buf := by
  simp only [todo, h, h', Bool.toNat_true, Bool.toNat_false]
  omega

/-- What a run leaves is shorter, or all there was. -/
theorem length_lt_of_run {p : Byte → Bool} {buf rest : List Byte} {c : Byte}
    (h : buf.dropWhile p = c :: rest) :
    rest.length < buf.length ∧ (c :: rest = buf ∨ (c :: rest).length < buf.length) := by
  obtain ⟨hbuf, -⟩ := dropWhile_eq_cons h
  have hlen := congrArg List.length hbuf
  rw [List.length_append, List.length_cons] at hlen
  refine ⟨by omega, ?_⟩
  rcases hrun : buf.takeWhile p with - | ⟨d, run⟩
  · rw [hrun, List.nil_append] at hbuf
    exact .inl hbuf.symm
  · rw [hrun, List.length_cons] at hlen
    rw [List.length_cons]
    exact .inr (by omega)

theorem todo_printTurn {mf : Md5filter} (hs : mf.state = .print) (c : Byte) (l : List Byte) :
    (mf.printTurn (c :: l)).1.todo (mf.printTurn (c :: l)).2 < mf.todo (c :: l) := by
  simp only [printTurn]
  split
  · exact todo_lt_of_length (by simp)
  · rename_i d rest hd
    obtain ⟨hlt, heq | hlt'⟩ := length_lt_of_run hd
    · split
      · exact todo_lt_of_length hlt
      · -- a byte of white space: the state `WS` takes it
        rename_i hat
        obtain ⟨-, hprint⟩ := dropWhile_eq_cons hd
        obtain ⟨rfl, rfl⟩ := List.cons.inj heq
        apply todo_lt_of_stuck
        · simp [stuck, hs, isWs_of_not_isPrint hprint hat]
        · simp [stuck, hprint]
    · split
      · exact todo_lt_of_length hlt
      · exact todo_lt_of_length hlt'

theorem todo_wsTurn {mf : Md5filter} (hs : mf.state = .ws) (c : Byte) (l : List Byte) :
    (mf.wsTurn (c :: l)).1.todo (mf.wsTurn (c :: l)).2 < mf.todo (c :: l) := by
  simp only [wsTurn]
  split
  · exact todo_lt_of_length (by simp)
  · rename_i d rest hd
    obtain ⟨hlt, heq | hlt'⟩ := length_lt_of_run hd
    · split
      · exact todo_lt_of_length hlt
      · rename_i hat
        obtain ⟨-, hws⟩ := dropWhile_eq_cons hd
        obtain ⟨rfl, rfl⟩ := List.cons.inj heq
        apply todo_lt_of_stuck
        · simp [stuck, hs, isPrint, hws, hat]
        · simp [stuck, hws]
    · split
      · exact todo_lt_of_length hlt
      · exact todo_lt_of_length hlt'

theorem todo_stringTurn (mf : Md5filter) (c : Byte) (l : List Byte) :
    (mf.stringTurn (c :: l)).1.todo (mf.stringTurn (c :: l)).2 < mf.todo (c :: l) := by
  simp only [stringTurn]
  split
  · exact todo_lt_of_length (by simp)
  · rename_i d rest hd
    exact todo_lt_of_length (length_lt_of_run hd).1

theorem todo_seenTurn {mf : Md5filter} (hs : mf.state = .seen) (c : Byte) (l : List Byte) :
    (mf.seenTurn (c :: l)).1.todo (mf.seenTurn (c :: l)).2 < mf.todo (c :: l) := by
  simp only [seenTurn]
  split
  · exact todo_lt_of_length (by simp)
  · rename_i hat
    have hstuck : mf.stuck (c :: l) = true := by simp [stuck, hs, hat]
    split
    · rename_i hws
      exact todo_lt_of_stuck hstuck (by simp [stuck, isPrint, hws])
    · rename_i hws
      exact todo_lt_of_stuck hstuck (by simpa [stuck] using hws)

theorem todo_turn (mf : Md5filter) (c : Byte) (l : List Byte) :
    (mf.turn (c :: l)).1.todo (mf.turn (c :: l)).2 < mf.todo (c :: l) := by
  simp only [turn]
  split
  · exact todo_printTurn ‹_› c l
  · exact todo_wsTurn ‹_› c l
  · exact todo_stringTurn mf c l
  · exact todo_seenTurn ‹_› c l

/-- The filter as a scanner. -/
def rounds : Rounds Md5filter Byte where
  turn := turn
  step := step
  todo := todo
  foldl_turn := foldl_turn
  todo_turn := todo_turn

end Md5filter

theorem md5rcsfilterFlush_eq (mf : Md5filter) (buf : List Byte) :
    md5rcsfilterFlush mf buf = buf.foldl Md5filter.step mf := by
  rw [md5rcsfilterFlush]
  exact congrArg Prod.fst (Md5filter.rounds.loop_eq (mf.todo_le buf))

/-- A flush takes the whole buffer. -/
theorem md5rcsfilterFlush_ends (mf : Md5filter) (buf : List Byte) {n : Nat}
    (hn : 2 * buf.length + 1 ≤ n) :
    loop Md5filter.turn n mf buf = (md5rcsfilterFlush mf buf, []) := by
  rw [md5rcsfilterFlush_eq]
  exact Md5filter.rounds.loop_eq ((mf.todo_le buf).trans hn)

/-- The flushes of the pieces feed the digest what the flush of the whole feeds
it, and leave the same state. -/
theorem foldl_md5rcsfilterFlush (pieces : List (List Byte)) :
    pieces.foldl md5rcsfilterFlush md5filterInit =
      md5rcsfilterFlush md5filterInit pieces.flatten :=
  Md5filter.rounds.foldl_loop (fun mf buf => mf.todo_le buf) md5filterInit pieces

-- a cut inside of a doubled `@`, and one in the white space behind a word
example : ([bytes "a @x@".toList, bytes "@y@ ".toList, [], bytes " b".toList].foldl
    md5rcsfilterFlush md5filterInit).fed = bytes "a@x@@y@b".toList := by decide

/-! ## The stream -/

/-- A stream that is written to, with the filter: the buffer and its size. -/
structure Wrstream where
  size : Nat
  wrbuf : List Byte
  filter : Md5filter
  written : List Byte

/-- `buf_grow` for a need. -/
def bufGrow (size need : Nat) : Nat :=
  if size < need then bufGrow (size * 2 + 1) need else size
termination_by need - size

/-- What is done to the stream. `stream_close` does a last flush. -/
inductive Write
  | write (src : List Byte)
  | printf (text : List Byte)
  | flush

namespace Wrstream

def new : Wrstream := ⟨1023, [], md5filterInit, []⟩

/-- `stream_flush_int`, the write function taking all it is given. -/
def flush (s : Wrstream) : Wrstream :=
  { s with wrbuf := [], filter := md5rcsfilterFlush s.filter s.wrbuf, written := s.written ++ s.wrbuf }

/-- `buf_avail` -/
def avail (s : Wrstream) : Nat := s.size - s.wrbuf.length

def write (s : Wrstream) (src : List Byte) : Wrstream :=
  let s := if s.size < src.length then { s with size := bufGrow s.size src.length } else s
  let s := if s.avail < src.length then s.flush else s
  { s with wrbuf := s.wrbuf ++ src }

/-- `stream_printf` of a text: the second round always has room. -/
def printf (s : Wrstream) (text : List Byte) : Wrstream :=
  if s.avail ≤ text.length then
    let s := if s.size ≤ text.length then { s with size := bufGrow s.size (text.length + 1) } else s
    let s := if s.avail ≤ text.length then s.flush else s
    { s with wrbuf := s.wrbuf ++ text }
  else { s with wrbuf := s.wrbuf ++ text }

def apply (s : Wrstream) : Write → Wrstream
  | .write src => s.write src
  | .printf text => s.printf text
  | .flush => s.flush

def run (s : Wrstream) (ws : List Write) : Wrstream := ws.foldl apply s

end Wrstream

/-- The bytes that are written. -/
def Write.bytes : Write → List Byte
  | .write src => src
  | .printf text => text
  | .flush => []

namespace Wrstream

/-- The filter as it will be when the buffer is flushed. -/
def pending (s : Wrstream) : Md5filter := md5rcsfilterFlush s.filter s.wrbuf

theorem pending_flush (s : Wrstream) : s.flush.pending = s.pending := by
  simp [pending, flush, md5rcsfilterFlush_eq]

theorem pending_append {s : Wrstream} (src : List Byte) :
    pending { s with wrbuf := s.wrbuf ++ src } = md5rcsfilterFlush s.pending src := by
  simp only [pending, md5rcsfilterFlush_eq, List.foldl_append]

theorem pending_flush_if (s : Wrstream) (p : Prop) [Decidable p] :
    (if p then s.flush else s).pending = s.pending := by
  split
  · exact pending_flush s
  · rfl

theorem pending_grow_if (s : Wrstream) (p : Prop) [Decidable p] (size : Nat) :
    (if p then { s with size := size } else s).pending = s.pending := by
  split
  · rfl
  · rfl

theorem pending_apply (s : Wrstream) (w : Write) :
    (s.apply w).pending = md5rcsfilterFlush s.pending w.bytes := by
  rcases w with src | text | -
  · simp only [apply, write, Write.bytes]
    rw [pending_append, pending_flush_if, pending_grow_if]
  · simp only [apply, printf, Write.bytes]
    split
    · rw [pending_append, pending_flush_if, pending_grow_if]
    · rw [pending_append]
  · rw [apply, pending_flush, Write.bytes, md5rcsfilterFlush_eq]
    rfl

theorem pending_run (s : Wrstream) (ws : List Write) :
    (s.run ws).pending = md5rcsfilterFlush s.pending (ws.map Write.bytes).flatten := by
  induction ws generalizing s with
  | nil => simp [run, md5rcsfilterFlush_eq]
  | cons w ws ih =>
    have h := ih (s.apply w)
    rw [pending_apply] at h
    simpa [run, md5rcsfilterFlush_eq] using h

/-- Whatever the sizes of the writes, the digest of a closed stream is that of
what was written. -/
theorem close_run (ws : List Write) :
    (new.run ws).flush.filter = md5rcsfilterFlush md5filterInit (ws.map Write.bytes).flatten :=
  pending_run new ws

end Wrstream

end Csup.Stream
