import Csup.Stream.Buf

/-!
# Writing to a stream: `stream_write`, `stream_printf`, `stream_flush`

The filter of the stream is the null filter. What the write function replies is a list;
behind its end the write function has not returned, and so has not the call
(`Outcome.wait`). A function is `none` where an assertion fails or an `int` overflows;
`stream_printf` has the number of rounds of its loop as an argument, and is `none` when
they are used up.

* `streamFlush_spec`: a flush changes no byte, and leaves an empty buffer;
* `streamWrite_spec`, `streamPrintf_spec`: what is added;
* `writes_all`: nothing is lost in a run, and which call has no result.
-/

namespace Csup.Stream

open Csup.Framework (slice length_slice)

/-- A reply of the write function: a failure with `EINTR`, or `k + 1` bytes were written,
or as many as there were. -/
inductive Reply
  | eintr
  | count (k : Nat)

/-- The writing side of a stream. `out` is what the write function has taken. -/
structure Writer where
  buf : Buf
  out : List Byte
  replies : List Reply

inductive Outcome
  | ret (n : Int) (w : Writer)
  | wait (w : Writer)

/-- What is behind a call that returns 0, or -1 for an error. -/
def Outcome.next (k : Writer → Option Outcome) : Outcome → Option Outcome
  | ret error w => if error = 0 then k w else some (.ret (-1) w)
  | wait w => some (.wait w)

/-- `stream_flush_default`, both of its loops -/
def streamFlushDefault (b : Buf) (out : List Byte) : List Reply → Option Outcome
  | [] => some (if b.count > 0 then .wait ⟨b, out, []⟩ else .ret 0 ⟨b, out, []⟩)
  | reply :: replies =>
    if b.count > 0 then
      match reply with
      | .eintr => streamFlushDefault b out replies
      | .count k =>
        let n := min (k + 1) b.count
        (b.load b.off n).bind fun written =>
          (b.less n).bind fun b => streamFlushDefault b (out ++ written) replies
    else some (.ret 0 ⟨b, out, reply :: replies⟩)

/-- `stream_flush` -/
def streamFlush (w : Writer) : Option Outcome := streamFlushDefault w.buf w.out w.replies

/-- The end of `stream_write`. -/
def streamWriteTail (src : List Byte) (w : Writer) : Option Outcome :=
  (do (← w.buf.store (w.buf.off + w.buf.count) src).more src.length).map fun buf =>
    .ret src.length { w with buf }

/-- `stream_write` -/
def streamWrite (src : List Byte) (w : Writer) : Option Outcome :=
  (if src.length > w.buf.size then w.buf.grow src.length else some w.buf).bind fun buf =>
    if src.length > buf.avail then
      (streamFlush { w with buf }).bind (·.next (streamWriteTail src))
    else streamWriteTail src { w with buf }

/-- The largest `int`. -/
def intMax : Nat := 2147483647

/-- What `vsnprintf` returns; it fails where the text is longer than an `int` says. -/
def vsnprintfRet (text : List Byte) : Int := if text.length ≤ intMax then text.length else -1

/-- What `vsnprintf` leaves in the room behind the bytes of a buffer. -/
def vsnprintf (b : Buf) (text : List Byte) : Option Buf :=
  if b.avail = 0 then some b
  else b.store (b.off + b.count) (text.take (b.avail - 1) ++ [0])

/-- `stream_printf` for a text, with so many rounds of `again` -/
def streamPrintf : Nat → List Byte → Writer → Option Outcome
  | 0, _, _ => none
  | rounds + 1, text, w =>
    (vsnprintf w.buf text).bind fun buf =>
      if vsnprintfRet text < 0 then some (.ret (vsnprintfRet text) { w with buf })
      else
        let ret := (vsnprintfRet text).toNat
        if ret ≥ buf.avail then
          -- `ret + 1` is an `int`
          (if ret ≥ buf.size then if ret = intMax then none else buf.grow (ret + 1)
            else some buf).bind fun buf =>
            if ret ≥ buf.avail then
              (streamFlush { w with buf }).bind (·.next (streamPrintf rounds text))
            else streamPrintf rounds text { w with buf }
        else (buf.more ret).map fun buf => .ret ret { w with buf }

inductive Call
  | write (src : List Byte)
  | printf (text : List Byte)
  | flush

namespace Call

def run (rounds : Nat) : Call → Writer → Option Outcome
  | write src => streamWrite src
  | printf text => streamPrintf rounds text
  | flush => streamFlush

/-- The returned value. -/
def value : Call → Int
  | write src => src.length
  | printf text => vsnprintfRet text
  | flush => 0

/-- What is written with the value. -/
def written : Call → List Byte
  | write src => src
  | printf text => if vsnprintfRet text < 0 then [] else text
  | flush => []

/-- Not a text of the length of the largest `int`, in a buffer that has to grow for it. -/
def Fits (b : Buf) : Call → Prop
  | printf text => text.length = intMax → intMax < b.size
  | _ => True

end Call

/-- The bytes delivered so far, followed by the buffered bytes. -/
def Writer.all (w : Writer) : List Byte := w.out ++ w.buf.data

/-- A stream that was opened just now: `stream_new`. -/
def Writer.new (replies : List Reply) : Writer := ⟨Buf.new streamBufsiz, [], replies⟩

/-! ## One call -/

/-- What a call that has not returned has left, and what holds where it has returned. -/
def Outcome.Post (all : List Byte) (P : Int → Writer → Prop) : Outcome → Prop
  | ret n w => P n w
  | wait w => w.buf.Ok ∧ w.all = all ∧ w.replies = []

/-- The call has a result, with what holds of it. -/
def Leaves (t : Option Outcome) (all : List Byte) (P : Int → Writer → Prop) : Prop :=
  ∃ o, t = some o ∧ o.Post all P

/-- A call behind one that returns 0. -/
theorem Leaves.next {t : Option Outcome} {all : List Byte} {Q : Writer → Prop}
    {P : Int → Writer → Prop} {k : Writer → Option Outcome}
    (ht : Leaves t all fun n w => n = 0 ∧ Q w) (hk : ∀ w, Q w → Leaves (k w) all P) :
    Leaves (t.bind (·.next k)) all P := by
  obtain ⟨o, rfl, ho⟩ := ht
  match o, ho with
  | .ret n w, ho =>
    obtain ⟨rfl, hq⟩ := ho
    exact hk w hq
  | .wait w, ho => exact ⟨.wait w, rfl, ho⟩

/-- A flushed buffer is empty, and none smaller. -/
def Flushed (size : Nat) (all : List Byte) (w : Writer) : Prop :=
  w.buf.Ok ∧ w.all = all ∧ w.buf.count = 0 ∧ w.buf.size = size

theorem streamFlush_spec (replies : List Reply) {b : Buf} (out : List Byte) (h : b.Ok) :
    Leaves (streamFlushDefault b out replies) (out ++ b.data) fun n w =>
      n = 0 ∧ Flushed b.size (out ++ b.data) w := by
  induction replies generalizing b out with
  | nil =>
    by_cases hc : b.count > 0
    · exact ⟨.wait ⟨b, out, []⟩, by rw [streamFlushDefault, if_pos hc], h, rfl, rfl⟩
    · refine ⟨.ret 0 ⟨b, out, []⟩, by rw [streamFlushDefault, if_neg hc], rfl, h, rfl, ?_, rfl⟩
      show b.count = 0
      omega
  | cons reply replies ih =>
    by_cases hc : b.count > 0
    · match reply with
      | .eintr =>
        rw [streamFlushDefault, if_pos hc]
        exact ih out h
      | .count k =>
        have hbound := h.bound
        have hn : min (k + 1) b.count ≤ b.count := Nat.min_le_right ..
        have hload : b.load b.off (min (k + 1) b.count) =
            some (slice b.buf b.off (min (k + 1) b.count)) := if_pos (by omega)
        obtain ⟨b', hb', hok, hdata, -, -, hsize⟩ := h.less hn
        have hsplit : slice b.buf b.off (min (k + 1) b.count) ++ b'.data = b.data := by
          have := Buf.slice_append b.buf b.off (min (k + 1) b.count) (b.count - min (k + 1) b.count)
          rw [Nat.add_sub_cancel' hn] at this
          rw [hdata, Buf.data, this, List.drop_left' (length_slice ..)]
        rw [streamFlushDefault, if_pos hc]
        dsimp only
        rw [hload, Option.bind_some, hb', Option.bind_some, ← hsplit, ← List.append_assoc, ← hsize]
        exact ih _ hok
    · refine ⟨.ret 0 ⟨b, out, reply :: replies⟩, if_neg hc, rfl, h, rfl, ?_, rfl⟩
      show b.count = 0
      omega

/-- What holds where a call has returned: its value, and its bytes are behind the others. -/
def Added (value : Int) (all : List Byte) (n : Int) (w : Writer) : Prop :=
  n = value ∧ w.buf.Ok ∧ w.all = all

theorem streamWriteTail_spec {src : List Byte} {w : Writer} (h : w.buf.Ok)
    (hroom : src.length ≤ w.buf.avail) (all : List Byte) :
    Leaves (streamWriteTail src w) all (Added src.length (w.all ++ src)) := by
  obtain ⟨b', hb', hok, hdata, -⟩ := h.append hroom
  refine ⟨.ret src.length { w with buf := b' }, ?_, rfl, hok, ?_⟩
  · rw [streamWriteTail, hb']
    rfl
  · show w.out ++ b'.data = w.out ++ w.buf.data ++ src
    rw [hdata, List.append_assoc]

/-- The room in a buffer without a byte. -/
theorem avail_of_count {b : Buf} (h : b.Ok) (hc : b.count = 0) : b.avail = b.size := by
  have := h.front hc
  show b.size - b.off - b.count = b.size
  omega

theorem streamWrite_spec (src : List Byte) {w : Writer} (h : w.buf.Ok) :
    Leaves (streamWrite src w) w.all (Added src.length (w.all ++ src)) := by
  have hpos := h.pos
  obtain ⟨b, hb, hok, hdata, hsize⟩ : ∃ b,
      (if src.length > w.buf.size then w.buf.grow src.length else some w.buf) = some b ∧ b.Ok ∧
        b.data = w.buf.data ∧ src.length ≤ b.size := by
    split
    · obtain ⟨b, hb, hok, hdata, -, hsize, -⟩ := h.grow (.inr (by omega))
      exact ⟨b, hb, hok, hdata, hsize⟩
    · exact ⟨w.buf, rfl, h, rfl, by omega⟩
  have hall : w.all = w.out ++ b.data := by rw [Writer.all, hdata]
  rw [streamWrite, hb, Option.bind_some, hall]
  split
  · refine (streamFlush_spec w.replies w.out hok).next fun w' hw' => ?_
    obtain ⟨hok', hall', hcount', hsize'⟩ := hw'
    have hroom : src.length ≤ w'.buf.avail := by
      rw [avail_of_count hok' hcount']
      omega
    have := streamWriteTail_spec hok' hroom (w.out ++ b.data)
    rwa [hall'] at this
  · exact streamWriteTail_spec (w := { w with buf := b }) hok (by show src.length ≤ b.avail; omega) _

/-- The bytes that are there stay, and the text is behind them where it has room. -/
theorem vsnprintf_spec (text : List Byte) {b : Buf} (h : b.Ok) : ∃ b', vsnprintf b text = some b' ∧
    b'.Ok ∧ b'.data = b.data ∧ b'.size = b.size ∧ b'.avail = b.avail ∧
      (text.length < b.avail → slice b'.buf (b'.off + b'.count) text.length = text) := by
  have hbound := h.bound
  have havail : b.avail = b.size - b.off - b.count := rfl
  by_cases hz : b.avail = 0
  · refine ⟨b, if_pos hz, h, rfl, rfl, rfl, fun hlt => ?_⟩
    omega
  · have hx : b.off + b.count + (text.take (b.avail - 1) ++ [0]).length ≤ b.size + 1 := by
      rw [List.length_append, List.length_take, List.length_singleton]
      omega
    obtain ⟨b', hb', hok, hdata, hsize, hoff, hcount, hslice⟩ := h.store hx
    refine ⟨b', by rw [vsnprintf, if_neg hz, hb'], hok, hdata, hsize, ?_, fun hlt => ?_⟩
    · show b'.size - b'.off - b'.count = b.size - b.off - b.count
      rw [hsize, hoff, hcount]
    · rw [hoff, hcount]
      have htake : text.take (b.avail - 1) = text := List.take_of_length_le (by omega)
      rw [htake, List.length_append, Buf.slice_append] at hslice
      exact (List.append_inj hslice (length_slice ..)).1

theorem vsnprintfRet_of_le {text : List Byte} (h : text.length ≤ intMax) :
    vsnprintfRet text = text.length := if_pos h

/-- The last round: the text has room. -/
theorem streamPrintf_of_lt {text : List Byte} {w : Writer} (h : w.buf.Ok) (rounds : Nat)
    (hmax : text.length ≤ intMax) (hroom : text.length < w.buf.avail) (all : List Byte) :
    Leaves (streamPrintf (rounds + 1) text w) all (Added text.length (w.all ++ text)) := by
  obtain ⟨b, hb, hok, hdata, -, havail, hslice⟩ := vsnprintf_spec text h
  obtain ⟨b', hb', hok', hdata', -⟩ := hok.more (show text.length ≤ b.avail by omega)
  refine ⟨.ret text.length { w with buf := b' }, ?_, rfl, hok', ?_⟩
  · rw [streamPrintf, hb, Option.bind_some, vsnprintfRet_of_le hmax, if_neg (by omega)]
    dsimp only
    rw [Int.toNat_natCast, if_neg (by omega), hb']
    rfl
  · show w.out ++ b'.data = w.out ++ w.buf.data ++ text
    rw [hdata', hdata, hslice hroom, List.append_assoc]

theorem streamPrintf_spec {text : List Byte} {w : Writer} (h : w.buf.Ok) {rounds : Nat}
    (hfits : (Call.printf text).Fits w.buf) : Leaves (streamPrintf (rounds + 2) text w) w.all
      (Added (vsnprintfRet text) (w.all ++ (Call.printf text).written)) := by
  obtain ⟨b, hb, hok, hdata, hbsize, havail, -⟩ := vsnprintf_spec text h
  by_cases hmax : text.length ≤ intMax
  · have hfits' : text.length = intMax → intMax < w.buf.size := hfits
    have hret := vsnprintfRet_of_le hmax
    have hwritten : (Call.printf text).written = text := if_neg (by rw [hret]; omega)
    rw [hwritten, hret]
    by_cases hroom : text.length < w.buf.avail
    · exact streamPrintf_of_lt h (rounds + 1) hmax hroom _
    · -- the buffer grows first, where it is too small
      obtain ⟨g, hg, hgok, hgdata, hgsize⟩ : ∃ g, (if text.length ≥ b.size then
          if text.length = intMax then none else b.grow (text.length + 1) else some b) = some g ∧
            g.Ok ∧ g.data = w.buf.data ∧ text.length < g.size := by
        by_cases hlen : text.length ≥ b.size
        · obtain ⟨g, hg, hgok, hgdata, -, hgsize, -⟩ :=
            hok.grow (show text.length + 1 = 0 ∨ b.size < text.length + 1 by omega)
          exact ⟨g, by rw [if_pos hlen, if_neg (by omega), hg], hgok, hgdata.trans hdata, hgsize⟩
        · exact ⟨b, if_neg hlen, hok, hdata, by omega⟩
      have hall : w.all = w.out ++ g.data := by rw [Writer.all, hgdata]
      rw [streamPrintf, hb, Option.bind_some, hret, if_neg (by omega)]
      dsimp only
      rw [Int.toNat_natCast, if_pos (by omega), hg, Option.bind_some, hall]
      split
      · refine (streamFlush_spec w.replies w.out hgok).next fun w' hw' => ?_
        obtain ⟨hok', hall', hcount', hsize'⟩ := hw'
        have hroom' : text.length < w'.buf.avail := by
          rw [avail_of_count hok' hcount']
          omega
        have := streamPrintf_of_lt hok' rounds hmax hroom' (w.out ++ g.data)
        rwa [hall'] at this
      · exact streamPrintf_of_lt (w := { w with buf := g }) hgok rounds hmax
          (by show text.length < g.avail; omega) _
  · have hret : vsnprintfRet text = -1 := if_neg hmax
    have hwritten : (Call.printf text).written = [] := if_pos (by rw [hret]; decide)
    refine ⟨.ret (-1) { w with buf := b }, ?_, hret.symm, hok, ?_⟩
    · rw [streamPrintf, hb, Option.bind_some, if_pos (by rw [hret]; decide), hret]
    · show w.out ++ b.data = w.out ++ w.buf.data ++ (Call.printf text).written
      rw [hwritten, hdata, List.append_nil]

/-- A text of the length of the largest `int`. -/
theorem streamPrintf_of_intMax {text : List Byte} {w : Writer} (h : w.buf.Ok) (rounds : Nat)
    (hlen : text.length = intMax) (hsize : w.buf.size ≤ intMax) :
    streamPrintf rounds text w = none := by
  match rounds with
  | 0 => rfl
  | rounds + 1 =>
    obtain ⟨b, hb, -, -, hbsize, -, -⟩ := vsnprintf_spec text h
    have havail : b.avail ≤ b.size := by
      show b.size - b.off - b.count ≤ b.size
      omega
    rw [streamPrintf, hb, Option.bind_some, vsnprintfRet_of_le (by omega), if_neg (by omega)]
    dsimp only
    rw [Int.toNat_natCast, if_pos (by omega), if_pos (by omega), if_pos hlen]
    rfl

/-- Which calls have a result, and what they leave. -/
theorem Call.run_spec (c : Call) {w : Writer} (h : w.buf.Ok) (rounds : Nat) :
    (c.Fits w.buf → Leaves (c.run (rounds + 2) w) w.all (Added c.value (w.all ++ c.written))) ∧
      (¬c.Fits w.buf → c.run (rounds + 2) w = none) := by
  match c with
  | .write src => exact ⟨fun _ => streamWrite_spec src h, fun hn => absurd trivial hn⟩
  | .printf text =>
    refine ⟨fun hfits => streamPrintf_spec h hfits, fun hn => ?_⟩
    obtain ⟨hlen, hsize⟩ : text.length = intMax ∧ ¬intMax < w.buf.size := by
      simpa [Fits] using hn
    exact streamPrintf_of_intMax h _ hlen (by omega)
  | .flush =>
    refine ⟨fun _ => ?_, fun hn => absurd trivial hn⟩
    obtain ⟨o, ho, hpost⟩ := streamFlush_spec w.replies w.out h
    refine ⟨o, ho, ?_⟩
    match o, hpost with
    | .ret n w', hpost =>
      obtain ⟨hn, hok, hall, -, -⟩ := hpost
      exact ⟨hn, hok, hall.trans (List.append_nil w.all).symm⟩
    | .wait w', hpost => exact hpost

/-! ## Runs -/

/-- The calls that have returned, each of them one that fits, and the stream behind them. -/
inductive WriteRun (rounds : Nat) (replies : List Reply) : List Call → Writer → Prop
  | new : WriteRun rounds replies [] (Writer.new replies)
  | call {cs : List Call} {w w' : Writer} {c : Call} {n : Int} :
    WriteRun rounds replies cs w → c.Fits w.buf → c.run rounds w = some (.ret n w') →
      WriteRun rounds replies (cs ++ [c]) w'

theorem WriteRun.inv {rounds : Nat} {replies : List Reply} {cs : List Call} {w : Writer}
    (h : WriteRun (rounds + 2) replies cs w) : w.buf.Ok ∧ w.all = cs.flatMap Call.written := by
  induction h with
  | new => exact ⟨Buf.ok_new (by decide), rfl⟩
  | @call cs w w' c n _ hfits hrun ih =>
    obtain ⟨o, ho, hpost⟩ := (c.run_spec ih.1 rounds).1 hfits
    obtain rfl := Option.some.inj (hrun.symm.trans ho)
    obtain ⟨-, hok, hall⟩ := hpost
    exact ⟨hok, by rw [hall, ih.2, List.flatMap_append, List.flatMap_singleton]⟩

/-- In every run whose calls fit, the bytes delivered so far followed by the buffered bytes
are all that was written, in order; this holds inside of a further call as well, as long as
its write function does not reply. A call has a result, after at most two rounds of the
loop of `stream_printf`, just where it fits. -/
theorem writes_all {rounds : Nat} {replies : List Reply} {cs : List Call} {w : Writer}
    (h : WriteRun (rounds + 2) replies cs w) :
    w.out ++ w.buf.data = cs.flatMap Call.written ∧ w.buf.off + w.buf.count ≤ w.buf.size ∧
      ∀ c : Call, (c.Fits w.buf ↔ ∃ o, c.run (rounds + 2) w = some o) ∧
        (∀ w', c.run (rounds + 2) w = some (.wait w') →
          w'.out ++ w'.buf.data = cs.flatMap Call.written ∧ w'.replies = []) ∧
        ∀ n w', c.run (rounds + 2) w = some (.ret n w') →
          n = c.value ∧ w'.out ++ w'.buf.data = cs.flatMap Call.written ++ c.written := by
  obtain ⟨hok, hall⟩ := h.inv
  refine ⟨hall, hok.bound, fun c => ?_⟩
  obtain ⟨hfits, hnot⟩ := c.run_spec hok rounds
  have hiff : c.Fits w.buf ↔ ∃ o, c.run (rounds + 2) w = some o := by
    refine ⟨fun hf => ?_, fun ⟨o, ho⟩ => ?_⟩
    · obtain ⟨o, ho, -⟩ := hfits hf
      exact ⟨o, ho⟩
    · by_contra hf
      rw [hnot hf] at ho
      cases ho
  refine ⟨hiff, fun w' hw' => ?_, fun n w' hw' => ?_⟩
  · obtain ⟨o, ho, hpost⟩ := hfits (hiff.mpr ⟨_, hw'⟩)
    obtain rfl := Option.some.inj (hw'.symm.trans ho)
    exact ⟨hpost.2.1.trans hall, hpost.2.2⟩
  · obtain ⟨o, ho, hpost⟩ := hfits (hiff.mpr ⟨_, hw'⟩)
    obtain rfl := Option.some.inj (hw'.symm.trans ho)
    exact ⟨hpost.1, by rw [← hall]; exact hpost.2.2⟩

/-- Three bytes are written and flushed, one of them behind a failure. -/
theorem writes_all_flush : ∃ w, WriteRun 2 [.eintr, .count 0, .count 5]
    [.write [97, 98], .printf [99], .flush] w ∧
      w.out ++ w.buf.data = [97, 98, 99] ∧ w.out = [97, 98, 99] := by
  have hwrite := @WriteRun.call 2 [.eintr, .count 0, .count 5] [] _ _ (.write [97, 98]) 2 .new
    trivial rfl
  have hprintf := @WriteRun.call 2 _ _ _ _ (.printf [99]) 1 hwrite
    (fun h => absurd h (by decide)) rfl
  have hflush := @WriteRun.call 2 _ _ _ _ .flush 0 hprintf trivial rfl
  exact ⟨_, hflush, (@writes_all 0 _ _ _ hflush).1, rfl⟩

/-- The first call on a stream, with a text of the length of the largest `int`. -/
theorem not_writes_all : WriteRun 2 [] [] (Writer.new []) ∧ ∀ rounds,
    (Call.printf (List.replicate 2147483647 97)).run rounds (Writer.new []) = none :=
  ⟨.new, fun rounds => streamPrintf_of_intMax (Buf.ok_new (by decide)) rounds
    List.length_replicate (by decide)⟩

end Csup.Stream
