import Csup.Framework.Flow
import Csup.Mux.Close
import Csup.Mux.Talk
import Csup.Mux.Wire

/-!
# The bytes of a channel

One way, a channel is a `Stream`: a stream with a window of the size of the
receive buffer. `Sends` ties it to the sending half, `Takes` to the receiving
half, and `Carries` to these and to the packets under way. Each step of a half
is one of the stream, or none.

Bytes count as sent from where `sender_loop` has decided to send them.
-/

namespace Csup.Mux

open Csup.Framework

abbrev Stream := Flow Byte chanRbsize

/-- The bytes at the front of the send buffer that count as sent. -/
def SenderPc.claimed : SenderPc → Nat
  | data _ size => size
  | sent _ size => size
  | _ => 0

structure Sends (X : Half) (F : Stream) : Prop where
  claimed_le : X.tx.claimed ≤ F.sent
  seq : X.c.sendseq = wrap (F.sent - X.tx.claimed)
  win : X.c.sendwin = wrap F.limit
  buf : X.c.sendbuf.Holds (F.written.drop (F.sent - X.tx.claimed))
  mss : CF.AllowedIn .data X.c.state → X.c.sendmss = chanMaxsegsize
  shut : ¬CF.AllowedIn .data X.c.state → F.limit = 0
  data : X.due .data = true → X.tx.claimed = 0 ∧ F.sent < F.limit ∧ F.sent < F.written.length
  -- when `CLOSE` was picked
  done : X.c.state.Closing → X.c.flags.close = false →
    X.due .data = false ∧ X.tx.claimed = 0 ∧ (F.sent = F.limit ∨ F.sent = F.written.length)

structure Takes (c : Chan) (F : Stream) : Prop where
  seq : c.recvseq = wrap F.read
  buf : c.recvbuf.Holds (F.received.drop F.read)
  size : c.recvbuf.size = chanRbsize
  mss : c.recvmss = chanMaxsegsize

/-- The data of packets. -/
def segments (ps : List Packet) : List (List Byte) := ps.filterMap fun p =>
  match p.header with
  | .data .. => some p.payload
  | _ => none

/-- The window a packet announces. -/
def Header.win : Header → Option Nat
  | connect _ _ w => some w
  | accept _ _ w => some w
  | window _ w => some w
  | _ => none

def windows (ps : List Packet) : List Nat := ps.filterMap (·.header.win)

/-- The segment size a packet announces. -/
def Header.mss : Header → Option Nat
  | connect _ mss _ => some mss
  | accept _ mss _ => some mss
  | _ => none

structure Packet.Good (p : Packet) : Prop extends p.Ok where
  length_le : p.payload.length ≤ chanMaxsegsize
  mss : ∀ m ∈ p.header.mss, m = chanMaxsegsize

/-- `f` is under way from `X` to `Y`, `b` the other way; `hand` is what the receiver
thread of `Y` has, and the receive buffer does not count. -/
structure Carries (F : Stream) (X Y : Half) (f b : List Packet) (hand : List (List Byte)) : Prop where
  sends : Sends X F
  takes : Takes Y.c F
  flight : F.flight = hand ++ segments (f ++ X.out)
  wins : F.wins.map wrap = windows (b ++ Y.out)
  good : ∀ p ∈ f ++ X.out, p.Good

variable {F : Stream} {X X' Y : Half} {f b : List Packet} {hand : List (List Byte)} {id : ChanId}
  {c : Chan} {what : CF}

/-! ## The sending half -/

/-- Whether there is a window. -/
theorem Sends.seq_ne (h : Sends X F) (h0 : X.tx.claimed = 0) :
    X.c.sendseq ≠ X.c.sendwin ↔ F.sent < F.limit := by
  have h1 := F.sent_le_limit
  have h2 := F.limit_sub_sent_le
  rw [h.seq, h.win, h0]
  unfold wrap chanRbsize at *
  omega

theorem Sends.winsize (h : Sends X F) (h0 : X.tx.claimed = 0) : X.c.winsize = F.limit - F.sent := by
  have h1 := F.sent_le_limit
  have h2 := F.limit_sub_sent_le
  unfold Chan.winsize
  rw [h.seq, h.win, h0]
  unfold wrap chanRbsize at *
  omega

theorem Sends.count (h : Sends X F) (h0 : X.tx.claimed = 0) :
    X.c.sendbuf.count = F.written.length - F.sent := by
  rw [h.buf.count_eq, h0, List.length_drop]
  rfl

theorem Sends.hasData (h : Sends X F) (h0 : X.tx.claimed = 0) :
    X.c.hasData = true ↔ F.sent < F.limit ∧ F.sent < F.written.length := by
  unfold Chan.hasData
  rw [Bool.and_eq_true, decide_eq_true_eq, decide_eq_true_eq, h.seq_ne h0, h.count h0]
  omega

/-- There is no window in the states in which no data may be sent. -/
theorem Sends.allowed (h : Sends X F) (hd : X.c.hasData = true) : CF.AllowedIn .data X.c.state := by
  by_contra hn
  have h1 := F.sent_le_limit
  have h2 := h.shut hn
  have h3 : X.c.sendseq = X.c.sendwin := by
    rw [h.seq, h.win, h2]
    congr 1
    omega
  simp [Chan.hasData, h3] at hd

theorem Sends.dataFirst (h : Sends X F) (ht : Tidy X) : DataFirst X := by
  intro hd
  refine ⟨hd.elim (ht.allowed .data) h.allowed, fun hc => ?_⟩
  by_contra hn
  rw [Half.due, Bool.or_eq_true, not_or] at hn
  obtain ⟨h1, h2, h3⟩ := h.done hc (Bool.eq_false_iff.mpr hn.1)
  rcases hd with hd | hd
  · rw [h1] at hd
    cases hd
  · rw [h.hasData h2] at hd
    omega

/-- Steps that do not concern the data to be sent. -/
theorem Sends.same (h : Sends X F) (hseq : c.sendseq = X.c.sendseq) (hwin : c.sendwin = X.c.sendwin)
    (hbuf : c.sendbuf = X.c.sendbuf) (hmss : c.sendmss = X.c.sendmss)
    (hs : CF.AllowedIn .data c.state ↔ CF.AllowedIn .data X.c.state)
    (hd : c.flags.data = X.c.flags.data)
    (hc : c.state.Closing → c.flags.close = false → X.c.state.Closing ∧ X.c.flags.close = false) :
    Sends { X with c } F where
  claimed_le := h.claimed_le
  seq := hseq ▸ h.seq
  win := hwin ▸ h.win
  buf := hbuf ▸ h.buf
  mss := fun h0 => hmss ▸ h.mss (hs.mp h0)
  shut := fun h0 => h.shut fun h1 => h0 (hs.mpr h1)
  data := fun h0 => h.data <| by
    rw [← h0]
    simp [Half.due, Flags.get, hd]
  done := fun h0 h1 => by
    obtain ⟨h2, h3⟩ := hc h0 h1
    refine ⟨?_, (h.done h2 h3).2⟩
    rw [← (h.done h2 h3).1]
    simp [Half.due, Flags.get, hd]

theorem Sends.scan {c' : Chan} (h : Sends X F) (hw : X.tx = .wait)
    (hs : senderScan X.c = some (c', what)) : Sends ⟨c', .picked id what⟩ F := by
  have h0 : X.tx.claimed = 0 := by rw [hw]; rfl
  have hdue := due_scan id .data hw hs
  simp only [decide_true, Bool.true_and] at hdue
  have hclaimed : X.tx.claimed = (SenderPc.picked id what).claimed := h0
  have hseq := h.seq
  have hbuf := h.buf
  rw [hclaimed] at hseq hbuf
  obtain ⟨hu, hp, rfl⟩ := senderScan_spec hs
  refine ⟨Nat.zero_le _, hseq, h.win, hbuf, h.mss, h.shut, fun hd => ⟨rfl, ?_⟩, fun hc hf => ?_⟩
  · rw [hdue, Bool.or_eq_true] at hd
    rcases hd with hd | hd
    · exact (h.data hd).2
    · exact (h.hasData h0).mp hd
  · have hscan : Half.due ⟨{ X.c with flags := X.c.scanFlags.clear what }, .picked id what⟩ .data =
        false ∧ ¬(F.sent < F.limit ∧ F.sent < F.written.length) := by
      rw [hdue, Bool.or_eq_false_iff, ← h.hasData h0, Bool.not_eq_true, and_assoc, and_self]
      by_cases hclose : what = .close
      · -- it is picked now
        have hdata : X.c.scanFlags.get .data = false := (pick_close (hclose ▸ hp)).1
        rw [get_scanFlags] at hdata
        simpa [Half.due, hw, SenderPc.picks] using hdata
      · have hf' : X.c.flags.close = false := by
          rw [← hf]
          show X.c.flags.get .close = (X.c.scanFlags.clear what).get .close
          rw [get_clear, get_scanFlags]
          simp [hclose]
        obtain ⟨h1, -, h2⟩ := h.done hc hf'
        refine ⟨h1, ?_⟩
        rw [← Bool.not_eq_true, h.hasData h0]
        omega
    refine ⟨hscan.1, rfl, ?_⟩
    have := F.sent_le_limit
    have := F.sent_le
    omega

/-! ## Steps of the sending half -/

/-- The sender goes on, with the bytes it has claimed. -/
theorem Sends.of_tx (h : Sends X F) {tx : SenderPc} (hc : tx.claimed = X.tx.claimed)
    (hp : tx.picks .data = X.tx.picks .data) : Sends { X with tx } F := by
  have hdue : Half.due { X with tx } .data = X.due .data := by simp [Half.due, hp]
  refine ⟨hc ▸ h.claimed_le, hc ▸ h.seq, h.win, hc ▸ h.buf, h.mss, h.shut, fun hd => ?_, fun h1 h2 => ?_⟩
  · rw [hc]
    exact h.data (hdue ▸ hd)
  · rw [hc, hdue]
    exact h.done h1 h2

theorem dataSize_eq (c : Chan) : c.dataSize = min (min c.sendbuf.count c.sendmss) c.winsize := by
  unfold Chan.dataSize
  dsimp only
  split <;> omega

/-- How much data is sent. -/
theorem Sends.dataSize (h : Sends X F) (ht : Tidy X) (hd : X.due .data = true) :
    0 < X.c.dataSize ∧ X.c.dataSize ≤ chanMaxsegsize ∧ F.sent + X.c.dataSize ≤ F.limit ∧
      F.sent + X.c.dataSize ≤ F.written.length := by
  obtain ⟨h0, h1, h2⟩ := h.data hd
  have hpos : 0 < chanMaxsegsize := by decide
  rw [dataSize_eq, h.count h0, h.winsize h0, h.mss (ht.allowed .data hd)]
  generalize chanMaxsegsize = mss at *
  omega

theorem Sends.prepareData {n : Nat} (h : Sends X F) (ht : Tidy X) (hp : X.tx = .picked id .data)
    (hl : F.sent + n ≤ F.limit) (hw : F.sent + n ≤ F.written.length) :
    Sends { X with tx := .data id n } (F.send n hl hw) := by
  have hsent : F.sent + n - n = F.sent - X.tx.claimed := by
    rw [hp]
    show _ = F.sent - 0
    omega
  have hflag : X.c.flags.get .data = false := ht.once .data (by decide) (by simp [hp, SenderPc.picks])
  have hdue : Half.due { X with tx := .data id n } .data = false := by
    simp [Half.due, SenderPc.picks, hflag]
  refine ⟨Nat.le_add_left .., ?_, h.win, ?_, h.mss, h.shut, fun hd => by simp [hdue] at hd,
    fun hc hf => ?_⟩
  · show X.c.sendseq = wrap (F.sent + n - n)
    rw [hsent]
    exact h.seq
  · show X.c.sendbuf.Holds (F.written.drop (F.sent + n - n))
    rw [hsent]
    exact h.buf
  · -- no data is due after `CLOSE` is
    have := (h.done hc hf).1
    simp [Half.due, hp, SenderPc.picks] at this

theorem Sends.write {left data : List Byte} (h : Sends X F)
    (hw : chanWrite X.c left = some (c, data)) : Sends { X with c } (F.write data) ∧
      c.flags = X.c.flags ∧ c.sendbuf = X.c.sendbuf.put data ∧
      X.c.sendbuf.count + data.length ≤ X.c.sendbuf.size := by
  unfold Mux.chanWrite at hw
  split at hw
  · rename_i hcond
    obtain ⟨rfl, rfl⟩ := Prod.mk.inj (Option.some.inj hw)
    have hopen : ¬X.c.state.Closing := by
      rcases hcond.1 with hs | hs <;> simp [hs, CS.Closing]
    have hlen : X.c.sendbuf.count + (left.take (min X.c.sendbuf.avail left.length)).length ≤
        X.c.sendbuf.size := by
      have := h.buf.avail_eq
      have := h.buf.length_le
      rw [h.buf.count_eq, List.length_take]
      omega
    refine ⟨⟨h.claimed_le, h.seq, h.win, ?_, h.mss, h.shut, fun hd => ?_,
      fun hc => absurd hc hopen⟩, rfl, rfl, hlen⟩
    · have := h.buf.put (h.buf.count_eq ▸ hlen)
      rwa [← List.drop_append_of_le_length (Nat.le_trans (Nat.sub_le ..) F.sent_le)] at this
    · obtain ⟨h0, h1, h2⟩ := h.data hd
      refine ⟨h0, h1, Nat.lt_of_lt_of_le h2 ?_⟩
      rw [Flow.write, List.length_append]
      omega
  · cases hw

/-- What is about to be sent stays when more is written. -/
theorem Sends.write_out {left data : List Byte} (h : Sends X F)
    (hw : chanWrite X.c left = some (c, data)) :
    Sends { X with c } (F.write data) ∧ Half.out { X with c } = X.out := by
  obtain ⟨hs, -, hput, hlen⟩ := h.write hw
  refine ⟨hs, ?_⟩
  cases htx : X.tx with
  | data i n =>
    have hbuf := h.buf
    have hle := h.claimed_le
    have hsent := F.sent_le
    rw [htx] at hbuf hle
    simp only [SenderPc.claimed] at hbuf hle
    have hn : n ≤ (F.written.drop (F.sent - n)).length := by
      rw [List.length_drop]
      omega
    have hbuf' := hbuf.put (hbuf.count_eq ▸ hlen)
    rw [← hput] at hbuf'
    simp only [Half.out, htx]
    rw [hbuf.peek hn, hbuf'.peek (by rw [List.length_append]; omega),
      List.take_append_of_le_length hn]
  | _ => simp [Half.out, htx]

theorem Sends.advance {size : Nat} (h : Sends X F) (hp : X.tx = .sent id size) :
    Sends ⟨senderAdvance X.c size, .wait⟩ F := by
  have hle := h.claimed_le
  have hseq := h.seq
  have hbuf := h.buf
  rw [hp] at hle hseq hbuf
  simp only [SenderPc.claimed] at hle hseq hbuf
  have hdue : Half.due ⟨senderAdvance X.c size, .wait⟩ .data = X.due .data := by
    simp [Half.due, hp, SenderPc.picks, senderAdvance]
  refine ⟨Nat.zero_le _, ?_, h.win, ?_, h.mss, h.shut, fun hd => ⟨rfl, (h.data (hdue ▸ hd)).2⟩,
    fun hc hf => ?_⟩
  · show wrap (X.c.sendseq + size) = wrap (F.sent - 0)
    rw [hseq]
    unfold wrap
    omega
  · have hlen : size ≤ (F.written.drop (F.sent - size)).length := by
      have := F.sent_le
      rw [List.length_drop]
      omega
    have := hbuf.drop hlen
    rw [List.drop_drop, show F.sent - size + size = F.sent by omega] at this
    exact this
  · obtain ⟨h1, -, h2⟩ := h.done hc hf
    exact ⟨hdue ▸ h1, rfl, h2⟩

/-! ## Packets -/

theorem segments_append (ps qs : List Packet) : segments (ps ++ qs) = segments ps ++ segments qs :=
  List.filterMap_append ..

theorem windows_append (ps qs : List Packet) : windows (ps ++ qs) = windows ps ++ windows qs :=
  List.filterMap_append ..

theorem wrap_lt (n : Nat) : wrap n < 4294967296 := Nat.mod_lt _ (by decide)

/-- The headers `sender_loop` makes, but for those of data. -/
theorem exists_prepareHdr (hne : what ≠ .data) (c : Chan) (id : ChanId) :
    ∃ hd, senderPrepare c id what = .hdr hd ∧ hd.kind = what ∧ hd.datalen = 0 ∧
      (c.recvmss = chanMaxsegsize → Packet.Good ⟨hd, []⟩) := by
  have hmss : chanMaxsegsize < 65536 := by decide
  cases what with
  | data => exact absurd rfl hne
  | connect =>
    refine ⟨_, rfl, rfl, rfl, fun hm => ⟨⟨⟨hm ▸ hmss, wrap_lt _⟩, rfl⟩, Nat.zero_le _, ?_⟩⟩
    simp [Header.mss, hm]
  | accept =>
    refine ⟨_, rfl, rfl, rfl, fun hm => ⟨⟨⟨hm ▸ hmss, wrap_lt _⟩, rfl⟩, Nat.zero_le _, ?_⟩⟩
    simp [Header.mss, hm]
  | reset => exact ⟨_, rfl, rfl, rfl, fun _ => ⟨⟨trivial, rfl⟩, Nat.zero_le _, by simp [Header.mss]⟩⟩
  | window => exact ⟨_, rfl, rfl, rfl, fun _ => ⟨⟨wrap_lt _, rfl⟩, Nat.zero_le _, by simp [Header.mss]⟩⟩
  | close => exact ⟨_, rfl, rfl, rfl, fun _ => ⟨⟨trivial, rfl⟩, Nat.zero_le _, by simp [Header.mss]⟩⟩

theorem senderPrepare_data (c : Chan) (id : ChanId) {n : Nat} (hn : c.dataSize = n) (h : 0 < n) :
    senderPrepare c id .data = .data id n := by
  simp only [senderPrepare, hn, h, if_true]

theorem segments_hdr {hd : Header} (h : hd.kind ≠ .data) : segments [⟨hd, []⟩] = [] := by
  cases hd <;> first | rfl | exact absurd rfl h

/-- What a step of the sending half does to the stream. -/
structure Spoken (id : ChanId) (F F' : Stream) (ev : Event) : Prop where
  written : F'.written = F.written ++ ev.writtenOn id
  received : F'.received = F.received
  read : F'.read = F.read
  wins : F'.wins = F.wins

theorem Takes.congr {F' : Stream} (h : Takes c F) (hr : F'.received = F.received)
    (hn : F'.read = F.read) : Takes c F' where
  seq := hn ▸ h.seq
  buf := hr ▸ hn ▸ h.buf
  size := h.size
  mss := h.mss

/-- The next `n` bytes are about to be sent. -/
theorem Carries.claim {n : Nat} (h : Carries F X Y f b hand) (ht : Tidy X)
    (hp : X.tx = .picked id .data) (hl : F.sent + n ≤ F.limit) (hw : F.sent + n ≤ F.written.length)
    (hn : n ≤ chanMaxsegsize) :
    Carries (F.send n hl hw) { X with tx := .data id n } Y f b hand := by
  have hout : X.out = [] := by simp [Half.out, hp]
  have hflight := h.flight
  have hgood := h.good
  rw [hout, List.append_nil] at hflight hgood
  -- the bytes claimed are the first of the buffer
  have hlen : n ≤ (F.written.drop F.sent).length := by
    rw [List.length_drop]
    omega
  have hpeek : X.c.sendbuf.peek n = (F.written.drop F.sent).take n := by
    have hbuf := h.sends.buf
    rw [hp] at hbuf
    exact hbuf.peek hlen
  refine ⟨h.sends.prepareData ht hp hl hw, h.takes.congr rfl rfl, ?_, h.wins, fun p hmem => ?_⟩
  · show F.flight ++ [(F.written.drop F.sent).take n] = _
    rw [hflight, ← hpeek, List.append_assoc, segments_append]
    rfl
  · rcases List.mem_append.mp hmem with hmem | hmem
    · exact hgood p hmem
    · obtain rfl : p = ⟨.data id n, X.c.sendbuf.peek n⟩ := by simpa [Half.out] using hmem
      have hlen' : (X.c.sendbuf.peek n).length = n := by
        rw [hpeek, List.length_take]
        exact Nat.min_eq_left hlen
      have hmss : chanMaxsegsize < 65536 := by decide
      exact ⟨⟨Nat.lt_of_le_of_lt hn hmss, hlen'⟩, Nat.le_trans (Nat.le_of_eq hlen') hn, by simp [Header.mss]⟩

/-- A call or a step of the sender, where the channel is the sending half. -/
theorem Carries.speak {ev : Event} (h : Carries F X Y f b hand) (ht : Tidy X)
    (hm : X.c.recvmss = chanMaxsegsize) (ha : Half.Act id X X' ev) :
    ∃ F', Carries F' X' Y (f ++ ev.packets) b hand ∧ Spoken id F F' ev := by
  -- the packets under way and about to be written are the same
  have quiet : ∀ {X' : Half} {ev : Event}, Sends X' F → ev.packets ++ X'.out = X.out →
      ev.writtenOn id = [] → ∃ F', Carries F' X' Y (f ++ ev.packets) b hand ∧ Spoken id F F' ev := by
    intro X' ev hs hout hw
    have hq : f ++ ev.packets ++ X'.out = f ++ X.out := by rw [List.append_assoc, hout]
    exact ⟨F, ⟨hs, h.takes, hq ▸ h.flight, h.wins, hq ▸ h.good⟩, ⟨by simp [hw], rfl, rfl, rfl⟩⟩
  cases ha with
  | @listen c hl =>
    unfold chanListen at hl
    split at hl
    · rename_i hu
      obtain rfl := Option.some.inj hl
      exact quiet (h.sends.same rfl rfl rfl rfl (by simp [CF.AllowedIn, hu]) rfl
        fun hc => by simp [CS.Closing] at hc) rfl rfl
    · cases hl
  | @connect c hl =>
    unfold chanConnect at hl
    split at hl
    · rename_i hu
      obtain rfl := Option.some.inj hl
      exact quiet (h.sends.same rfl rfl rfl rfl (by simp [CF.AllowedIn, hu]) rfl
        fun hc => by simp [CS.Closing] at hc) rfl rfl
    · cases hl
  | close =>
    unfold chanClose
    split
    · rename_i hs
      exact quiet (h.sends.same rfl rfl rfl rfl (by simp [CF.AllowedIn, hs]) rfl
        fun _ hf => by simp at hf) rfl rfl
    · rename_i hs
      exact quiet (h.sends.same rfl rfl rfl rfl (by simp [CF.AllowedIn, hs]) rfl
        fun _ hf => by simp at hf) rfl rfl
    · exact quiet h.sends rfl rfl
  | @read c size data hr =>
    unfold chanRead at hr
    split at hr
    · obtain ⟨rfl, rfl⟩ := Prod.mk.inj (Option.some.inj hr)
      exact quiet (h.sends.same rfl rfl rfl rfl Iff.rfl rfl fun hc hf => ⟨hc, hf⟩) rfl rfl
    · cases hr
  | @write c left data hw =>
    obtain ⟨hs, hout⟩ := h.sends.write_out hw
    have hq : f ++ (Event.written id data).packets ++ Half.out { X with c } = f ++ X.out := by
      rw [hout]
      simp [Event.packets]
    refine ⟨F.write data, ⟨hs, h.takes.congr rfl rfl, hq ▸ h.flight, h.wins, hq ▸ h.good⟩, ?_, rfl,
      rfl, rfl⟩
    simp [Event.writtenOn, Flow.write]
  | @scan c what hw hs =>
    have hout : X.out = [] := by simp [Half.out, hw]
    exact quiet (h.sends.scan hw hs) hout.symm rfl
  | @prepare what hp =>
    have hout : X.out = [] := by simp [Half.out, hp]
    have hflight := h.flight
    have hgood := h.good
    rw [hout, List.append_nil] at hflight hgood
    by_cases hwhat : what = .data
    · subst hwhat
      obtain ⟨hpos, hmss, hl, hw⟩ := h.sends.dataSize ht (by simp [Half.due, hp, SenderPc.picks])
      obtain ⟨n, hn⟩ : ∃ n, X.c.dataSize = n := ⟨_, rfl⟩
      rw [hn] at hpos hmss hl hw
      rw [senderPrepare_data X.c id hn hpos]
      refine ⟨F.send n hl hw, ?_, by simp [Event.writtenOn, Flow.send], rfl, rfl, rfl⟩
      simpa [Event.packets] using h.claim ht hp hl hw hmss
    · obtain ⟨hd, heq, hk, -, hg⟩ := exists_prepareHdr hwhat X.c id
      rw [heq]
      have hs : Sends { X with tx := .hdr hd } F :=
        h.sends.of_tx (by rw [hp]; rfl) (by simp [hp, SenderPc.picks, hwhat])
      refine ⟨F, ⟨hs, h.takes, ?_, h.wins, ?_⟩, by simp [Event.writtenOn], rfl, rfl, rfl⟩
      · show _ = hand ++ segments (f ++ [] ++ [⟨hd, []⟩])
        rw [List.append_nil, segments_append, segments_hdr (hk ▸ hwhat), List.append_nil]
        exact hflight
      · intro p hmem
        rcases List.mem_append.mp hmem with hmem | hmem
        · exact hgood p (by simpa [Event.packets] using hmem)
        · obtain rfl : p = ⟨hd, []⟩ := by simpa [Half.out] using hmem
          exact hg hm
  | sendHdr hp _ =>
    exact quiet (h.sends.of_tx (by rw [hp]; rfl) (by rw [hp]; rfl))
      (by simp [Event.packets, Half.out, hp]) rfl
  | sendData hp =>
    exact quiet (h.sends.of_tx (by rw [hp]; rfl) (by rw [hp]; rfl))
      (by simp [Event.packets, Half.out, hp]) rfl
  | advance hp => exact quiet (h.sends.advance hp) (by simp [Event.packets, Half.out, hp]) rfl

/-! ## Steps of the receiving half -/

/-- What a step of the receiving half does to the stream. -/
structure Heard (id : ChanId) (F F' : Stream) (ev : Event) : Prop where
  written : F'.written = F.written
  read : F'.received.take F'.read = F.received.take F.read ++ ev.readOn id
  flight : F'.flight = F.flight

theorem Sends.congr {F' : Stream} (h : Sends X F) (hsent : F'.sent = F.sent)
    (hlimit : F'.limit = F.limit) (hw : F'.written = F.written) : Sends X F' where
  claimed_le := hsent ▸ h.claimed_le
  seq := hsent ▸ h.seq
  win := hlimit ▸ h.win
  buf := hsent ▸ hw ▸ h.buf
  mss := h.mss
  shut := hlimit ▸ h.shut
  data := by rw [hsent, hlimit, hw]; exact h.data
  done := by rw [hsent, hlimit, hw]; exact h.done

theorem Takes.recvwin (h : Takes c F) : c.recvwin = wrap (F.read + chanRbsize) := by
  unfold Chan.recvwin
  rw [h.seq, h.size]
  unfold wrap chanRbsize
  omega

/-- A window is announced with the flags that stand for one. -/
theorem windows_prepare (c : Chan) (id : ChanId) (what : CF) :
    windows (Half.out ⟨c, senderPrepare c id what⟩) = [c.recvwin] ∨
      windows (Half.out ⟨c, senderPrepare c id what⟩) = [] := by
  cases what
  case data =>
    unfold senderPrepare
    dsimp only
    split <;> exact .inr rfl
  case reset => exact .inr rfl
  case close => exact .inr rfl
  all_goals exact .inl rfl

/-- A call or a step of the sender, where the channel is the receiving half: `X` takes
from `Y`. -/
theorem Carries.listen {ev : Event} (h : Carries F Y X b f hand) (ha : Half.Act id X X' ev) :
    ∃ F', Carries F' Y X' b (f ++ ev.packets) hand ∧ Heard id F F' ev ∧
      ∀ n, X'.c.recvbuf.ahead n = X.c.recvbuf.ahead n := by
  have quiet : ∀ {X' : Half} {ev : Event}, X'.c.recvseq = X.c.recvseq →
      X'.c.recvbuf = X.c.recvbuf → X'.c.recvmss = X.c.recvmss →
      windows (ev.packets ++ X'.out) = windows X.out → ev.readOn id = [] →
      ∃ F', Carries F' Y X' b (f ++ ev.packets) hand ∧ Heard id F F' ev ∧
        ∀ n, X'.c.recvbuf.ahead n = X.c.recvbuf.ahead n := by
    intro X' ev hseq hbuf hmss hwin hr
    refine ⟨F, ⟨h.sends, ⟨hseq ▸ h.takes.seq, hbuf ▸ h.takes.buf, hbuf ▸ h.takes.size,
      hmss ▸ h.takes.mss⟩, h.flight, ?_, h.good⟩, ⟨rfl, by simp [hr], rfl⟩, fun n => by rw [hbuf]⟩
    rw [List.append_assoc, windows_append, hwin, ← windows_append]
    exact h.wins
  have hout : ∀ c, windows (Half.out { X with c }) = windows X.out := by
    intro c
    unfold Half.out
    cases X.tx <;> rfl
  cases ha with
  | @listen c hl =>
    unfold chanListen at hl
    split at hl
    · obtain rfl := Option.some.inj hl
      exact quiet rfl rfl rfl (hout _) rfl
    · cases hl
  | @connect c hl =>
    unfold chanConnect at hl
    split at hl
    · obtain rfl := Option.some.inj hl
      exact quiet rfl rfl rfl (hout _) rfl
    · cases hl
  | close =>
    unfold chanClose
    split
    · exact quiet rfl rfl rfl (hout _) rfl
    · exact quiet rfl rfl rfl (hout _) rfl
    · exact quiet rfl rfl rfl rfl rfl
  | @read c size data hr =>
    unfold chanRead at hr
    split at hr
    · obtain ⟨rfl, rfl⟩ := Prod.mk.inj (Option.some.inj hr)
      have hcount := h.takes.buf.count_eq
      obtain ⟨n, hn⟩ : ∃ n, min X.c.recvbuf.count size = n := ⟨_, rfl⟩
      rw [hn]
      have hlen : n ≤ (F.received.drop F.read).length := by
        rw [← hcount, ← hn]
        exact Nat.min_le_left ..
      have hle : F.read + n ≤ F.received.length := by
        have := F.read_le
        rw [List.length_drop] at hlen
        omega
      refine ⟨F.consume n hle, ⟨h.sends.congr rfl rfl rfl, ⟨?_, ?_, h.takes.size, h.takes.mss⟩,
        h.flight, ?_, h.good⟩, ⟨rfl, ?_, rfl⟩, fun _ => rfl⟩
      · show wrap (X.c.recvseq + n) = wrap (F.read + n)
        rw [h.takes.seq]
        unfold wrap
        omega
      · have := h.takes.buf.drop hlen
        rw [List.drop_drop] at this
        exact this
      · rw [List.append_assoc, windows_append]
        show _ = windows f ++ windows (Half.out _)
        rw [hout, ← windows_append]
        exact h.wins
      · rw [h.takes.buf.peek hlen]
        show F.received.take (F.read + n) = _
        rw [List.take_add, Event.readOn, if_pos rfl]
    · cases hr
  | @write c left data hw =>
    unfold chanWrite at hw
    split at hw
    · obtain ⟨rfl, rfl⟩ := Prod.mk.inj (Option.some.inj hw)
      exact quiet rfl rfl rfl (hout _) rfl
    · cases hw
  | @scan c what hw hs =>
    obtain ⟨-, -, rfl⟩ := senderScan_spec hs
    exact quiet rfl rfl rfl (by simp [Event.packets, Half.out, hw]) rfl
  | @prepare what hp =>
    have hnil : X.out = [] := by simp [Half.out, hp]
    rcases windows_prepare X.c id what with hwin | hwin
    · refine ⟨F.announce, ⟨h.sends.congr rfl rfl rfl, h.takes.congr rfl rfl, h.flight, ?_, h.good⟩,
        ⟨rfl, by simp [Event.readOn, Flow.announce], rfl⟩, fun _ => rfl⟩
      have := h.wins
      rw [hnil, List.append_nil] at this
      show (F.wins ++ [F.read + chanRbsize]).map wrap = windows (f ++ [] ++ _)
      rw [List.append_nil, windows_append, hwin, h.takes.recvwin, ← this]
      exact List.map_append ..
    · exact quiet rfl rfl rfl (by rw [hnil]; exact hwin) rfl
  | sendHdr hp _ => exact quiet rfl rfl rfl (by simp [Event.packets, Half.out, hp]) rfl
  | sendData hp => exact quiet rfl rfl rfl (by simp [Event.packets, Half.out, hp]) rfl
  | advance hp => exact quiet rfl rfl rfl (by simp [Event.packets, Half.out, hp]) rfl

/-! ## Packets that arrive -/

/-- The sending half is told of a window. -/
theorem Sends.update {w : Nat} {ws : List Nat} (h : Sends X F) (hws : F.wins = w :: ws)
    (hseq : c.sendseq = X.c.sendseq) (hwin : c.sendwin = wrap w) (hbuf : c.sendbuf = X.c.sendbuf)
    (hmss : c.sendmss = chanMaxsegsize) (hd : c.flags.data = X.c.flags.data)
    (hs : CF.AllowedIn .data c.state) (hc : ¬c.state.Closing) :
    Sends { X with c } (F.update hws) := by
  refine ⟨h.claimed_le, hseq ▸ h.seq, hwin, hbuf ▸ h.buf, fun _ => hmss, fun h0 => absurd hs h0,
    fun h0 => ?_, fun h0 => absurd h0 hc⟩
  have hdue : X.due .data = true := by
    rw [← h0]
    simp [Half.due, Flags.get, hd]
  obtain ⟨h1, h2, h3⟩ := h.data hdue
  exact ⟨h1, Nat.lt_of_lt_of_le h2 (F.limit_le_update hws), h3⟩

theorem Carries.keep {F' : Stream} (h : Carries F X Y f b hand) (hs : Sends { X with c } F')
    (hb : c.sendbuf = X.c.sendbuf) (hr : F'.received = F.received) (hn : F'.read = F.read)
    (hf : F'.flight = F.flight) {b' : List Packet}
    (hw : F'.wins.map wrap = windows (b' ++ Y.out)) :
    Carries F' { X with c } Y f b' hand := by
  have hout : Half.out { X with c } = X.out := by simp [Half.out, hb]
  exact ⟨hs, h.takes.congr hr hn, hf ▸ hout ▸ h.flight, hw, hout ▸ h.good⟩

/-- A packet arrives at the sending half. -/
theorem Carries.hear {p : Packet} (h : Carries F X Y f (p :: b) hand) (hp : p.Good) :
    ∃ F', Carries F' { X with c := (receive X.c p.header).1 } Y f b hand ∧
      F'.written = F.written ∧ F'.received = F.received ∧ F'.read = F.read := by
  have hwins : F.wins.map wrap = p.header.win.toList ++ windows (b ++ Y.out) := by
    rw [h.wins, List.cons_append]
    unfold windows
    cases hw : p.header.win <;> simp [hw]
  -- a window that is announced, and is not looked at
  have ignore : ∀ {c : Chan} {w : Nat}, p.header.win = some w → Sends { X with c } F →
      c.sendbuf = X.c.sendbuf → ∃ F', Carries F' { X with c } Y f b hand ∧
        F'.written = F.written ∧ F'.received = F.received ∧ F'.read = F.read := by
    intro c w hw hs hb
    rw [hw] at hwins
    obtain ⟨w', ws, heq, -, hws⟩ := List.map_eq_cons_iff.mp hwins
    have hs' : Sends { X with c } (F.ignore heq) := hs.congr rfl rfl rfl
    exact ⟨F.ignore heq, h.keep hs' hb rfl rfl rfl hws, rfl, rfl, rfl⟩
  have update : ∀ {c : Chan} {w : Nat}, p.header.win = some w → c.sendseq = X.c.sendseq →
      c.sendwin = w → c.sendbuf = X.c.sendbuf → c.sendmss = chanMaxsegsize →
      c.flags.data = X.c.flags.data → CF.AllowedIn .data c.state → ¬c.state.Closing →
      ∃ F', Carries F' { X with c } Y f b hand ∧
        F'.written = F.written ∧ F'.received = F.received ∧ F'.read = F.read := by
    intro c w hw hseq hwin hb hmss hd hs hc
    rw [hw] at hwins
    obtain ⟨w', ws, heq, hw', hws⟩ := List.map_eq_cons_iff.mp hwins
    have hs' := h.sends.update heq hseq (hwin.trans hw'.symm) hb hmss hd hs hc
    exact ⟨F.update heq, h.keep hs' hb rfl rfl rfl hws, rfl, rfl, rfl⟩
  have quiet : ∀ {c : Chan}, p.header.win = none → Sends { X with c } F →
      c.sendbuf = X.c.sendbuf → ∃ F', Carries F' { X with c } Y f b hand ∧
        F'.written = F.written ∧ F'.received = F.received ∧ F'.read = F.read := by
    intro c hw hs hb
    rw [hw] at hwins
    exact ⟨F, h.keep hs hb rfl rfl rfl hwins, rfl, rfl, rfl⟩
  have hmss := hp.mss
  unfold receive
  cases hhd : p.header with
  | connect i mss w =>
    rw [hhd] at hmss ignore update
    dsimp only
    split
    · exact update rfl rfl rfl rfl (hmss _ rfl) rfl (by simp [CF.AllowedIn]) (by simp [CS.Closing])
    · exact ignore rfl (h.sends.same rfl rfl rfl rfl Iff.rfl rfl fun hc hf => ⟨hc, hf⟩) rfl
  | accept i mss w =>
    rw [hhd] at hmss ignore update
    dsimp only
    split
    · exact update rfl rfl rfl rfl (hmss _ rfl) rfl (by simp [CF.AllowedIn]) (by simp [CS.Closing])
    · exact ignore rfl (h.sends.same rfl rfl rfl rfl Iff.rfl rfl fun hc hf => ⟨hc, hf⟩) rfl
  | reset i =>
    rw [hhd] at quiet
    exact quiet rfl h.sends rfl
  | data i len =>
    rw [hhd] at quiet
    dsimp only
    split
    · exact quiet rfl h.sends rfl
    · exact quiet rfl h.sends rfl
  | window i w =>
    rw [hhd] at ignore update
    dsimp only
    split
    · rename_i hs
      have ha : CF.AllowedIn .data X.c.state := by
        rcases hs with hs | hs <;> simp [CF.AllowedIn, hs]
      refine update rfl rfl rfl rfl (h.sends.mss ha) rfl ha ?_
      rcases hs with hs | hs <;> simp [CS.Closing, hs]
    · exact ignore rfl h.sends rfl
  | close i =>
    rw [hhd] at quiet
    dsimp only
    split
    · rename_i hs
      exact quiet rfl (h.sends.same rfl rfl rfl rfl (by simp [CF.AllowedIn, hs]) rfl
        fun hc => by simp [CS.Closing] at hc) rfl
    · rename_i hs
      exact quiet rfl (h.sends.same rfl rfl rfl rfl (by simp [CF.AllowedIn, hs]) rfl
        fun _ hf => ⟨.inl hs, hf⟩) rfl
    · exact quiet rfl h.sends rfl

/-! ## The receiver thread -/

theorem receive_recv (c : Chan) (hd : Header) :
    (receive c hd).1.recvseq = c.recvseq ∧ (receive c hd).1.recvbuf = c.recvbuf ∧
      (receive c hd).1.recvmss = c.recvmss := by
  unfold receive
  cases hd <;> dsimp only <;> repeat' split
  all_goals exact ⟨rfl, rfl, rfl⟩

/-- A packet arrives at the receiving half: `X` takes from `Y`. -/
theorem Carries.arrive {p : Packet} (h : Carries F Y X (p :: b) f []) :
    Carries F Y { X with c := (receive X.c p.header).1 } b f (segments [p]) := by
  obtain ⟨hseq, hbuf, hmss⟩ := receive_recv X.c p.header
  have hout : windows (Half.out { X with c := (receive X.c p.header).1 }) = windows X.out := by
    unfold Half.out
    cases X.tx <;> rfl
  refine ⟨h.sends, ⟨hseq ▸ h.takes.seq, hbuf ▸ h.takes.buf, hbuf ▸ h.takes.size,
    hmss ▸ h.takes.mss⟩, ?_, ?_, fun q hq => h.good q (List.mem_cons_of_mem _ hq)⟩
  · rw [← segments_append]
    exact h.flight
  · rw [windows_append, hout, ← windows_append]
    exact h.wins

/-- There is room for the data of a packet. -/
theorem Carries.room {data : List Byte} (h : Carries F Y X b f [data]) :
    (F.received.drop F.read).length + data.length ≤ X.c.recvbuf.size := by
  rw [h.takes.size]
  exact F.length_le_of_flight h.flight

/-- The data of a packet is read. -/
theorem Carries.fill {data : List Byte} (h : Carries F Y X b f [data]) :
    Carries F Y (X.fill data) b f [(X.fill data).c.recvbuf.ahead data.length] := by
  have hroom := h.room
  have hahead : (X.fill data).c.recvbuf.ahead data.length = data :=
    RingBuffer.ahead_fill h.takes.buf.tail_le (by omega)
  rw [hahead]
  refine ⟨h.sends, ⟨h.takes.seq, h.takes.buf.fill hroom, h.takes.size, h.takes.mss⟩, h.flight, ?_,
    h.good⟩
  have hout : windows (X.fill data).out = windows X.out := by
    unfold Half.out Half.fill
    cases X.tx <;> rfl
  rw [windows_append, hout, ← windows_append]
  exact h.wins

/-- It is counted. -/
theorem Carries.grow {n : Nat} (h : Carries F Y X b f [X.c.recvbuf.ahead n]) :
    ∃ F', Carries F' Y (X.grow n) b f [] ∧ F'.written = F.written ∧
      F'.received.take F'.read = F.received.take F.read := by
  have hroom := h.room
  have hlen : (X.c.recvbuf.ahead n).length = n := by simp [RingBuffer.ahead]
  rw [hlen] at hroom
  have hgrow := h.takes.buf.grow hroom
  rw [← List.drop_append_of_le_length F.read_le] at hgrow
  refine ⟨F.deliver h.flight, ⟨h.sends.congr rfl rfl rfl, ⟨h.takes.seq, hgrow, h.takes.size,
    h.takes.mss⟩, rfl, ?_, h.good⟩, rfl, List.take_append_of_le_length F.read_le⟩
  have hout : windows (X.grow n).out = windows X.out := by
    unfold Half.out Half.grow
    cases X.tx <;> rfl
  rw [windows_append, hout, ← windows_append]
  exact h.wins

end Csup.Mux
