import Csup.Mux.Close

/-!
# The end of a channel

`chan_read` looks at the state of the channel before it looks at the receive
buffer, so that from `CLOSE` on it returns 0, whatever is left in the buffer.

* `eof_drained`: when each `CLOSE` found the buffer empty, all the data that came
  was returned before the 0 is;
* `not_drained`: it is not when there is a byte in the buffer.

The runs are those of one endpoint; the peer may send anything.
-/

namespace Csup.Mux

open Csup.Framework

/-- What `chan_read` does, once round its loop. -/
inductive ReadResult
  /-- it returns 0 -/
  | eof
  /-- it returns an error -/
  | badf
  | wait
  | bytes (c : Chan) (data : List Byte)

/-- `chan_read`, in any state. -/
def chanReadLoop (c : Chan) (size : Nat) : ReadResult :=
  if c.state = .rdclosed ∨ c.state = .closed then .eof
  else if c.state ≠ .established ∧ c.state ≠ .wrclosed then .badf
  else
    match chanRead c size with
    | some (c', data) => .bytes c' data
    | none => .wait

/-- The states in which the peer has closed. -/
def CS.ReadClosed (s : CS) : Prop := s = .rdclosed ∨ s = .closed

/-- The data of a `DATA` packet that the receiver reads in a step. -/
def arrived (id : ChanId) (input : List Byte) : ReceiverPc → ReceiverPc → List Byte
  | .data i len, .filled _ _ => if i = id then input.take len else []
  | _, _ => []

/-- A run of an endpoint whose steps are all `ok`: the data of `DATA` packets that came
and what `chan_read` returned, by channel. -/
inductive Endpoint.Fed (ok : Endpoint → Endpoint → Prop) :
    (ChanId → List Byte) → (ChanId → List Byte) → Endpoint → Prop
  | init : Fed ok (fun _ => []) (fun _ => []) Endpoint.init
  | step {ins outs : ChanId → List Byte} {e e' : Endpoint} {ev : Event} {input rest : List Byte} :
    Fed ok ins outs e → e.Step input e' ev rest → ok e e' →
    Fed ok (fun id => ins id ++ arrived id input e.receiver e'.receiver)
      (fun id => outs id ++ ev.readOn id) e'

/-- A step in which the peer closes a channel finds nothing in its receive buffer. -/
def CloseDrained (e e' : Endpoint) : Prop :=
  ∀ id, ¬(e.chans id).state.ReadClosed → (e'.chans id).state.ReadClosed →
    (e.chans id).recvbuf.count = 0

/-- Where `chan_read` returns 0, it has returned all that came. -/
def Drained (ins outs : ChanId → List Byte) (e : Endpoint) : Prop :=
  ∀ id size, 0 < size → chanReadLoop (e.chans id) size = .eof → outs id = ins id

/-! ## The receiving side of a channel -/

/-- The bytes the receiver thread is about to put, or has put, behind those the buffer
counts. -/
def ReceiverPc.owed (id : ChanId) : ReceiverPc → Nat
  | data i len => if i = id then len else 0
  | filled i len => if i = id then len else 0
  | _ => 0

/-- Those it has put. -/
def ReceiverPc.ahead (id : ChanId) (b : Buf) : ReceiverPc → List Byte
  | filled i len => if i = id then b.ahead len else []
  | _ => []

structure RecvInv (id : ChanId) (c : Chan) (rx : ReceiverPc) (ins outs : List Byte) : Prop where
  buf : ∃ xs, c.recvbuf.Holds xs ∧ ins = outs ++ xs ++ rx.ahead id c.recvbuf ∧
    xs.length + rx.owed id ≤ c.recvbuf.size
  closed : c.state.ReadClosed → c.recvbuf.count = 0 ∧ rx.owed id = 0

variable {id : ChanId} {h h' : Half} {c : Chan} {rx rx' : ReceiverPc} {ins outs : List Byte}

theorem arrived_self (input : List Byte) : arrived id input rx rx = [] := by
  cases rx <;> rfl

theorem ahead_eq_nil (b : Buf) (h : rx.owed id = 0) : rx.ahead id b = [] := by
  cases rx with
  | filled i len =>
    simp only [ReceiverPc.owed] at h
    simp only [ReceiverPc.ahead]
    split
    · rw [if_pos ‹_›] at h
      rw [h]
      rfl
    · rfl
  | _ => rfl

/-- Steps that do not concern the data received. -/
theorem RecvInv.same (hi : RecvInv id h.c rx ins outs) (hb : c.recvbuf = h.c.recvbuf)
    (hs : c.state.ReadClosed → h.c.state.ReadClosed) : RecvInv id c rx ins outs where
  buf := hb ▸ hi.buf
  closed := fun hc => hb ▸ hi.closed (hs hc)

theorem RecvInv.read {size : Nat} {data : List Byte} (hi : RecvInv id h.c rx ins outs)
    (hr : chanRead h.c size = some (c, data)) : RecvInv id c rx ins (outs ++ data) := by
  unfold chanRead at hr
  split at hr
  · rename_i hcond
    obtain ⟨rfl, rfl⟩ := Prod.mk.inj (Option.some.inj hr)
    obtain ⟨xs, hb, hins, hlen⟩ := hi.buf
    have hn : min h.c.recvbuf.count size ≤ xs.length := by
      rw [← hb.count_eq]
      exact Nat.min_le_left ..
    refine ⟨⟨_, hb.drop hn, ?_, ?_⟩, fun hc => absurd hc ?_⟩
    · rw [hb.peek hn, List.append_assoc outs, List.take_append_drop, hins]
      cases rx <;> rfl
    · rw [List.length_drop, RingBuffer.drop_size]
      omega
    · rcases hcond.1 with hs | hs <;> simp [hs, CS.ReadClosed]
  · cases hr

theorem RecvInv.act {ev : Event} (hi : RecvInv id h.c rx ins outs) (ha : Half.Act id h h' ev) :
    RecvInv id h'.c rx ins (outs ++ ev.readOn id) := by
  have quiet : ∀ {c : Chan} {ev : Event}, ev.readOn id = [] → c.recvbuf = h.c.recvbuf →
      (c.state.ReadClosed → h.c.state.ReadClosed) → RecvInv id c rx ins (outs ++ ev.readOn id) :=
    fun hr hb hs => by
      rw [hr, List.append_nil]
      exact hi.same hb hs
  cases ha with
  | @read c size data hr =>
    rw [Event.readOn, if_pos rfl]
    exact hi.read hr
  | @listen c hl =>
    unfold chanListen at hl
    split at hl
    · obtain rfl := Option.some.inj hl
      exact quiet rfl rfl fun hc => by rcases hc with hc | hc <;> cases hc
    · cases hl
  | @connect c hl =>
    unfold chanConnect at hl
    split at hl
    · obtain rfl := Option.some.inj hl
      exact quiet rfl rfl fun hc => by rcases hc with hc | hc <;> cases hc
    · cases hl
  | close =>
    unfold chanClose
    split
    · exact quiet rfl rfl fun hc => by rcases hc with hc | hc <;> cases hc
    · rename_i hs
      exact quiet rfl rfl fun _ => .inl hs
    · exact quiet rfl rfl fun hc => hc
  | @write c left data hw =>
    unfold chanWrite at hw
    split at hw
    · obtain ⟨rfl, rfl⟩ := Prod.mk.inj (Option.some.inj hw)
      exact quiet rfl rfl fun hc => hc
    · cases hw
  | @scan c what _ hs =>
    unfold senderScan at hs
    split at hs
    · cases hs
    · obtain ⟨w, -, heq⟩ := Option.map_eq_some_iff.mp hs
      obtain ⟨rfl, rfl⟩ := Prod.mk.inj heq
      exact quiet rfl rfl fun hc => hc
  | _ => exact quiet rfl rfl fun hc => hc

/-- The header of a packet: data is taken when there is room for it, and not after
`CLOSE`. -/
theorem RecvInv.receive {hd : Header} (hi : RecvInv hd.id c .idle ins outs)
    (hdrain : ¬c.state.ReadClosed → (receive c hd).1.state.ReadClosed → c.recvbuf.count = 0) :
    RecvInv hd.id (receive c hd).1 (receive c hd).2 ins outs := by
  obtain ⟨xs, hb, hins, hlen⟩ := hi.buf
  have hbuf : (Mux.receive c hd).1.recvbuf = c.recvbuf := by
    unfold Mux.receive
    cases hd <;> dsimp only <;> repeat' split
    all_goals rfl
  have howed : ((Mux.receive c hd).2.owed hd.id = 0 ∨
      ¬(Mux.receive c hd).1.state.ReadClosed) ∧
      xs.length + (Mux.receive c hd).2.owed hd.id ≤ c.recvbuf.size ∧
      ∀ b, (Mux.receive c hd).2.ahead hd.id b = [] := by
    have havail := hb.avail_eq
    have hle := hb.length_le
    unfold Mux.receive
    cases hd with
    | data i len =>
      dsimp only
      split
      · exact ⟨.inl rfl, hle, fun _ => rfl⟩
      · rename_i hok
        rw [not_or, not_or] at hok
        refine ⟨.inr fun hc => hok.1 ?_, ?_, fun _ => rfl⟩
        · rcases hc with (hc : c.state = _) | (hc : c.state = _) <;> simp [hc]
        · simp only [ReceiverPc.owed, Header.id, if_true]
          omega
    | _ =>
      dsimp only
      repeat' split
      all_goals exact ⟨.inl rfl, hle, fun _ => rfl⟩
  refine ⟨⟨xs, hbuf ▸ hb, ?_, hbuf ▸ howed.2.1⟩, fun hc => ⟨hbuf ▸ ?_, howed.1.resolve_right (· hc)⟩⟩
  · rw [howed.2.2]
    exact hins
  · by_cases hc' : c.state.ReadClosed
    · exact (hi.closed hc').1
    · exact hdrain hc' hc

/-- The data of a packet is read. -/
theorem RecvInv.fill {len : Nat} {input : List Byte} (hi : RecvInv id h.c (.data id len) ins outs)
    (hlen : len ≤ input.length) :
    RecvInv id (h.fill (input.take len)).c (.filled id len) (ins ++ input.take len) outs := by
  obtain ⟨xs, hb, hins, hroom⟩ := hi.buf
  have htake : (input.take len).length = len := by
    rw [List.length_take]
    exact Nat.min_eq_left hlen
  simp only [ReceiverPc.owed, if_true] at hroom
  have hahead := RingBuffer.ahead_fill (b := h.c.recvbuf) hb.tail_le
    (show (input.take len).length ≤ h.c.recvbuf.size + 1 by omega)
  rw [htake] at hahead
  refine ⟨⟨xs, hb.fill (by omega), ?_, by rw [ReceiverPc.owed, if_pos rfl]; exact hroom⟩, fun hc => ?_⟩
  · show _ = outs ++ xs ++ if id = id then (h.c.recvbuf.fill (input.take len)).ahead len else []
    rw [if_pos rfl, hahead, hins]
    simp [ReceiverPc.ahead]
  · exact hi.closed hc

/-- It is counted. -/
theorem RecvInv.grow {len : Nat} (hi : RecvInv id h.c (.filled id len) ins outs) :
    RecvInv id (h.grow len).c .idle ins outs := by
  obtain ⟨xs, hb, hins, hroom⟩ := hi.buf
  simp only [ReceiverPc.owed, ReceiverPc.ahead, if_true] at hroom hins
  have hgrow := hb.grow hroom
  have hlen : (h.c.recvbuf.ahead len).length = len := by simp [RingBuffer.ahead]
  refine ⟨⟨_, hgrow, by simp [ReceiverPc.ahead, hins], ?_⟩, fun hc => ⟨?_, rfl⟩⟩
  · rw [List.length_append, hlen]
    exact hroom
  · obtain ⟨h0, h1⟩ := hi.closed hc
    simp only [ReceiverPc.owed, if_true] at h1
    show (h.c.recvbuf.grow len).count = 0
    rw [hgrow.count_eq, List.length_append, hlen, ← hb.count_eq, h0, h1]

/-- A step of a channel keeps the invariant. -/
theorem RecvInv.step {ev : Event} {input rest : List Byte} (hi : RecvInv id h.c rx ins outs)
    (hs : Half.Step id h rx input h' rx' ev rest)
    (hdrain : ¬h.c.state.ReadClosed → h'.c.state.ReadClosed → h.c.recvbuf.count = 0) :
    RecvInv id h'.c rx' (ins ++ arrived id input rx rx') (outs ++ ev.readOn id) := by
  cases hs with
  | act ha =>
    rw [arrived_self, List.append_nil]
    exact hi.act ha
  | @receive hd rest hrx _ hid =>
    subst hrx hid
    have := hi.receive hdrain
    simpa [arrived, Event.readOn] using this
  | unknown hrx _ =>
    subst hrx
    simpa [arrived, Event.readOn] using (⟨hi.buf, hi.closed⟩ : RecvInv id h.c .badproto ins outs)
  | fill hrx hlen =>
    subst hrx
    simpa [arrived, Event.readOn] using hi.fill hlen
  | filled hrx =>
    subst hrx
    simpa [arrived, Event.readOn] using hi.grow

/-- The other channels see nothing of what the receiver does. -/
theorem Half.Step.others {ev : Event} {input rest : List Byte} {j : ChanId}
    (hs : Half.Step id h rx input h' rx' ev rest) (hj : j ≠ id) :
    rx'.owed j = rx.owed j ∧ (∀ b, rx'.ahead j b = rx.ahead j b) ∧ arrived j input rx rx' = [] := by
  have hj' : id ≠ j := hj.symm
  cases hs with
  | act => exact ⟨rfl, fun _ => rfl, arrived_self input⟩
  | @receive hd rest hrx _ hid =>
    subst hrx hid
    unfold Mux.receive
    cases hd <;> dsimp only <;> repeat' split
    all_goals first | exact ⟨rfl, fun _ => rfl, rfl⟩ | exact ⟨if_neg hj', fun _ => rfl, rfl⟩
  | unknown hrx _ =>
    subst hrx
    exact ⟨rfl, fun _ => rfl, rfl⟩
  | fill hrx _ =>
    subst hrx
    simp [ReceiverPc.owed, ReceiverPc.ahead, arrived, hj']
  | filled hrx =>
    subst hrx
    simp [ReceiverPc.owed, ReceiverPc.ahead, arrived, hj']

/-! ## Runs -/

theorem recvInv_init (id : ChanId) : RecvInv id (Endpoint.init.chans id) .idle [] [] where
  buf := ⟨[], RingBuffer.holds_new _ _, rfl, Nat.zero_le _⟩
  closed := fun h => by rcases h with h | h <;> cases h

theorem Endpoint.Fed.recvInv {ins outs : ChanId → List Byte} {e : Endpoint}
    (h : Endpoint.Fed CloseDrained ins outs e) :
    ∀ id, RecvInv id (e.chans id) e.receiver (ins id) (outs id) := by
  induction h with
  | init => exact recvInv_init
  | @step ins outs e e' ev input rest _ hs hdrain ih =>
    intro j
    obtain ⟨id, hother, hon, hstep⟩ := exists_half_step hs
    by_cases hj : j = id
    · subst hj
      exact RecvInv.step (h := e.half j) (ih j) hstep (hdrain j)
    · obtain ⟨howed, hahead, harr⟩ := hstep.others hj
      have hc : e'.chans j = e.chans j := congrArg Half.c (hother j hj)
      obtain ⟨hw, hr, -⟩ := On.logs hon hj
      show RecvInv j (e'.chans j) e'.receiver (ins j ++ arrived j input e.receiver e'.receiver)
        (outs j ++ ev.readOn j)
      rw [harr, hr, List.append_nil, List.append_nil, hc]
      obtain ⟨xs, hb, hins, hlen⟩ := (ih j).buf
      exact ⟨⟨xs, hb, by rw [hahead]; exact hins, howed ▸ hlen⟩, fun h0 => howed ▸ (ih j).closed h0⟩

/-- When each `CLOSE` finds the receive buffer empty, `chan_read` returns 0 when it has
returned all the data. -/
theorem eof_drained {ins outs : ChanId → List Byte} {e : Endpoint}
    (h : Endpoint.Fed CloseDrained ins outs e) : Drained ins outs e := by
  intro id size _ heof
  obtain ⟨⟨xs, hb, hins, hlen⟩, hclosed⟩ := h.recvInv id
  have hc : (e.chans id).state.ReadClosed := by
    unfold chanReadLoop at heof
    by_contra hn
    rw [if_neg (show ¬((e.chans id).state = .rdclosed ∨ (e.chans id).state = .closed) from hn)] at heof
    split at heof
    · cases heof
    · split at heof <;> cases heof
  obtain ⟨h0, h1⟩ := hclosed hc
  rw [hb.count_eq] at h0
  rw [hins, ahead_eq_nil _ h1, List.length_eq_zero_iff.mp h0]
  simp

/-! ## One byte -/

section Examples

variable {ok : Endpoint → Endpoint → Prop} {ins outs : ChanId → List Byte} {e : Endpoint}

/-- A step of the channel 0. -/
theorem Endpoint.Fed.silent {e' : Endpoint} {input rest : List Byte} (h : Endpoint.Fed ok ins outs e)
    (hs : e.Step input e' .silent rest) (harr : ∀ id, arrived id input e.receiver e'.receiver = [])
    (hok : ok e e') : Endpoint.Fed ok ins outs e' := by
  have := h.step hs hok
  simpa [harr, Event.readOn] using this

/-- A step when nothing comes. -/
theorem Endpoint.Fed.quiet {e' : Endpoint} {ev : Event} (h : Endpoint.Fed ok ins outs e)
    (hs : e.Step [] e' ev []) (harr : ∀ id, arrived id [] e.receiver e'.receiver = [])
    (hok : ok e e') : Endpoint.Fed ok ins (fun id => outs id ++ ev.readOn id) e' := by
  have := h.step hs hok
  simpa [harr] using this

/-- A packet of the channel 0. -/
theorem exists_received (hd : Header) (c : Chan) (rx : ReceiverPc) (h : Endpoint.Fed ok ins outs e)
    (hi : e.receiver = .idle) (hid : hd.id = 0) (hdec : decode hd.encode = .header hd [])
    (hr : receive (e.chans 0) hd = (c, rx))
    (hok : ∀ e', (∀ id, id ≠ 0 → e'.chans id = e.chans id) → e'.chans 0 = c → ok e e') :
    ∃ e', Endpoint.Fed ok ins outs e' ∧ e'.chans 0 = c ∧ e'.receiver = rx := by
  have hs := Endpoint.Step.receive hi hdec
  rw [hid, hr] at hs
  have hself : (e.set 0 c).chans 0 = c := set_chans_self
  exact ⟨_, h.silent hs (fun _ => by rw [hi]; rfl) (hok _ (fun _ => set_chans_of_ne) hself), hself, rfl⟩

/-- The channel 0, open. -/
def openedChan : Chan := { Chan.new with state := .established, sendmss := 1024, sendwin := 16384 }

theorem receive_data {i : ChanId} {len : Nat}
    (h : ¬((c.state ≠ .established ∧ c.state ≠ .wrclosed) ∨ (len > c.recvbuf.avail ∨ len > c.recvmss))) :
    receive c (.data i len) = (c, .data i len) := by
  simp only [receive]
  exact if_neg h

/-- The channel 0 is connected, and a packet with `x` comes. -/
theorem exists_lastByte (ok : Endpoint → Endpoint → Prop)
    (hok : ∀ e e' : Endpoint, (∀ id, id ≠ 0 → e'.chans id = e.chans id) →
      ¬(e'.chans 0).state.ReadClosed → ok e e') :
    ∃ e ins outs, Endpoint.Fed ok ins outs e ∧
      e.chans 0 = { openedChan with recvbuf := openedChan.recvbuf.put [120] } ∧
      e.receiver = .idle ∧ ins 0 = [120] ∧ outs 0 = [] := by
  have hne : ∀ {s : CS}, s = .established ∨ s = .connecting → ¬s.ReadClosed := by
    rintro s (rfl | rfl) <;> simp [CS.ReadClosed]
  have h₀ : Endpoint.Fed ok (fun _ => []) (fun _ => []) Endpoint.init := .init
  have h₁ := h₀.quiet (.connect 0 rfl) (fun _ => rfl)
    (hok _ _ (fun _ => set_chans_of_ne) (hne (.inr rfl)))
  have h₂ := h₁.quiet (.scan 0 rfl rfl) (fun _ => rfl)
    (hok _ _ (fun _ => set_chans_of_ne) (hne (.inr rfl)))
  have h₃ := h₂.quiet (.prepare rfl) (fun _ => rfl) (hok _ _ (fun _ _ => rfl) (hne (.inr rfl)))
  have h₄ := h₃.quiet (.sendHdr rfl) (fun _ => rfl) (hok _ _ (fun _ _ => rfl) (hne (.inr rfl)))
  obtain ⟨e₅, h₅, hc₅, hr₅⟩ := exists_received (.accept 0 1024 16384) openedChan .idle h₄ rfl rfl
    rfl rfl fun e' hother hc => hok _ _ hother (hc ▸ hne (.inl rfl))
  have hroom : ¬((openedChan.state ≠ .established ∧ openedChan.state ≠ .wrclosed) ∨
      (1 > openedChan.recvbuf.avail ∨ 1 > openedChan.recvmss)) := by decide +kernel
  have hdata : receive openedChan (.data 0 1) = (openedChan, .data 0 1) := receive_data hroom
  obtain ⟨e₆, h₆, hc₆, hr₆⟩ := exists_received (.data 0 1) openedChan (.data 0 1) h₅ hr₅ rfl rfl
    (hc₅ ▸ hdata) fun e' hother hc => hok _ _ hother (hc ▸ hne (.inl rfl))
  have hself : ∀ {e : Endpoint} {c : Chan}, (e.set 0 c).chans 0 = c := set_chans_self
  have hfill := Endpoint.Step.fill hr₆ (show 1 ≤ ([120] : List Byte).length from Nat.le_refl 1)
  have h₇ := h₆.step hfill
    (hok _ _ (fun _ => set_chans_of_ne) (by rw [hself, hc₆]; exact hne (.inl rfl)))
  have h₈ := h₇.quiet (.filled rfl) (fun _ => rfl)
    (hok _ _ (fun _ => set_chans_of_ne) (by rw [hself, hself, hc₆]; exact hne (.inl rfl)))
  refine ⟨_, _, _, h₈, ?_, rfl, ?_, rfl⟩
  · rw [hself, hself, hc₆]
    rfl
  · have harr : arrived 0 [120] e₆.receiver (.filled 0 1) = [120] := by
      rw [hr₆]
      rfl
    exact harr

/-- A byte in the buffer when `CLOSE` comes is not returned. -/
theorem not_drained :
    ∃ e ins outs, Endpoint.Fed (fun _ _ => True) ins outs e ∧ ¬Drained ins outs e := by
  obtain ⟨e, ins, outs, h, hc, hr, hins, houts⟩ :=
    exists_lastByte (fun _ _ => True) fun _ _ _ _ => trivial
  obtain ⟨e', h', hc', -⟩ := exists_received (.close 0)
    { openedChan with state := .rdclosed, recvbuf := openedChan.recvbuf.put [120] } .idle h hr rfl rfl
    (by rw [hc]; rfl) fun _ _ _ => trivial
  refine ⟨e', ins, outs, h', fun hd => ?_⟩
  have := hd 0 1 (by decide) (by rw [hc']; rfl)
  rw [hins, houts] at this
  cases this

/-- A byte that is read before `CLOSE` comes. -/
theorem eof_drained_read :
    ∃ e ins outs, Endpoint.Fed CloseDrained ins outs e ∧ chanReadLoop (e.chans 0) 1 = .eof ∧
      outs 0 = [120] ∧ Drained ins outs e := by
  obtain ⟨e, ins, outs, h, hc, hr, hins, houts⟩ := exists_lastByte CloseDrained
    fun e e' hother hopen id hne hclosed => by
      by_cases hid : id = 0
      · exact absurd (hid ▸ hclosed) hopen
      · exact absurd (hother id hid ▸ hclosed) hne
  have hread : chanRead { openedChan with recvbuf := openedChan.recvbuf.put [120] } 1 =
      some ({ openedChan with
        recvbuf := (openedChan.recvbuf.put [120]).drop 1
        recvseq := wrap 1
        flags := { openedChan.flags with window := true } }, [120]) := rfl
  have hother : ∀ c : Chan, c.state = .established → CloseDrained e (e.set 0 c) := by
    intro c hs id hne hclosed
    by_cases hid : id = 0
    · rw [hid, set_chans_self, hs] at hclosed
      simp [CS.ReadClosed] at hclosed
    · rw [set_chans_of_ne hid] at hclosed
      exact absurd hclosed hne
  have h₁ := h.quiet (.read 0 1 (hc ▸ hread)) (fun _ => arrived_self []) (hother _ rfl)
  obtain ⟨e', h', hc', -⟩ := exists_received (.close 0) _ .idle h₁ hr rfl rfl
    (by rw [set_chans_self]; rfl) fun e' hother hc id hne hclosed => by
      by_cases hid : id = 0
      · rw [hid, set_chans_self]
        rfl
      · exact absurd (hother id hid ▸ hclosed) hne
  have houts' : outs 0 ++ Event.readOn 0 (.read 0 [120]) = [120] := by
    rw [houts]
    rfl
  exact ⟨e', _, _, h', by rw [hc']; rfl, houts', eof_drained h'⟩

end Examples

end Csup.Mux
