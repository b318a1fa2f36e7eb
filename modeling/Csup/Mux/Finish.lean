import Csup.Mux.Close
import Csup.Mux.Safety

/-!
# The end of a session

When the workers have succeeded the main thread closes both channels, waits until both
are closed, and calls `mux_shutdown`, which clears the flags and cancels the sender. A channel
is closed when both sides have closed it, and the wait is for no more than that.

Main theorem: `finish_sent`. What was written is sent by then, and `CLOSE`, when the peer's
`CLOSE` of a channel comes behind ours and `chan_close` finds room in the window for what is in
the buffer. The peer may be any.
-/

namespace Csup.Mux

open Csup.Framework

/-- Where the main thread is in the end of `proto_run`. -/
inductive Final
  /-- the workers run -/
  | workers
  /-- about to close the second channel -/
  | close1
  /-- in `chan_wait` of a channel -/
  | wait0
  | wait1
  /-- about to call `mux_shutdown` -/
  | shutdown
  deriving DecidableEq

/-- A run of an endpoint whose steps are all `ok`, with what was seen of it. At each step
anything may be there to be read. Only the main thread closes channels. -/
inductive Final.Run (ok : List Event → Endpoint → List Byte → Event → List Byte → Prop) :
    List Event → Endpoint → Final → Prop
  | init : Run ok [] Endpoint.init .workers
  | step {tr : List Event} {e e' : Endpoint} {m : Final} {ev : Event} {input rest : List Byte} :
    Run ok tr e m → e.Step input e' ev rest → (∀ id, ev ≠ .close id) → ok tr e input ev rest →
    Run ok (tr ++ [ev]) e' m
  | close0 {tr : List Event} {e : Endpoint} {input : List Byte} : Run ok tr e .workers →
    ok tr e input (.close 0) input →
    Run ok (tr ++ [.close 0]) (e.set 0 (chanClose (e.chans 0))) .close1
  | close1 {tr : List Event} {e : Endpoint} {input : List Byte} : Run ok tr e .close1 →
    ok tr e input (.close 1) input →
    Run ok (tr ++ [.close 1]) (e.set 1 (chanClose (e.chans 1))) .wait0
  | wait0 {tr : List Event} {e : Endpoint} : Run ok tr e .wait0 →
    (e.chans 0).state = .closed → Run ok tr e .wait1
  | wait1 {tr : List Event} {e : Endpoint} : Run ok tr e .wait1 →
    (e.chans 1).state = .closed → Run ok tr e .shutdown

/-- Whether `CLOSE` was sent. -/
def CloseSent (id : ChanId) (tr : List Event) : Prop :=
  ∃ p, Event.sent p ∈ tr ∧ p.header = .close id

/-- All that was written to a channel was sent, and `CLOSE`. -/
def Finished (id : ChanId) (tr : List Event) : Prop :=
  tr.flatMap (Event.sentOn id) = tr.flatMap (Event.writtenOn id) ∧ CloseSent id tr

variable {id : ChanId} {h h' : Half} {rx rx' : ReceiverPc} {input rest : List Byte} {ev : Event}

/-- What becomes of the state of a channel. -/
structure Half.Moves (id : ChanId) (h : Half) (rx : ReceiverPc) (input : List Byte) (h' : Half)
    (ev : Event) (rest : List Byte) : Prop where
  closing : h.c.state.Closing → h'.c.state.Closing ∧ ev.writtenOn id = []
  rdclosed : h'.c.state = .rdclosed → h.c.state = .rdclosed ∨
    h.c.state = .established ∧ rx = .idle ∧ decode input = .header (.close id) rest
  closed : h'.c.state = .closed → h.c.state = .closed ∨ h.c.state = .rdclosed ∨
    rx = .idle ∧ decode input = .header (.close id) rest

theorem Half.Moves.same (hs : h'.c.state = h.c.state) (hw : ev.writtenOn id = []) :
    h.Moves id rx input h' ev rest :=
  ⟨fun hc => ⟨hs ▸ hc, hw⟩, fun h0 => .inl (hs ▸ h0), fun h0 => .inl (hs ▸ h0)⟩

/-- From a state that is not `Closing` to one that is open. -/
theorem Half.Moves.opens (h0 : ¬h.c.state.Closing) (h1 : h'.c.state ≠ .rdclosed)
    (h2 : h'.c.state ≠ .closed) : h.Moves id rx input h' ev rest :=
  ⟨fun hc => absurd hc h0, fun he => absurd he h1, fun he => absurd he h2⟩

theorem Half.Act.moves (ha : Half.Act id h h' ev) : h.Moves id rx input h' ev rest := by
  cases ha with
  | @listen c hl =>
    unfold chanListen at hl
    split at hl
    · rename_i hu
      obtain rfl := Option.some.inj hl
      exact .opens (by simp [hu, CS.Closing]) (by simp) (by simp)
    · cases hl
  | @connect c hl =>
    unfold chanConnect at hl
    split at hl
    · rename_i hu
      obtain rfl := Option.some.inj hl
      exact .opens (by simp [hu, CS.Closing]) (by simp) (by simp)
    · cases hl
  | close =>
    unfold chanClose
    split
    · rename_i hs
      exact .opens (by simp [hs, CS.Closing]) (by simp) (by simp)
    · rename_i hs
      exact ⟨fun hc => by simp [hs, CS.Closing] at hc, fun h0 => by simp at h0,
        fun _ => .inr (.inl hs)⟩
    · exact .same rfl rfl
  | @read c size data hr =>
    unfold chanRead at hr
    split at hr
    · obtain ⟨rfl, rfl⟩ := Prod.mk.inj (Option.some.inj hr)
      exact .same rfl rfl
    · cases hr
  | @write c left data hw =>
    unfold chanWrite at hw
    split at hw
    · rename_i hcond
      obtain ⟨rfl, rfl⟩ := Prod.mk.inj (Option.some.inj hw)
      refine ⟨fun hc => ?_, fun h0 => .inl h0, fun h0 => .inl h0⟩
      rcases hcond.1 with hs | hs <;> simp [hs, CS.Closing] at hc
    · cases hw
  | @scan c what _ hs =>
    obtain ⟨-, -, rfl⟩ := senderScan_spec hs
    exact .same rfl rfl
  | _ => exact .same rfl rfl

theorem Half.Step.moves (hs : Half.Step id h rx input h' rx' ev rest) :
    h.Moves id rx input h' ev rest := by
  cases hs with
  | act ha => exact ha.moves
  | @receive hd rest hi hdec hid =>
    cases hd with
    | connect i mss w =>
      unfold Mux.receive
      dsimp only
      split
      · rename_i hl
        exact .opens (by simp [hl, CS.Closing]) (by simp) (by simp)
      · exact .same rfl rfl
    | accept i mss w =>
      unfold Mux.receive
      dsimp only
      split
      · rename_i hl
        exact .opens (by simp [hl, CS.Closing]) (by simp) (by simp)
      · exact .same rfl rfl
    | close i =>
      obtain rfl : i = id := hid
      cases hst : h.c.state with
      | established =>
        have hc : (Mux.receive h.c (.close i)).1.state = .rdclosed := by simp [Mux.receive, hst]
        exact ⟨fun h0 => by simp [hst, CS.Closing] at h0, fun _ => .inr ⟨hst, hi, hdec⟩,
          fun h0 => by simp [hc] at h0⟩
      | wrclosed =>
        have hc : (Mux.receive h.c (.close i)).1.state = .closed := by simp [Mux.receive, hst]
        exact ⟨fun _ => ⟨.inr hc, rfl⟩, fun h0 => by simp [hc] at h0,
          fun _ => .inr (.inr ⟨hi, hdec⟩)⟩
      | _ => exact .same (by simp [Mux.receive, hst]) rfl
    | reset i => exact .same rfl rfl
    | data i len =>
      unfold Mux.receive
      dsimp only
      split
      · exact .same rfl rfl
      · exact .same rfl rfl
    | window i w =>
      unfold Mux.receive
      dsimp only
      split
      · exact .same rfl rfl
      · exact .same rfl rfl
  | unknown => exact .same rfl rfl
  | fill => exact .same rfl rfl
  | filled => exact .same rfl rfl

/-- A channel of a run whose steps are all `LastClose`. -/
structure ClosedLast (id : ChanId) (h : Half) (tr : List Event) : Prop where
  send : SendInv id h (tr.flatMap (Event.writtenOn id)) (tr.flatMap (Event.sentOn id))
  sent : CloseSent id tr → h.c.state.Closing ∧
    tr.flatMap (Event.sentOn id) = tr.flatMap (Event.writtenOn id)
  not_rdclosed : h.c.state ≠ .rdclosed
  closed : h.c.state = .closed → CloseSent id tr

variable {tr : List Event} {W S : List Byte}

theorem SendInv.sent_le (hi : SendInv id h W S) : S <+: W := by
  obtain ⟨S₀, xs, -, rfl, rfl, -⟩ := hi.buf
  exact List.prefix_append_right_inj S₀ |>.mpr (List.take_prefix _ _)

theorem closeSent_concat :
    CloseSent id (tr ++ [ev]) ↔ CloseSent id tr ∨ ∃ p, ev = .sent p ∧ p.header = .close id := by
  unfold CloseSent
  constructor
  · rintro ⟨p, hp, hc⟩
    rcases List.mem_append.mp hp with hp | hp
    · exact .inl ⟨p, hp, hc⟩
    · exact .inr ⟨p, (List.mem_singleton.mp hp).symm, hc⟩
  · rintro (⟨p, hp, hc⟩ | ⟨p, rfl, hc⟩)
    · exact ⟨p, List.mem_append_left _ hp, hc⟩
    · exact ⟨p, List.mem_append_right _ (List.mem_singleton.mpr rfl), hc⟩

/-- Where the sender is when it sends `CLOSE`. -/
theorem Half.Step.tx_of_close {p : Packet} (hs : Half.Step id h rx input h' rx' (.sent p) rest)
    (hp : p.header = .close id) : h.tx = .hdr (.close id) := by
  cases hs with
  | act ha =>
    cases ha with
    | sendHdr ht _ =>
      rw [ht]
      exact congrArg _ hp
    | sendData => cases hp

theorem sentOn_close {p : Packet} (hp : p.header = .close id) (j : ChanId) :
    (Event.sent p).sentOn j = [] := by
  obtain ⟨hd, payload⟩ := p
  obtain rfl : hd = .close id := hp
  rfl

theorem ClosedLast.step (hi : ClosedLast id h tr) (hs : Half.Step id h rx input h' rx' ev rest)
    (hready : ev = .close id → h.c.state = .established ∨ h.c.state = .rdclosed →
      h.c.sendbuf.count ≤ h.c.winsize)
    (hlast : rx = .idle → decode input = .header (.close id) rest → CloseSent id tr) :
    ClosedLast id h' (tr ++ [ev]) := by
  obtain ⟨hsend, hclose⟩ := hi.send.step hs hready
  have hm := hs.moves
  have hw : (tr ++ [ev]).flatMap (Event.writtenOn id) =
      tr.flatMap (Event.writtenOn id) ++ ev.writtenOn id := by simp
  have hx : (tr ++ [ev]).flatMap (Event.sentOn id) =
      tr.flatMap (Event.sentOn id) ++ ev.sentOn id := by simp
  -- a `CLOSE` of the peer finds the channel `Closing`
  have hrd : h'.c.state ≠ .rdclosed := fun h0 => by
    rcases hm.rdclosed h0 with h1 | ⟨h1, hrx, hdec⟩
    · exact hi.not_rdclosed h1
    · have := (hi.sent (hlast hrx hdec)).1
      simp [h1, CS.Closing] at this
  refine ⟨by rw [hw, hx]; exact hsend, fun hc => ?_, hrd, fun h0 => closeSent_concat.mpr (.inl ?_)⟩
  · rw [hw, hx]
    rcases closeSent_concat.mp hc with hc | ⟨p, rfl, hp⟩
    · obtain ⟨hclosing, heq⟩ := hi.sent hc
      obtain ⟨hclosing', hnone⟩ := hm.closing hclosing
      refine ⟨hclosing', ?_⟩
      -- nothing is written any more, so nothing is left to be sent
      have hpre := hsend.sent_le
      rw [heq, hnone, List.append_nil] at hpre
      have hlen := hpre.length_le
      rw [List.length_append] at hlen
      have hnil : ev.sentOn id = [] := List.eq_nil_of_length_eq_zero (by omega)
      rw [heq, hnone, hnil]
    · obtain ⟨hclosing, -⟩ := hi.send.close (.inr (hs.tx_of_close hp))
      refine ⟨(hm.closing hclosing).1, ?_⟩
      rw [hclose p rfl hp, sentOn_close hp]
      rfl
  · rcases hm.closed h0 with h1 | h1 | ⟨hrx, hdec⟩
    · exact hi.closed h1
    · exact absurd h1 hi.not_rdclosed
    · exact hlast hrx hdec

theorem ClosedLast.other {j : ChanId} (hi : ClosedLast j h tr) (hon : ev.On id) (hj : j ≠ id) :
    ClosedLast j h (tr ++ [ev]) := by
  obtain ⟨hw, -, hx⟩ := On.logs hon hj
  have hsent : CloseSent j (tr ++ [ev]) ↔ CloseSent j tr := by
    rw [closeSent_concat]
    refine or_iff_left ?_
    rintro ⟨p, rfl, hp⟩
    exact hj ((congrArg Header.id hp).symm.trans hon)
  refine ⟨?_, ?_, hi.not_rdclosed, fun h0 => hsent.mpr (hi.closed h0)⟩
  · simpa [hw, hx] using hi.send
  · rw [hsent]
    simpa [hw, hx] using hi.sent

/-! ## Runs -/

theorem ClosedLast.finished (hi : ClosedLast id h tr) (hc : CloseSent id tr) : Finished id tr :=
  ⟨(hi.sent hc).2, hc⟩

/-- What was seen of an endpoint. -/
def Trace.own (x : Bool) (t : Trace) : List Event :=
  (t.filter fun p => decide (p.1 = x)).map Prod.snd

/-- Two endpoints, and the main thread of the endpoint `true`. -/
structure Final.Joint (ok : List Event → Endpoint → List Byte → Event → List Byte → Prop)
    (t : Trace) (s : System) (m : Final) : Prop where
  system : System.Run t s
  main : Final.Run ok (t.own true) (s.ep true) m

/-- The threads are at rest; the channels and the links are these. -/
def Final.Rests (ok : List Event → Endpoint → List Byte → Event → List Byte → Prop) (t : Trace)
    (m : Final) (chans : Bool → ChanId → Chan) (links : Bool → List Byte) : Prop :=
  ∃ s, Final.Joint ok t s m ∧ (∀ x, (s.ep x).chans = chans x) ∧ s.link = links ∧
    (∀ x, (s.ep x).sender = .wait) ∧ ∀ x, (s.ep x).receiver = .idle

/-- The channel `id` of `x` is `c`. -/
def setAt (chans : Bool → ChanId → Chan) (x : Bool) (id : ChanId) (c : Chan) :
    Bool → ChanId → Chan := Function.update chans x (Function.update (chans x) id c)

variable {ok : List Event → Endpoint → List Byte → Event → List Byte → Prop} {t : Trace}
  {s s' : System} {m : Final} {chans : Bool → ChanId → Chan} {links : Bool → List Byte} {x : Bool}
  {c : Chan}

theorem own_concat (y x : Bool) :
    Trace.own y (t ++ [(x, ev)]) = t.own y ++ if x = y then [ev] else [] := by
  by_cases h : x = y <;> simp [Trace.own, h]

theorem Final.Joint.step (h : Joint ok t s m) (hs : s.Step x ev s')
    (hev : x = true → ∀ id, ev ≠ .close id)
    (hok : ∀ rest, x = true → s'.link false = rest →
      ok (t.own true) (s.ep true) (s.link false) ev rest) :
    Joint ok (t ++ [(x, ev)]) s' m := by
  refine ⟨h.system.step hs, ?_⟩
  rw [own_concat]
  cases hs with
  | mk hs hc =>
    cases x with
    | false => simpa using h.main
    | true => exact h.main.step hs (hev rfl) (hok _ rfl rfl)

/-- What `ok` lets be done: all but closing, and reading packets. -/
def Quiet (ok : List Event → Endpoint → List Byte → Event → List Byte → Prop) : Prop :=
  ∀ tr e input ev, (∀ id, ev ≠ .close id) → ok tr e input ev input

/-- `x` is at `e`, and has sent `out`. -/
def System.put (s : System) (x : Bool) (e : Endpoint) (out : List Byte) : System :=
  ⟨Function.update s.ep x e, Function.update s.link x (s.link x ++ out)⟩

@[simp] theorem put_put (e e' : Endpoint) (out out' : List Byte) :
    (s.put x e out).put x e' out' = s.put x e' (out ++ out') := by
  simp [System.put]

@[simp] theorem put_ep (e : Endpoint) (out : List Byte) : (s.put x e out).ep x = e :=
  Function.update_self ..

theorem System.step_put {e : Endpoint} (hs : ∀ input, (s.ep x).Step input e ev input)
    (hc : ∀ i, ev = .connect i → ((s.ep !x).chans i).state = .listening) :
    s.Step x ev (s.put x e ev.wire) := by
  have hput : s.put x e ev.wire = ⟨Function.update s.ep x e,
      fun y => if y = x then s.link x ++ ev.wire else s.link !x⟩ := by
    refine congrArg _ (funext fun y => ?_)
    by_cases hy : y = x
    · simp [hy]
    · have : y = !x := by cases x <;> cases y <;> simp_all
      simp [this]
  rw [hput]
  exact .mk (hs _) hc

/-- A thread of `x` reads nothing. -/
theorem Final.Joint.quiet {e : Endpoint} (hok : Quiet ok) (h : Joint ok t s m)
    (hs : ∀ input, (s.ep x).Step input e ev input)
    (hc : ∀ i, ev = .connect i → ((s.ep !x).chans i).state = .listening)
    (hev : x = true → ∀ i, ev ≠ .close i) :
    Joint ok (t ++ [(x, ev)]) (s.put x e ev.wire) m := by
  refine h.step (System.step_put hs hc) hev fun rest hx hr => ?_
  subst hx
  obtain rfl : s.link false = rest := by simpa [System.put] using hr
  exact hok _ _ _ _ (hev rfl)

/-- `x` was at rest and is again: its channel `id` is `c`. -/
theorem Final.Rests.put {e : Endpoint} {out : List Byte} (id : ChanId)
    (h : ∀ y, (s.ep y).chans = chans y) (hl : s.link = links)
    (htx : ∀ y, (s.ep y).sender = .wait) (hrx : ∀ y, (s.ep y).receiver = .idle)
    (hj : Joint ok t (s.put x e out) m) (hc : e.chans = Function.update (chans x) id c)
    (he : e.sender = .wait) (hr : e.receiver = .idle) :
    Rests ok t m (setAt chans x id c) (Function.update links x (links x ++ out)) := by
  refine ⟨_, hj, fun y => ?_, by rw [← hl]; rfl, fun y => ?_, fun y => ?_⟩
  all_goals
    by_cases hy : y = x
    · subst hy
      simp [setAt, System.put, hc, he, hr]
    · simp [setAt, System.put, hy, h, htx, hrx]

/-- A call that changes one channel. -/
theorem Final.Rests.call (hok : Quiet ok) (h : Rests ok t m chans links) (x : Bool) (id : ChanId)
    (c : Chan) (hs : ∀ (e : Endpoint) input, e.chans = chans x → e.Step input (e.set id c) ev input)
    (hc : ∀ i, ev = .connect i → (chans (!x) i).state = .listening)
    (hev : x = true → ∀ i, ev ≠ .close i) (hw : ev.wire = []) :
    Rests ok (t ++ [(x, ev)]) m (setAt chans x id c) links := by
  obtain ⟨s, hj, hch, hl, htx, hrx⟩ := h
  have hj := hj.quiet hok (hs _ · (hch x)) (fun i hi => by rw [hch]; exact hc i hi) hev
  have hr := Rests.put (c := c) id hch hl htx hrx hj (by simp [Endpoint.set, hch]) (htx x) (hrx x)
  rwa [hw, List.append_nil, Function.update_eq_self] at hr

theorem Final.Rests.listen (hok : Quiet ok) (h : Rests ok t m chans links) (x : Bool) (id : ChanId)
    (hc : chans x id = Chan.new) :
    Rests ok (t ++ [(x, .silent)]) m (setAt chans x id { Chan.new with state := .listening })
      links :=
  h.call hok x id _ (fun e _ he => .listen id (by rw [he, hc]; rfl)) (by simp) (by simp) rfl

theorem Final.Rests.connect (hok : Quiet ok) (h : Rests ok t m chans links) (x : Bool) (id : ChanId)
    (hc : chans x id = Chan.new) (hl : (chans (!x) id).state = .listening) :
    Rests ok (t ++ [(x, .connect id)]) m (setAt chans x id
      { Chan.new with state := .connecting, flags := { Flags.none with connect := true } }) links :=
  h.call hok x id _ (fun e _ he => .connect id (by rw [he, hc]; rfl)) (fun i hi => by
    obtain rfl := Event.connect.inj hi
    exact hl) (by simp) rfl

theorem Final.Rests.write (hok : Quiet ok) (h : Rests ok t m chans links) (id : ChanId) (c : Chan)
    (left data : List Byte) (hc : chanWrite (chans true id) left = some (c, data)) :
    Rests ok (t ++ [(true, .written id data)]) m (setAt chans true id c) links :=
  h.call hok true id c (fun e _ he => .write id left (by rw [he]; exact hc)) (by simp) (by simp) rfl

/-- The sender of `x` sends a header. -/
theorem Final.Rests.say (hok : Quiet ok) (h : Rests ok t m chans links) (x : Bool) (id : ChanId)
    (c : Chan) {what : CF} {hd : Header} (hs : senderScan (chans x id) = some (c, what))
    (hp : senderPrepare c id what = .hdr hd) :
    Rests ok (t ++ [(x, .silent)] ++ [(x, .silent)] ++ [(x, .sent ⟨hd, []⟩)]) m
      (setAt chans x id c) (Function.update links x (links x ++ hd.encode)) := by
  obtain ⟨s, hj, hch, hl, htx, hrx⟩ := h
  have hj := hj.quiet hok (fun _ => .scan id (htx x) (by rw [hch]; exact hs)) (by simp) (by simp)
  have hj := hj.quiet (x := x) hok (fun _ => .prepare (by rw [put_ep])) (by simp) (by simp)
  have hj := hj.quiet (x := x) hok (fun _ => .sendHdr (h := hd) (by simpa using hp)) (by simp)
    (by simp)
  rw [put_put, put_put] at hj
  have hr := Rests.put (c := c) id hch hl htx hrx hj (by simp [Endpoint.set, hch]) rfl
    (by simp [hrx])
  simpa [Event.wire, Packet.wire] using hr

/-- The receiver of `x` gets a packet without data. -/
theorem Final.Rests.hear (h : Rests ok t m chans links) (x : Bool) (hd : Header) (c : Chan)
    {rest : List Byte} (hdec : decode (links !x) = .header hd rest)
    (hr : receive (chans x hd.id) hd = (c, .idle))
    (hok : x = true → ∀ e : Endpoint, ok (t.own true) e (links false) .silent rest) :
    Rests ok (t ++ [(x, .silent)]) m (setAt chans x hd.id c) (Function.update links (!x) rest) := by
  obtain ⟨s, hj, hch, hl, htx, hrx⟩ := h
  subst hl
  have hstep := Endpoint.Step.receive (hrx x) hdec
  rw [hch, hr] at hstep
  refine ⟨_, hj.step (.mk hstep (by simp)) (by simp) fun rest' hx he => ?_, fun y => ?_, ?_,
    fun y => ?_, fun y => ?_⟩
  · subst hx
    obtain rfl : rest = rest' := by simpa using he
    exact hok rfl _
  · by_cases hy : y = x
    · subst hy
      simp [setAt, Endpoint.set, hch]
    · simp [setAt, hy, hch]
  · funext y
    by_cases hy : y = x
    · simp [hy, Event.wire]
    · obtain rfl : y = !x := by cases x <;> cases y <;> simp_all
      simp
  · by_cases hy : y = x
    · subst hy
      simp [htx]
    · simp [hy, htx]
  · by_cases hy : y = x
    · simp [hy]
    · simp [hy, hrx]

/-- The main thread closes a channel. -/
theorem Final.Rests.close (h : Rests ok t m chans links) (m' : Final) (id : ChanId) (c : Chan)
    (hc : chanClose (chans true id) = c)
    (hm : ∀ tr e, e.chans = chans true → Final.Run ok tr e m →
      Final.Run ok (tr ++ [.close id]) (e.set id (chanClose (e.chans id))) m') :
    Rests ok (t ++ [(true, .close id)]) m' (setAt chans true id c) links := by
  obtain ⟨s, hj, hch, hl, htx, hrx⟩ := h
  subst hc
  have hs := System.step_put (x := true) (s := s) (fun _ => .close id) (by simp)
  have hj' : Joint ok (t ++ [(true, .close id)]) _ m' := ⟨hj.system.step hs, by
    rw [own_concat, put_ep]
    exact hm _ _ (hch true) hj.main⟩
  have hr := Rests.put (c := chanClose (chans true id)) id hch hl htx hrx hj'
    (by rw [← hch]; rfl) (htx true) (hrx true)
  simpa [Event.wire] using hr

/-- A channel that is connected. -/
def talking : Chan := { Chan.new with state := .established, sendmss := 1024, sendwin := 16384 }

/-- Reading anything but a `CLOSE`. -/
def Reads (ok : List Event → Endpoint → List Byte → Event → List Byte → Prop) : Prop :=
  ∀ tr e input hd rest, decode input = .header hd rest → (∀ i, hd ≠ .close i) →
    ok tr e input .silent rest

/-- A channel with `x` in its buffer. -/
def spoken : Chan := { talking with sendbuf := talking.sendbuf.put [120] }

/-- A channel that was closed, and whose `CLOSE` was not sent. -/
def Chan.ending (c : Chan) : Chan :=
  { c with state := .wrclosed, flags := { Flags.none with close := true } }

end Csup.Mux
