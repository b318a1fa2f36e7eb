import Csup.Mux.Carry

/-!
# Two endpoints

`Conn` is what holds of a channel between two endpoints, `Link` of what is there
to be read, and `Joined` of the endpoints. In a run of the two
(`System.Run`), no receiver leaves its loop, and what `chan_read` returned on a
channel is a part, from the beginning, of what `chan_write` put into the send
buffer at the other end: `mux_safe`.
-/

namespace Csup.Mux

open Csup.Framework

/-- A channel between two endpoints, `f` under way from the first to the second. -/
structure Conn (F G : Stream) (X Y : Half) (f b : List Packet) (hX hY : List (List Byte)) : Prop where
  tidy : Tidy X
  tidy' : Tidy Y
  talks : Talks X Y ((f ++ X.out).map (·.header.kind)) ((b ++ Y.out).map (·.header.kind))
  out : Carries F X Y f b hY
  back : Carries G Y X b f hX

variable {F G : Stream} {X X' Y : Half} {f b : List Packet} {hX hY : List (List Byte)} {id : ChanId}

theorem Conn.symm (h : Conn F G X Y f b hX hY) : Conn G F Y X b f hY hX :=
  ⟨h.tidy', h.tidy, ⟨h.talks.back, h.talks.out⟩, h.back, h.out⟩

/-! ## Steps of one channel -/

theorem Conn.act {ev : Event} (h : Conn F G X Y f b hX hY) (ha : Half.Act id X X' ev)
    (hl : ∀ i, ev = .connect i → Y.c.state = .listening) :
    ∃ F' G', Conn F' G' X' Y (f ++ ev.packets) b hX hY ∧ Spoken id F F' ev ∧ Heard id G G' ev ∧
      ∀ n, X'.c.recvbuf.ahead n = X.c.recvbuf.ahead n := by
  obtain ⟨ht, hturn⟩ := h.tidy.act (h.out.sends.dataFirst h.tidy) ha
  obtain ⟨F', hF, hs⟩ := h.out.speak h.tidy h.back.takes.mss ha
  obtain ⟨G', hG, hh, hahead⟩ := h.back.listen ha
  exact ⟨F', G', ⟨ht, h.tidy', h.talks.act hturn hl, hF, hG⟩, hs, hh, hahead⟩

/-- The receiver goes on with a packet that arrives. -/
theorem Conn.receiver {p : Packet} (h : Conn F G X Y f (p :: b) [] hY) :
    (receive X.c p.header).2 = .idle ∧ segments [p] = [] ∧ p.payload = [] ∨
      (receive X.c p.header).2 = .data p.header.id p.payload.length ∧ segments [p] = [p.payload] := by
  obtain ⟨e, hear, -⟩ := h.talks.back.hear
  have he : X.c.state.ear.hear p.header.kind = some e := hear
  have hgood := h.back.good p (by simp)
  have hlen := hgood.payload
  cases hhd : p.header with
  | data i len =>
    rw [hhd] at he hlen
    have hs : X.c.state = .established ∨ X.c.state = .wrclosed := by
      revert he
      cases X.c.state <;> simp [CS.ear, Ear.hear, Header.kind]
    have hseg : segments [p] = [p.payload] := by simp [segments, hhd]
    have hroom : (G.received.drop G.read).length + p.payload.length ≤ X.c.recvbuf.size := by
      have hflight : G.flight = p.payload :: segments (b ++ Y.out) := by
        rw [h.back.flight, List.cons_append]
        simp [segments, hhd]
      rw [h.back.takes.size]
      exact G.length_le_of_flight hflight
    have havail := h.back.takes.buf.avail_eq
    have hle := hgood.length_le
    rw [← h.back.takes.mss] at hle
    refine .inr ⟨?_, hseg⟩
    unfold receive
    rw [← show p.payload.length = len from hlen]
    refine congrArg Prod.snd (if_neg ?_)
    rintro (⟨h1, h2⟩ | h1 | h1)
    · exact hs.elim h1 h2
    · omega
    · omega
  | connect i mss w =>
    rw [hhd] at hlen
    refine .inl ⟨?_, by simp [segments, hhd], List.length_eq_zero_iff.mp hlen⟩
    simp only [receive]
    split <;> rfl
  | accept i mss w =>
    rw [hhd] at hlen
    refine .inl ⟨?_, by simp [segments, hhd], List.length_eq_zero_iff.mp hlen⟩
    simp only [receive]
    split <;> rfl
  | reset i =>
    rw [hhd] at he
    simp [Ear.hear, Header.kind] at he
  | window i w =>
    rw [hhd] at hlen
    refine .inl ⟨?_, by simp [segments, hhd], List.length_eq_zero_iff.mp hlen⟩
    simp only [receive]
    split <;> rfl
  | close i =>
    rw [hhd] at he hlen
    refine .inl ⟨?_, by simp [segments, hhd], List.length_eq_zero_iff.mp hlen⟩
    revert he
    unfold receive
    cases X.c.state <;> simp [CS.ear, Ear.hear, Header.kind]

theorem Conn.receive {p : Packet} (h : Conn F G X Y f (p :: b) [] hY) (hp : p.Good) :
    ∃ F', Conn F' G { X with c := (receive X.c p.header).1 } Y f b (segments [p]) hY ∧
      F'.written = F.written ∧ F'.received = F.received ∧ F'.read = F.read := by
  obtain ⟨F', hF, heq⟩ := h.out.hear hp
  obtain ⟨ht, htalks⟩ := h.talks.receive h.tidy
  have hout : (Half.out { X with c := (Mux.receive X.c p.header).1 }).map (·.header.kind) =
      X.out.map (·.header.kind) := by
    unfold Half.out
    cases X.tx <;> rfl
  refine ⟨F', ⟨ht, h.tidy', ⟨?_, htalks.back⟩, hF, h.back.arrive⟩, heq⟩
  rw [List.map_append, hout, ← List.map_append]
  exact htalks.out

/-- Steps of the receiver thread between two packets. -/
theorem Conn.recvbuf {r : Buf} {hX' : List (List Byte)} {G' : Stream} (h : Conn F G X Y f b hX hY)
    (hG : Carries G' Y { X with c := { X.c with recvbuf := r } } b f hX') :
    Conn F G' { X with c := { X.c with recvbuf := r } } Y f b hX' hY := by
  have ht : Tidy { X with c := { X.c with recvbuf := r } } :=
    h.tidy.of_tx rfl rfl (fun _ h0 => h0) fun h0 => h0
  have hs : Sends { X with c := { X.c with recvbuf := r } } F :=
    h.out.sends.same rfl rfl rfl rfl Iff.rfl rfl fun hc hf => ⟨hc, hf⟩
  exact ⟨ht, h.tidy', ⟨h.talks.out, h.talks.back⟩, h.out.keep hs rfl rfl rfl rfl h.out.wins, hG⟩

/-! ## What is there to be read -/

/-- How much of the packet whose header was read is still to be read. -/
def ReceiverPc.missing : ReceiverPc → Nat
  | data _ len => len
  | _ => 0

/-- The rest of a packet whose header was read, and packets. -/
structure Link (input : List Byte) (rx : ReceiverPc) (ps : List Packet) (pre : List Byte) : Prop where
  input_eq : input = pre ++ ps.flatMap Packet.wire
  ok : ∀ p ∈ ps, p.Ok
  length_eq : pre.length = rx.missing

variable {input rest pre pre' : List Byte} {rx : ReceiverPc} {ps : List Packet}

theorem Link.append {ev : Event} (h : Link input rx ps pre) (hok : ∀ p ∈ ev.packets, p.Ok) :
    Link (input ++ ev.wire) rx (ps ++ ev.packets) pre := by
  have hw : ev.wire = ev.packets.flatMap Packet.wire := by
    cases ev <;> simp [Event.wire, Event.packets]
  refine ⟨?_, fun p hp => ?_, h.length_eq⟩
  · rw [h.input_eq, hw, List.flatMap_append, List.append_assoc]
  · rcases List.mem_append.mp hp with hp | hp
    · exact h.ok p hp
    · exact hok p hp

theorem Link.idle (h : Link input .idle ps pre) : pre = [] ∧ input = ps.flatMap Packet.wire := by
  have hnil : pre = [] := List.length_eq_zero_iff.mp h.length_eq
  exact ⟨hnil, by rw [h.input_eq, hnil]; rfl⟩

/-- What the receiver finds is a packet. -/
theorem Link.header {hd : Header} (h : Link input .idle ps pre) (hdec : decode input = .header hd rest) :
    ∃ p ps', ps = p :: ps' ∧ p.header = hd ∧ rest = p.payload ++ ps'.flatMap Packet.wire := by
  obtain ⟨-, heq⟩ := h.idle
  cases ps with
  | nil =>
    rw [heq] at hdec
    cases hdec
  | cons p ps =>
    rw [heq, List.flatMap_cons, decode_wire (h.ok p (by simp))] at hdec
    obtain ⟨hd, hrest⟩ := Decoded.header.inj hdec
    exact ⟨p, ps, rfl, hd, hrest.symm⟩

theorem Link.not_unknown (h : Link input .idle ps pre) : decode input ≠ .unknown := by
  obtain ⟨-, heq⟩ := h.idle
  intro hdec
  cases ps with
  | nil =>
    rw [heq] at hdec
    cases hdec
  | cons p ps =>
    rw [heq, List.flatMap_cons, decode_wire (h.ok p (by simp))] at hdec
    cases hdec

/-! ## Endpoints -/

/-- The data of a packet that the receiver thread has for a channel, and the receive
buffer does not count. -/
def hand (id : ChanId) (r : Buf) (pre : List Byte) : ReceiverPc → List (List Byte)
  | .data i _ => if i = id then [pre] else []
  | .filled i len => if i = id then [r.ahead len] else []
  | _ => []

/-- The packets of a channel. -/
def ofChan (id : ChanId) (ps : List Packet) : List Packet :=
  ps.filter fun p => decide (p.header.id = id)

/-- `f` is under way from the first to the second; `W` and `R` were written and read
at the first, `W'` and `R'` at the second. -/
structure Joined (e e' : Endpoint) (f b : List Packet) (pre pre' : List Byte)
    (W R W' R' : ChanId → List Byte) : Prop where
  safe : e.receiver ≠ .badproto
  safe' : e'.receiver ≠ .badproto
  conn : ∀ id, ∃ F G, Conn F G (e.half id) (e'.half id) (ofChan id f) (ofChan id b)
    (hand id (e.half id).c.recvbuf pre e.receiver) (hand id (e'.half id).c.recvbuf pre' e'.receiver) ∧
    (F.written = W id ∧ F.received.take F.read = R' id) ∧
    G.written = W' id ∧ G.received.take G.read = R id

variable {e e₁ e' : Endpoint} {W R W' R' : ChanId → List Byte} {ev : Event}

theorem Joined.symm (h : Joined e e' f b pre pre' W R W' R') :
    Joined e' e b f pre' pre W' R' W R := by
  refine ⟨h.safe', h.safe, fun id => ?_⟩
  obtain ⟨F, G, hconn, hF, hG⟩ := h.conn id
  exact ⟨G, F, hconn.symm, hG, hF⟩

theorem ofChan_packets (h : ev.On id) (ps : List Packet) :
    ofChan id (ps ++ ev.packets) = ofChan id ps ++ ev.packets := by
  rw [ofChan, List.filter_append]
  congr 1
  unfold Event.On at h
  cases ev <;> simp_all [Event.packets]

theorem ofChan_packets_ne {j : ChanId} (h : ev.On id) (hj : j ≠ id) (ps : List Packet) :
    ofChan j (ps ++ ev.packets) = ofChan j ps := by
  rw [ofChan, List.filter_append]
  have : ev.packets.filter (fun p => decide (p.header.id = j)) = [] := by
    cases ev with
    | sent p => simp [Event.packets, show p.header.id ≠ j from fun h0 => hj (h0.symm.trans h)]
    | _ => rfl
  rw [this, List.append_nil]
  rfl

/-- A step of the channel `id`, and of no other. -/
theorem Joined.assemble {b₁ : List Packet} {pre₁ : List Byte} (h : Joined e e' f b pre pre' W R W' R')
    (hother : ∀ j, j ≠ id → e₁.half j = e.half j) (hon : ev.On id)
    (hsafe : e₁.receiver ≠ .badproto) (hb : ∀ j, j ≠ id → ofChan j b₁ = ofChan j b)
    (hhand : ∀ j r, j ≠ id → hand j r pre₁ e₁.receiver = hand j r pre e.receiver)
    (hconn : ∃ F G, Conn F G (e₁.half id) (e'.half id) (ofChan id f ++ ev.packets) (ofChan id b₁)
      (hand id (e₁.half id).c.recvbuf pre₁ e₁.receiver)
      (hand id (e'.half id).c.recvbuf pre' e'.receiver) ∧
      (F.written = W id ++ ev.writtenOn id ∧ F.received.take F.read = R' id) ∧
      G.written = W' id ∧ G.received.take G.read = R id ++ ev.readOn id) :
    Joined e₁ e' (f ++ ev.packets) b₁ pre₁ pre' (fun i => W i ++ ev.writtenOn i)
      (fun i => R i ++ ev.readOn i) W' R' := by
  refine ⟨hsafe, h.safe', fun j => ?_⟩
  by_cases hj : j = id
  · rw [hj, ofChan_packets hon]
    exact hconn
  · obtain ⟨F, G, hc, hF, hG⟩ := h.conn j
    obtain ⟨hw, hr, -⟩ := On.logs hon hj
    rw [hother j hj, ofChan_packets_ne hon hj, hb j hj, hhand j _ hj, hw, hr, List.append_nil,
      List.append_nil]
    exact ⟨F, G, hc, hF, hG⟩

/-- A step of the first endpoint. -/
theorem Joined.step (h : Joined e e' f b pre pre' W R W' R') (hl : Link input e.receiver b pre)
    (hs : e.Step input e₁ ev rest) (hc : ∀ id, ev = .connect id → (e'.chans id).state = .listening) :
    ∃ b₁ pre₁, Link rest e₁.receiver b₁ pre₁ ∧ (∀ p ∈ ev.packets, p.Ok) ∧
      Joined e₁ e' (f ++ ev.packets) b₁ pre₁ pre' (fun i => W i ++ ev.writtenOn i)
        (fun i => R i ++ ev.readOn i) W' R' := by
  obtain ⟨id, hother, hon, hstep⟩ := exists_half_step hs
  obtain ⟨F, G, hconn, ⟨hFw, hFr⟩, hGw, hGr⟩ := h.conn id
  have hsafe := h.safe
  generalize hX' : e₁.half id = X' at hstep
  generalize hrx' : e₁.receiver = rx' at hstep
  cases hstep with
  | act ha =>
    obtain ⟨F', G', hconn', hs', hh', hahead⟩ := hconn.act ha fun i hi => by
      obtain rfl : i = id := by rw [hi] at hon; exact hon
      exact hc i hi
    have hhand : hand id X'.c.recvbuf pre e.receiver = hand id (e.half id).c.recvbuf pre e.receiver := by
      cases e.receiver <;> simp [hand, hahead]
    refine ⟨b, pre, hrx' ▸ hl, fun p hp => (hconn'.out.good p (by simp [hp])).toOk,
      h.assemble hother hon (hrx' ▸ hsafe) (fun _ _ => rfl) (fun _ _ _ => by rw [hrx']) ?_⟩
    rw [hX', hrx', hhand]
    exact ⟨F', G', hconn', ⟨hs'.written.trans (by rw [hFw]), by rw [hs'.received, hs'.read, hFr]⟩,
      hh'.written.trans hGw, hh'.read.trans (by rw [hGr])⟩
  | @receive hd rest hi hdec hid =>
    obtain ⟨p, ps, rfl, rfl, rfl⟩ := (hi ▸ hl).header hdec
    have hof : ofChan id (p :: ps) = p :: ofChan id ps := List.filter_cons_of_pos (by simp [hid])
    have hof' : ∀ j, j ≠ id → ofChan j ps = ofChan j (p :: ps) := fun j hj =>
      (List.filter_cons_of_neg (by simpa [hid] using hj.symm)).symm
    have hnone : ∀ j r, hand j r pre e.receiver = [] := fun j r => by rw [hi]; rfl
    rw [hof, hnone] at hconn
    have hrecv := hconn.receiver
    obtain ⟨F', hconn', hFw', hFr', hFn'⟩ := hconn.receive (hconn.back.good p (by simp))
    have hsafe' : e₁.receiver ≠ .badproto := by
      rw [hrx']
      rcases hrecv with ⟨h0, -⟩ | ⟨h0, -⟩ <;> simp [h0]
    refine ⟨ps, p.payload, ⟨rfl, fun q hq => hl.ok q (List.mem_cons_of_mem _ hq), ?_⟩,
      fun _ hp => by simp [Event.packets] at hp,
      h.assemble hother hon hsafe' hof' (fun j r hj => ?_) ?_⟩
    · rcases hrecv with ⟨h0, -, hnil⟩ | ⟨h0, -⟩
      · rw [h0, hnil]
        rfl
      · rw [h0]
        rfl
    · rw [hrx', hnone]
      rcases hrecv with ⟨h0, -⟩ | ⟨h0, -⟩
      · rw [h0]
        rfl
      · rw [h0, hid]
        simp [hand, hj.symm]
    · have hhand : ∀ r, hand id r p.payload (Mux.receive (e.half id).c p.header).2 = segments [p] := by
        intro r
        rcases hrecv with ⟨h0, hseg, -⟩ | ⟨h0, hseg⟩
        · rw [h0, hseg]
          rfl
        · rw [h0, hseg, hid]
          simp [hand]
      rw [hX', hrx', hhand]
      refine ⟨F', G, ?_, ⟨?_, by rw [hFr', hFn', hFr]⟩, hGw, by simp [hGr, Event.readOn]⟩
      · simpa [Event.packets] using hconn'
      · simp [hFw', hFw, Event.writtenOn]
  | unknown hi hdec => exact absurd hdec (hi ▸ hl).not_unknown
  | @fill len hd hlen =>
    have hpre : pre.length = len := by rw [hl.length_eq, hd]; rfl
    have htake : input.take len = pre := by rw [hl.input_eq, ← hpre, List.take_left]
    have hdrop : input.drop len = b.flatMap Packet.wire := by rw [hl.input_eq, ← hpre, List.drop_left]
    have hhand : ∀ r, hand id r pre e.receiver = [pre] := fun r => by simp [hd, hand]
    rw [hhand] at hconn
    refine ⟨b, [], ⟨hdrop, hl.ok, rfl⟩, fun _ hp => by simp [Event.packets] at hp,
      h.assemble hother hon (by simp [hrx']) (fun _ _ => rfl) (fun j r hj => ?_) ?_⟩
    · rw [hrx', hd]
      simp [hand, hj.symm]
    · have hfill : Conn F G ((e.half id).fill pre) (e'.half id) _ _ _ _ :=
        hconn.recvbuf hconn.back.fill
      have hhand' : ∀ r, hand id r [] (.filled id len) = [r.ahead len] := fun r => by simp [hand]
      rw [hX', hrx', htake, hhand', ← hpre, show Event.silent.packets = [] from rfl, List.append_nil]
      exact ⟨F, G, hfill, ⟨by simp [hFw, Event.writtenOn], hFr⟩, hGw, by simp [hGr, Event.readOn]⟩
  | @filled len hd =>
    have hhand : ∀ r, hand id r pre e.receiver = [r.ahead len] := fun r => by simp [hd, hand]
    rw [hhand] at hconn
    obtain ⟨G', hG', hw, hr⟩ := hconn.back.grow
    have hpre : pre = [] := List.length_eq_zero_iff.mp (by rw [hl.length_eq, hd]; rfl)
    refine ⟨b, pre, ⟨hl.input_eq, hl.ok, by rw [hpre]; rfl⟩, fun _ hp => by simp [Event.packets] at hp,
      h.assemble hother hon (by simp [hrx']) (fun _ _ => rfl) (fun j r hj => ?_) ?_⟩
    · rw [hrx', hd]
      simp [hand, hj.symm]
    · have hgrow : Conn F G' ((e.half id).grow len) (e'.half id) _ _ _ _ := hconn.recvbuf hG'
      rw [hX', hrx', show Event.silent.packets = [] from rfl, List.append_nil]
      exact ⟨F, G', hgrow, ⟨by simp [hFw, Event.writtenOn], hFr⟩, hw.trans hGw,
        by simp [hr, hGr, Event.readOn]⟩

/-! ## Runs -/

theorem written_concat (x y : Bool) (id : ChanId) (tr : Trace) (ev : Event) :
    written x id (tr ++ [(y, ev)]) = written x id tr ++ if y = x then ev.writtenOn id else [] := by
  simp [written, List.flatMap_append]

theorem bytesRead_concat (x y : Bool) (id : ChanId) (tr : Trace) (ev : Event) :
    bytesRead x id (tr ++ [(y, ev)]) = bytesRead x id tr ++ if y = x then ev.readOn id else [] := by
  simp [bytesRead, List.flatMap_append]

/-- What holds of two endpoints and what was seen of them, `x` the first. -/
def Sound (x : Bool) (tr : Trace) (s : System) : Prop :=
  ∃ f b pre pre', Link (s.link !x) (s.ep x).receiver b pre ∧
    Link (s.link x) (s.ep !x).receiver f pre' ∧
    Joined (s.ep x) (s.ep !x) f b pre pre' (written x · tr) (bytesRead x · tr)
      (written (!x) · tr) (bytesRead (!x) · tr)

theorem Sound.symm {x : Bool} {tr : Trace} {s : System} (h : Sound x tr s) : Sound (!x) tr s := by
  obtain ⟨f, b, pre, pre', hl, hl', hj⟩ := h
  refine ⟨b, f, pre', pre, ?_, ?_, ?_⟩
  · rwa [Bool.not_not]
  · rwa [Bool.not_not]
  · simpa using hj.symm

theorem Sound.step {x : Bool} {tr : Trace} {s s' : System} {ev : Event} (h : Sound x tr s)
    (hs : s.Step x ev s') : Sound x (tr ++ [(x, ev)]) s' := by
  obtain ⟨f, b, pre, pre', hl, hl', hj⟩ := h
  cases hs with
  | mk hstep hlisten =>
    obtain ⟨b₁, pre₁, hl₁, hok, hj₁⟩ := hj.step hl hstep hlisten
    have hne : (!x) ≠ x := by cases x <;> decide
    refine ⟨f ++ ev.packets, b₁, pre₁, pre', ?_, ?_, ?_⟩
    · simpa [hne] using hl₁
    · simpa [hne] using hl'.append hok
    · simp only [written_concat, bytesRead_concat, hne.symm, if_true, if_false, List.append_nil,
        Function.update_self, Function.update_of_ne hne]
      exact hj₁

theorem carries_init (id : ChanId) :
    Carries (.new _ _) (Endpoint.init.half id) (Endpoint.init.half id) [] [] [] where
  sends := {
    claimed_le := Nat.le_refl 0
    seq := rfl
    win := rfl
    buf := RingBuffer.holds_new _ _
    mss := fun h => absurd rfl h.1
    shut := fun _ => rfl
    data := fun h => by cases h
    done := fun h => by rcases h with h | h <;> cases h }
  takes := ⟨rfl, RingBuffer.holds_new _ _, rfl, rfl⟩
  flight := rfl
  wins := rfl
  good := fun _ h => by cases h

theorem conn_init (id : ChanId) : Conn (.new _ _) (.new _ _) (Endpoint.init.half id)
    (Endpoint.init.half id) [] [] [] [] := by
  have ht : Tidy (Endpoint.init.half id) := by
    refine ⟨fun w h => ?_, fun w _ h => ?_, fun h => absurd rfl h, fun h => ?_, fun _ => rfl⟩
    · cases w <;> cases h
    · cases h
    · cases h
  exact ⟨ht, ht, ⟨.nil (.inl rfl), .nil (.inl rfl)⟩, carries_init id, carries_init id⟩

theorem sound_init : Sound false [] System.init := by
  have hl : Link [] .idle [] [] := ⟨rfl, fun p h => absurd h List.not_mem_nil, rfl⟩
  have hsafe : Endpoint.init.receiver ≠ .badproto := fun h => by cases h
  exact ⟨[], [], [], [], hl, hl, hsafe, hsafe, fun id => ⟨_, _, conn_init id, ⟨rfl, rfl⟩, rfl, rfl⟩⟩

theorem System.Run.sound {tr : Trace} {s : System} (h : System.Run tr s) (x : Bool) : Sound x tr s := by
  have both : ∀ x, Sound false tr s → Sound x tr s := fun x h0 => by
    cases x
    · exact h0
    · exact h0.symm
  refine both x ?_
  clear both x
  induction h with
  | init => exact sound_init
  | @step tr s s' x ev _ hs ih =>
    cases x
    · exact ih.step hs
    · exact (ih.symm.step hs).symm

/-- No endpoint finds a packet it does not accept, and what is read is what was written. -/
theorem mux_safe {tr : Trace} {s : System} (h : System.Run tr s) :
    (∀ x, (s.ep x).receiver ≠ .badproto) ∧
      ∀ x id, bytesRead x id tr <+: written (!x) id tr := by
  have hj : ∀ x, ∃ f b pre pre', Joined (s.ep x) (s.ep !x) f b pre pre' (written x · tr)
      (bytesRead x · tr) (written (!x) · tr) (bytesRead (!x) · tr) := fun x => by
    obtain ⟨f, b, pre, pre', -, -, hj⟩ := h.sound x
    exact ⟨f, b, pre, pre', hj⟩
  refine ⟨fun x => ?_, fun x id => ?_⟩
  · obtain ⟨f, b, pre, pre', hj⟩ := hj x
    exact hj.safe
  · obtain ⟨f, b, pre, pre', hj⟩ := hj x
    obtain ⟨F, G, -, -, hw, hr⟩ := hj.conn id
    rw [← hw, ← hr]
    exact G.take_read_prefix

/-- One listens, the other connects, and `CONNECT` arrives. -/
theorem mux_safe_connect : ∃ tr s, System.Run tr s ∧ ((s.ep true).chans 0).state = .established ∧
    (∀ x, (s.ep x).receiver ≠ .badproto) ∧ ∀ x id, bytesRead x id tr <+: written (!x) id tr := by
  have h₁ := System.Run.init.step (x := true) (.mk (.listen 0 rfl) fun id hid => by cases hid)
  have h₂ := h₁.step (x := false) (.mk (.connect 0 rfl) fun id hid => by
    obtain rfl := Event.connect.inj hid
    rfl)
  have h₃ := h₂.step (x := false) (.mk (.scan 0 rfl rfl) fun id hid => by cases hid)
  have h₄ := h₃.step (x := false) (.mk (.prepare rfl) fun id hid => by cases hid)
  have h₅ := h₄.step (x := false) (.mk (.sendHdr rfl) fun id hid => by cases hid)
  have h₆ := h₅.step (x := true) (.mk (.receive rfl rfl) fun id hid => by cases hid)
  exact ⟨_, _, h₆, rfl, mux_safe h₆⟩

end Csup.Mux
