import Csup.Mux.Defs

/-!
# One channel of an endpoint

A step of an endpoint is a step of one of its channels and leaves the others
alone: `exists_half_step`. A `Half` is what an endpoint has of a channel, the
`struct chan` and where the sender thread is in it.
-/

namespace Csup.Mux

open Csup.Framework

/-- The place of the sender as it is seen from the channel `id`. -/
def SenderPc.at (id : ChanId) (pc : SenderPc) : SenderPc :=
  match pc with
  | wait => wait
  | picked i what => if i = id then picked i what else wait
  | hdr h => if h.id = id then hdr h else wait
  | data i size => if i = id then data i size else wait
  | sent i size => if i = id then sent i size else wait

/-- The states behind `chan_close`. -/
def CS.Closing (s : CS) : Prop := s = .wrclosed ∨ s = .closed

structure Half where
  c : Chan
  tx : SenderPc

def Endpoint.half (e : Endpoint) (id : ChanId) : Half := ⟨e.chans id, e.sender.at id⟩

/-- The channel an event is about. -/
def Event.On (id : ChanId) : Event → Prop
  | silent => True
  | connect i => i = id
  | close i => i = id
  | written i _ => i = id
  | read i _ => i = id
  | sent p => p.header.id = id

/-- A call, or a step of the sender. -/
inductive Half.Act (id : ChanId) (h : Half) : Half → Event → Prop
  | listen {c : Chan} : chanListen h.c = some c → Act id h { h with c } .silent
  | connect {c : Chan} : chanConnect h.c = some c → Act id h { h with c } (.connect id)
  | close : Act id h { h with c := chanClose h.c } (.close id)
  | read {c : Chan} (size : Nat) {data : List Byte} : chanRead h.c size = some (c, data) →
    Act id h { h with c } (.read id data)
  | write {c : Chan} (left : List Byte) {data : List Byte} : chanWrite h.c left = some (c, data) →
    Act id h { h with c } (.written id data)
  | scan {c : Chan} {what : CF} : h.tx = .wait → senderScan h.c = some (c, what) →
    Act id h ⟨c, .picked id what⟩ .silent
  | prepare {what : CF} : h.tx = .picked id what →
    Act id h { h with tx := senderPrepare h.c id what } .silent
  | sendHdr {hd : Header} : h.tx = .hdr hd → hd.id = id →
    Act id h { h with tx := .wait } (.sent ⟨hd, []⟩)
  | sendData {size : Nat} : h.tx = .data id size →
    Act id h { h with tx := .sent id size } (.sent ⟨.data id size, h.c.sendbuf.peek size⟩)
  | advance {size : Nat} : h.tx = .sent id size →
    Act id h ⟨senderAdvance h.c size, .wait⟩ .silent

/-- The data of a packet put behind what the receive buffer counts. -/
def Half.fill (h : Half) (data : List Byte) : Half :=
  { h with c := { h.c with recvbuf := h.c.recvbuf.fill data } }

/-- It is counted. -/
def Half.grow (h : Half) (len : Nat) : Half :=
  { h with c := { h.c with recvbuf := h.c.recvbuf.grow len } }

/-- A step of a channel, with the place of the receiver and what is there to be
read before and after it. -/
inductive Half.Step (id : ChanId) (h : Half) (rx : ReceiverPc) (input : List Byte) :
    Half → ReceiverPc → Event → List Byte → Prop
  | act {h' : Half} {ev : Event} : Act id h h' ev → Step id h rx input h' rx ev input
  | receive {hd : Header} {rest : List Byte} : rx = .idle → decode input = .header hd rest →
    hd.id = id →
    Step id h rx input { h with c := (receive h.c hd).1 } (receive h.c hd).2 .silent rest
  | unknown : rx = .idle → decode input = .unknown → Step id h rx input h .badproto .silent input
  | fill {len : Nat} : rx = .data id len → len ≤ input.length →
    Step id h rx input (h.fill (input.take len)) (.filled id len) .silent (input.drop len)
  | filled {len : Nat} : rx = .filled id len → Step id h rx input (h.grow len) .idle .silent input

variable {e e' : Endpoint} {id j : ChanId} {c : Chan}

@[simp] theorem set_chans_self : (e.set id c).chans id = c := Function.update_self ..

theorem set_chans_of_ne (h : j ≠ id) : (e.set id c).chans j = e.chans j := Function.update_of_ne h ..

@[simp] theorem set_sender : (e.set id c).sender = e.sender := rfl

@[simp] theorem set_receiver : (e.set id c).receiver = e.receiver := rfl

/-! ## Places in a channel -/

theorem senderPrepare_at (what : CF) :
    (senderPrepare c id what).at id = senderPrepare c id what := by
  cases what
  case data =>
    simp only [senderPrepare]
    split <;> simp [SenderPc.at, Header.id]
  all_goals simp [senderPrepare, SenderPc.at, Header.id]

theorem senderPrepare_at_ne (what : CF) (h : j ≠ id) :
    (senderPrepare c id what).at j = .wait := by
  cases what
  case data =>
    simp only [senderPrepare]
    split <;> simp [SenderPc.at, Header.id, h.symm]
  all_goals simp [senderPrepare, SenderPc.at, Header.id, h.symm]

/-! ## Locality -/

theorem half_set_of_ne (h : j ≠ id) : (e.set id c).half j = e.half j := by
  rw [Endpoint.half, set_chans_of_ne h]
  rfl

theorem half_set_self : (e.set id c).half id = { e.half id with c } := by
  rw [Endpoint.half, set_chans_self]
  rfl

/-- The channels a step does not touch. -/
theorem half_of_ne {tx : SenderPc} {rx : ReceiverPc} (h : j ≠ id) (ht : tx.at j = e.sender.at j) :
    Endpoint.half { e.set id c with sender := tx, receiver := rx } j = e.half j := by
  show Half.mk ((e.set id c).chans j) (tx.at j) = _
  rw [set_chans_of_ne h, ht]
  rfl

/-- The channel it does. -/
theorem half_self {tx : SenderPc} {rx : ReceiverPc} :
    Endpoint.half { e.set id c with sender := tx, receiver := rx } id = ⟨c, tx.at id⟩ := by
  show Half.mk ((e.set id c).chans id) (tx.at id) = _
  rw [set_chans_self]

/-- A step of an endpoint is one of a channel of it. -/
theorem exists_half_step {input rest : List Byte} {ev : Event} (h : e.Step input e' ev rest) :
    ∃ id, (∀ j, j ≠ id → e'.half j = e.half j) ∧ ev.On id ∧
      Half.Step id (e.half id) e.receiver input (e'.half id) e'.receiver ev rest := by
  cases h with
  | listen id h =>
    exact ⟨id, fun j hj => half_set_of_ne hj, trivial, half_set_self ▸ .act (.listen h)⟩
  | connect id h =>
    exact ⟨id, fun j hj => half_set_of_ne hj, rfl, half_set_self ▸ .act (.connect h)⟩
  | close id =>
    exact ⟨id, fun j hj => half_set_of_ne hj, rfl, half_set_self ▸ .act .close⟩
  | read id size h =>
    exact ⟨id, fun j hj => half_set_of_ne hj, rfl, half_set_self ▸ .act (.read size h)⟩
  | write id left h =>
    exact ⟨id, fun j hj => half_set_of_ne hj, rfl, half_set_self ▸ .act (.write left h)⟩
  | @scan id c what hw h =>
    refine ⟨id, fun j hj => half_of_ne hj ?_, trivial, ?_⟩
    · rw [hw]
      simp [SenderPc.at, hj.symm]
    · rw [half_self, show (SenderPc.picked id what).at id = .picked id what by simp [SenderPc.at]]
      exact .act <| .scan (by simp [Endpoint.half, hw, SenderPc.at]) h
  | @prepare id what hp =>
    refine ⟨id, fun j hj => ?_, trivial, ?_⟩
    · show Half.mk _ _ = Half.mk _ _
      rw [senderPrepare_at_ne what hj, hp]
      simp [SenderPc.at, hj.symm]
    · show Half.Step id _ _ _ ⟨e.chans id, (senderPrepare (e.chans id) id what).at id⟩ _ _ _
      rw [senderPrepare_at what]
      exact .act <| .prepare (by simp [Endpoint.half, hp, SenderPc.at])
  | @sendHdr hd hp =>
    refine ⟨hd.id, fun j hj => ?_, rfl, ?_⟩
    · show Half.mk _ _ = Half.mk _ _
      rw [hp]
      simp [SenderPc.at, hj.symm]
    · exact .act <| .sendHdr (by simp [Endpoint.half, hp, SenderPc.at]) rfl
  | @sendData id size hp =>
    refine ⟨id, fun j hj => ?_, rfl, ?_⟩
    · show Half.mk _ _ = Half.mk _ _
      rw [hp]
      simp [SenderPc.at, hj.symm]
    · show Half.Step id _ _ _ ⟨e.chans id, (SenderPc.sent id size).at id⟩ _ _ _
      rw [show (SenderPc.sent id size).at id = .sent id size by simp [SenderPc.at]]
      exact .act <| .sendData (by simp [Endpoint.half, hp, SenderPc.at])
  | @advance id size hp =>
    refine ⟨id, fun j hj => half_of_ne hj ?_, trivial, ?_⟩
    · rw [hp]
      simp [SenderPc.at, hj.symm]
    · rw [half_self]
      exact .act <| .advance (by simp [Endpoint.half, hp, SenderPc.at])
  | @receive hd rest hi hdec =>
    refine ⟨hd.id, fun j hj => half_of_ne hj rfl, trivial, ?_⟩
    rw [half_self]
    exact .receive hi hdec rfl
  | unknown hi hdec => exact ⟨0, fun j _ => rfl, trivial, .unknown hi hdec⟩
  | @fill id len hd hlen =>
    refine ⟨id, fun j hj => half_of_ne hj rfl, trivial, ?_⟩
    rw [half_self]
    exact .fill hd hlen
  | @filled id len hd =>
    refine ⟨id, fun j hj => half_of_ne hj rfl, trivial, ?_⟩
    rw [half_self]
    exact .filled hd

end Csup.Mux
