import Csup.Base.Clib
import Csup.Framework.RingBuffer
import Mathlib.Logic.Function.Basic

/-!
# The multiplexer: `mux.c`

Channels, packets, and the sender and receiver threads of an endpoint, one step
for each stretch of code that runs under the lock of a channel: `Endpoint.Step`.
A call that waits, or that returns an error, is no step. The order in which
`sender_scan` visits the channels (`sender_lastid`) is left open.

In a `struct buf`, `in` is `tail` and `out` is `head`. The 32-bit sequence numbers
are natural numbers, reduced modulo 2^32 where the source computes them.
-/

namespace Csup.Mux

open Csup.Framework

abbrev Buf := RingBuffer Byte

abbrev ChanId := UInt8

/-! ## Packets -/

/-- The headers of packets. -/
inductive Header
  | connect (id : ChanId) (mss window : Nat)
  | accept (id : ChanId) (mss window : Nat)
  | reset (id : ChanId)
  | data (id : ChanId) (len : Nat)
  | window (id : ChanId) (window : Nat)
  | close (id : ChanId)
  deriving DecidableEq

def Header.id : Header → ChanId
  | connect id _ _ => id
  | accept id _ _ => id
  | reset id => id
  | data id _ => id
  | window id _ => id
  | close id => id

/-- `htons` -/
def htons (n : Nat) : List Byte := [(n / 256).toUInt8, n.toUInt8]

/-- `htonl` -/
def htonl (n : Nat) : List Byte := htons (n / 65536) ++ htons n

def ntohs (b1 b0 : Byte) : Nat := 256 * b1.toNat + b0.toNat

def ntohl (b3 b2 b1 b0 : Byte) : Nat := 65536 * ntohs b3 b2 + ntohs b1 b0

/-- A `struct mux_header`. -/
def Header.encode : Header → List Byte
  | connect id mss w => 2 :: id :: (htons mss ++ htonl w)
  | accept id mss w => 3 :: id :: (htons mss ++ htonl w)
  | reset id => [4, id]
  | data id len => 5 :: id :: htons len
  | window id w => 6 :: id :: htonl w
  | close id => [7, id]

/-- What the receiver reads as a header: it waits for the rest of it, it is of
an unknown type, or it is there. -/
inductive Decoded
  | wait
  | unknown
  | header (h : Header) (rest : List Byte)

/-- The type of a packet and, by the type, the rest of its header. -/
def decode : List Byte → Decoded
  | [] => .wait
  | t :: s =>
    if t = 2 then
      match s with
      | id :: m1 :: m0 :: w3 :: w2 :: w1 :: w0 :: rest =>
        .header (.connect id (ntohs m1 m0) (ntohl w3 w2 w1 w0)) rest
      | _ => .wait
    else if t = 3 then
      match s with
      | id :: m1 :: m0 :: w3 :: w2 :: w1 :: w0 :: rest =>
        .header (.accept id (ntohs m1 m0) (ntohl w3 w2 w1 w0)) rest
      | _ => .wait
    else if t = 4 then
      match s with
      | id :: rest => .header (.reset id) rest
      | _ => .wait
    else if t = 5 then
      match s with
      | id :: l1 :: l0 :: rest => .header (.data id (ntohs l1 l0)) rest
      | _ => .wait
    else if t = 6 then
      match s with
      | id :: w3 :: w2 :: w1 :: w0 :: rest => .header (.window id (ntohl w3 w2 w1 w0)) rest
      | _ => .wait
    else if t = 7 then
      match s with
      | id :: rest => .header (.close id) rest
      | _ => .wait
    else .unknown

structure Packet where
  header : Header
  payload : List Byte

def Packet.wire (p : Packet) : List Byte := p.header.encode ++ p.payload

/-! ## Channels -/

/-- Channel states. -/
inductive CS
  | unused | listening | connecting | established | rdclosed | wrclosed | closed
  deriving DecidableEq

/-- Channel flags. -/
inductive CF
  | connect | accept | reset | window | data | close
  deriving DecidableEq

/-- The flags that are set. -/
structure Flags where
  connect : Bool
  accept : Bool
  reset : Bool
  window : Bool
  data : Bool
  close : Bool
  deriving DecidableEq

def Flags.none : Flags := ⟨false, false, false, false, false, false⟩

structure Chan where
  flags : Flags
  state : CS
  recvbuf : Buf
  recvseq : Nat
  recvmss : Nat
  sendbuf : Buf
  sendseq : Nat
  sendwin : Nat
  sendmss : Nat

def chanSbsize : Nat := 16384

def chanRbsize : Nat := 16384

def chanMaxsegsize : Nat := 1024

/-- `chan_new` -/
def Chan.new : Chan where
  flags := .none
  state := .unused
  sendbuf := ⟨fun _ => 0, chanSbsize, 0, 0⟩
  sendseq := 0
  sendwin := 0
  sendmss := 0
  recvbuf := ⟨fun _ => 0, chanRbsize, 0, 0⟩
  recvseq := 0
  recvmss := chanMaxsegsize

/-- A `uint32_t`. -/
def wrap (n : Nat) : Nat := n % 4294967296

/-- `sendwin - sendseq` -/
def Chan.winsize (c : Chan) : Nat := wrap (c.sendwin + 4294967296 - c.sendseq)

/-- The window a channel announces. -/
def Chan.recvwin (c : Chan) : Nat := wrap (c.recvseq + c.recvbuf.size)

/-! ## Calls -/

/-- `chan_listen`, of a channel that is available. -/
def chanListen (c : Chan) : Option Chan :=
  if c.state = .unused then some { c with state := .listening } else none

/-- `chan_connect`, up to where it waits. -/
def chanConnect (c : Chan) : Option Chan :=
  if c.state = .unused then
    some { c with state := .connecting, flags := { c.flags with connect := true } }
  else none

/-- `chan_close`. The other cases change nothing. -/
def chanClose (c : Chan) : Chan :=
  match c.state with
  | .established => { c with state := .wrclosed, flags := { c.flags with close := true } }
  | .rdclosed => { c with state := .closed, flags := { c.flags with close := true } }
  | _ => c

/-- `chan_read`, when it does not wait: the bytes that are read. -/
def chanRead (c : Chan) (size : Nat) : Option (Chan × List Byte) :=
  if (c.state = .established ∨ c.state = .wrclosed) ∧ 0 < c.recvbuf.count then
    let n := min c.recvbuf.count size
    some ({ c with
      recvbuf := c.recvbuf.drop n
      recvseq := wrap (c.recvseq + n)
      flags := { c.flags with window := true } }, c.recvbuf.peek n)
  else none

/-- One time round the loop of `chan_write`, with `data` still to be written: the
bytes there was room for. -/
def chanWrite (c : Chan) (data : List Byte) : Option (Chan × List Byte) :=
  if (c.state = .established ∨ c.state = .rdclosed) ∧ 0 < c.sendbuf.avail ∧ data ≠ [] then
    let n := min c.sendbuf.avail data.length
    some ({ c with sendbuf := c.sendbuf.put (data.take n) }, data.take n)
  else none

/-! ## The sender thread -/

/-- The most important flag. -/
def Flags.pick (f : Flags) : Option CF :=
  if f.connect then some .connect
  else if f.accept then some .accept
  else if f.reset then some .reset
  else if f.window then some .window
  else if f.data then some .data
  else if f.close then some .close
  else Option.none

def Flags.clear (f : Flags) : CF → Flags
  | .connect => { f with connect := false }
  | .accept => { f with accept := false }
  | .reset => { f with reset := false }
  | .window => { f with window := false }
  | .data => { f with data := false }
  | .close => { f with close := false }

/-- Whether there is data and a window for it. -/
def Chan.hasData (c : Chan) : Bool := decide (c.sendseq ≠ c.sendwin) && decide (0 < c.sendbuf.count)

/-- The flags of a channel as `sender_scan` looks at them. -/
def Chan.scanFlags (c : Chan) : Flags :=
  if c.hasData then { c.flags with data := true } else c.flags

/-- `sender_scan` at a channel: what is to be sent. -/
def senderScan (c : Chan) : Option (Chan × CF) :=
  if c.state = .unused then none
  else c.scanFlags.pick.map fun what => ({ c with flags := c.scanFlags.clear what }, what)

/-- Where the sender thread is. -/
inductive SenderPc
  /-- in `sender_waitforwork` -/
  | wait
  /-- back from it -/
  | picked (id : ChanId) (what : CF)
  /-- about to write a header -/
  | hdr (h : Header)
  /-- about to write a header and `size` bytes of the buffer -/
  | data (id : ChanId) (size : Nat)
  /-- these are written, and the buffer still has them -/
  | sent (id : ChanId) (size : Nat)
  deriving DecidableEq

/-- How many bytes `sender_loop` sends. -/
def Chan.dataSize (c : Chan) : Nat :=
  let size := min c.sendbuf.count c.sendmss
  if c.winsize < size then c.winsize else size

/-- The switch of `sender_loop`. -/
def senderPrepare (c : Chan) (id : ChanId) : CF → SenderPc
  | .connect => .hdr (.connect id c.recvmss c.recvwin)
  | .accept => .hdr (.accept id c.recvmss c.recvwin)
  | .reset => .hdr (.reset id)
  | .window => .hdr (.window id c.recvwin)
  | .data => if 0 < c.dataSize then .data id c.dataSize else .hdr (.data id 0)
  | .close => .hdr (.close id)

/-- The end of `sender_loop` after data was written. -/
def senderAdvance (c : Chan) (size : Nat) : Chan :=
  { c with sendseq := wrap (c.sendseq + size), sendbuf := c.sendbuf.drop size }

/-! ## The receiver thread -/

/-- Where the receiver thread is. -/
inductive ReceiverPc
  /-- about to read a header -/
  | idle
  /-- about to read the data of a packet -/
  | data (id : ChanId) (len : Nat)
  /-- it is read, and the buffer does not count it yet -/
  | filled (id : ChanId) (len : Nat)
  | badproto
  deriving DecidableEq

/-- The switch of `receiver_loop`. -/
def receive (c : Chan) : Header → Chan × ReceiverPc
  | .connect _ mss window =>
    if c.state = .listening then
      ({ c with
        state := .established
        sendmss := mss
        sendwin := window
        flags := { c.flags with accept := true } }, .idle)
    else ({ c with flags := { c.flags with reset := true } }, .idle)
  | .accept _ mss window =>
    if c.state = .connecting then
      ({ c with sendmss := mss, sendwin := window, state := .established }, .idle)
    else ({ c with flags := { c.flags with reset := true } }, .idle)
  | .reset _ => (c, .badproto)
  | .window _ window =>
    if c.state = .established ∨ c.state = .rdclosed then ({ c with sendwin := window }, .idle)
    else (c, .idle)
  | .data id len =>
    if (c.state ≠ .established ∧ c.state ≠ .wrclosed) ∨ (len > c.recvbuf.avail ∨ len > c.recvmss)
    then (c, .badproto)
    else (c, .data id len)
  | .close _ =>
    match c.state with
    | .established => ({ c with state := .rdclosed }, .idle)
    | .wrclosed => ({ c with state := .closed }, .idle)
    | _ => (c, .badproto)

/-! ## Endpoints -/

structure Endpoint where
  chans : ChanId → Chan
  sender : SenderPc
  receiver : ReceiverPc

/-- `mux_open`, before a channel is used. -/
def Endpoint.init : Endpoint := ⟨fun _ => Chan.new, .wait, .idle⟩

def Endpoint.set (e : Endpoint) (id : ChanId) (c : Chan) : Endpoint :=
  { e with chans := Function.update e.chans id c }

/-- What a step is seen to do. -/
inductive Event
  | silent
  | connect (id : ChanId)
  | close (id : ChanId)
  | written (id : ChanId) (data : List Byte)
  | read (id : ChanId) (data : List Byte)
  | sent (p : Packet)

/-- What is written to the socket. -/
def Event.wire : Event → List Byte
  | sent p => p.wire
  | _ => []

/-- The bytes `chan_write` put into the send buffer of a channel. -/
def Event.writtenOn (id : ChanId) : Event → List Byte
  | written i data => if i = id then data else []
  | _ => []

/-- The bytes `chan_read` returned of a channel. -/
def Event.readOn (id : ChanId) : Event → List Byte
  | read i data => if i = id then data else []
  | _ => []

/-- The bytes of a channel sent in `DATA` packets. -/
def Event.sentOn (id : ChanId) : Event → List Byte
  | sent ⟨.data i _, payload⟩ => if i = id then payload else []
  | _ => []

/-- A step of an endpoint, with what is there to be read from the socket before
and after it. -/
inductive Endpoint.Step (e : Endpoint) (input : List Byte) :
    Endpoint → Event → List Byte → Prop
  | listen (id : ChanId) {c : Chan} : chanListen (e.chans id) = some c →
    Step e input (e.set id c) .silent input
  | connect (id : ChanId) {c : Chan} : chanConnect (e.chans id) = some c →
    Step e input (e.set id c) (.connect id) input
  | close (id : ChanId) : Step e input (e.set id (chanClose (e.chans id))) (.close id) input
  | read (id : ChanId) {c : Chan} (size : Nat) {data : List Byte} :
    chanRead (e.chans id) size = some (c, data) →
    Step e input (e.set id c) (.read id data) input
  | write (id : ChanId) {c : Chan} (left : List Byte) {data : List Byte} :
    chanWrite (e.chans id) left = some (c, data) →
    Step e input (e.set id c) (.written id data) input
  | scan (id : ChanId) {c : Chan} {what : CF} : e.sender = .wait →
    senderScan (e.chans id) = some (c, what) →
    Step e input { e.set id c with sender := .picked id what } .silent input
  | prepare {id : ChanId} {what : CF} : e.sender = .picked id what →
    Step e input { e with sender := senderPrepare (e.chans id) id what } .silent input
  | sendHdr {h : Header} : e.sender = .hdr h →
    Step e input { e with sender := .wait } (.sent ⟨h, []⟩) input
  | sendData {id : ChanId} {size : Nat} : e.sender = .data id size →
    Step e input { e with sender := .sent id size }
      (.sent ⟨.data id size, (e.chans id).sendbuf.peek size⟩) input
  | advance {id : ChanId} {size : Nat} : e.sender = .sent id size →
    Step e input { e.set id (senderAdvance (e.chans id) size) with sender := .wait } .silent input
  | receive {h : Header} {rest : List Byte} : e.receiver = .idle →
    decode input = .header h rest →
    Step e input
      { e.set h.id (receive (e.chans h.id) h).1 with receiver := (receive (e.chans h.id) h).2 }
      .silent rest
  | unknown : e.receiver = .idle → decode input = .unknown →
    Step e input { e with receiver := .badproto } .silent input
  | fill {id : ChanId} {len : Nat} : e.receiver = .data id len → len ≤ input.length →
    Step e input
      { e.set id { e.chans id with recvbuf := (e.chans id).recvbuf.fill (input.take len) } with
        receiver := .filled id len }
      .silent (input.drop len)
  | filled {id : ChanId} {len : Nat} : e.receiver = .filled id len →
    Step e input
      { e.set id { e.chans id with recvbuf := (e.chans id).recvbuf.grow len } with
        receiver := .idle }
      .silent input

/-! ## Two endpoints -/

/-- The link of an endpoint is what it wrote and the other has not read. -/
structure System where
  ep : Bool → Endpoint
  link : Bool → List Byte

def System.init : System := ⟨fun _ => Endpoint.init, fun _ => []⟩

/-- A step of the endpoint `x`. A channel is connected when the other endpoint
listens on it. -/
inductive System.Step (s : System) (x : Bool) : Event → System → Prop
  | mk {e : Endpoint} {ev : Event} {rest : List Byte} :
    Endpoint.Step (s.ep x) (s.link !x) e ev rest →
    (∀ id, ev = .connect id → ((s.ep !x).chans id).state = .listening) →
    Step s x ev
      ⟨Function.update s.ep x e, fun y => if y = x then s.link x ++ ev.wire else rest⟩

abbrev Trace := List (Bool × Event)

/-- A run, with what was seen of it. -/
inductive System.Run : Trace → System → Prop
  | init : Run [] System.init
  | step {tr : Trace} {s s' : System} {x : Bool} {ev : Event} :
    Run tr s → s.Step x ev s' → Run (tr ++ [(x, ev)]) s'

/-- The bytes of the channel `id` of `x` that `chan_write` put into the send buffer. -/
def written (x : Bool) (id : ChanId) (tr : Trace) : List Byte :=
  tr.flatMap fun t => if t.1 = x then t.2.writtenOn id else []

/-- The bytes of the channel `id` of `x` that `chan_read` returned. -/
def bytesRead (x : Bool) (id : ChanId) (tr : Trace) : List Byte :=
  tr.flatMap fun t => if t.1 = x then t.2.readOn id else []

end Csup.Mux
