import Csup.Framework.Locks
import Csup.Mux.Table

/-!
# The locks of a multiplexer

The functions of `mux.c` by the locks that they take and release, with what they look at to
choose their way: the channels, the packet that was read, and whether a call on the socket
succeeded. The outcome of such a call is any. A thread that is cancelled is so where it waits,
and an assertion that fails, or a null pointer that is followed, is where there is no step.

Main theorem: `lock_discipline`. It is about the runs in which `chan_insert` finds room, and
a `CLOSE` packet comes for a channel that is open.
-/

namespace Csup.Mux

open Csup.Framework.Locks

inductive Lock
  | mux
  | chan (id : Nat)
  deriving DecidableEq

/-- The functions, as they return. -/
inductive Fn
  | chanListen | chanInsert | chanAccept | chanConnect | chanRead | chanWrite | chanClose
  | chanWait | senderLoop | receiverLoop | muxShutdown

/-- What a thread does beside taking and releasing locks. -/
inductive Op
  | step
  /-- a function returns -/
  | ret (f : Fn)
  /-- `mux_shutdown` is called -/
  | shutdown
  /-- the loop of `chan_insert` -/
  | insert
  /-- the channel of a packet is looked at -/
  | packet (h : Header)

/-- The functions that are called, and the loops that lock in their bodies. -/
inductive Label
  | chanListen
  | listenLoop (i : Nat)
  | chanAccept (id : Nat)
  | acceptLoop (id : Nat)
  | chanConnect (id : Nat)
  | connectLoop (id : Nat)
  | chanRead (id size : Nat)
  | readLoop (id size : Nat)
  | chanWrite (id : Nat) (data : List Byte)
  | writeLoop (id : Nat) (left : List Byte)
  | chanClose (id : Nat)
  | chanWait (id : Nat)
  | waitLoop (id : Nat)
  | shutdown
  | sender
  /-- the loop of `sender_waitforwork` -/
  | workLoop
  /-- the loop of `sender_scan` -/
  | scanLoop (id : Nat)
  | receiver

namespace Locks

abbrev Cd := Code Table Op Lock Label

/-! ## Parts of a function -/

def skip (a : Op) (k : Cd) : Cd := .act a (fun t (_ : Unit) t' => t' = t) fun _ => k

/-- `f` returns, and its thread goes on with `k`. -/
def ret (f : Fn) (k : Cd) : Cd := skip (.ret f) k

/-- An assertion. -/
def need (p : Table → Prop) (k : Cd) : Cd :=
  .act .step (fun t (_ : Unit) t' => p t ∧ t' = t) fun _ => k

def look {β : Type} (f : Table → β) (k : β → Cd) : Cd :=
  .act .step (fun t b t' => b = f t ∧ t' = t) k

/-- How a call that may block ends. -/
inductive Outcome
  | ok | failed | cancelled

def call (k : Outcome → Cd) : Cd := .act .step (fun t _ t' => t' = t) k

/-- What the receiver reads. -/
inductive Arrival
  | header (h : Header)
  | unknown
  | failed
  | cancelled

def arrival (k : Arrival → Cd) : Cd := .act .step (fun t _ t' => t' = t) k

/-- What is done to a channel that is there. -/
def onChan {β : Type} (a : Op) (id : Nat) (f : Chan → β × Chan) (k : β → Cd) : Cd :=
  .act a (fun t b t' => ∃ c, t.channels id = some c ∧ b = (f c).1 ∧ t' = t.set id (f c).2) k

/-- `pthread_cond_wait` -/
def condWait (l : Lock) (k : Cd) : Cd := .unlock l (.lock l k)

/-! ## The functions -/

def senderWakeup (k : Cd) : Cd := .lock .mux (skip .step (.unlock .mux k))

def chanGet (id : Nat) (k : Cd) : Cd :=
  need (fun _ => id < muxMaxchan) <| .lock .mux <|
  .act .step (fun t (_ : Unit) t' => ∃ c, t.chanGet id = .ok (c, t')) fun _ =>
  .lock (.chan id) <| .unlock .mux k

/-- `chan_insert` of the channel that `chan_listen` made. -/
def chanInsert (k : Option Nat → Cd) : Cd :=
  .lock .mux <|
  .act .insert (fun t b t' =>
    b = (t.chanInsert { Chan.new with state := .listening }).map Prod.fst ∧
      t' = ((t.chanInsert { Chan.new with state := .listening }).map Prod.snd).getD t) fun
  | some i => .unlock .mux <| ret .chanInsert <| k (some i)
  | none => ret .chanInsert <| k none

def listenLoop (i : Nat) : Cd :=
  look (fun t => decide (i < t.nchans)) fun more =>
  if more then
    need (fun t => t.has i = true) <| .lock (.chan i) <|
    onChan .step i (fun c => (c.state, c)) fun st =>
    if st = .unused then
      .unlock .mux <|
      onChan .step i (fun c => ((), { c with state := .listening })) fun _ =>
      .unlock (.chan i) <| ret .chanListen .done
    else .unlock (.chan i) <| .jump (.listenLoop (i + 1))
  else .unlock .mux <| chanInsert fun _ => ret .chanListen .done

def acceptLoop (id : Nat) : Cd :=
  onChan .step id (fun c => (c.state, c)) fun st =>
  if st = .listening then condWait (.chan id) <| .jump (.acceptLoop id)
  else .unlock (.chan id) <| ret .chanAccept .done

def chanConnect (id : Nat) : Cd :=
  chanGet id <|
  onChan .step id (fun c => (c.state, (Mux.chanConnect c).getD c)) fun st =>
  if st = .unused then
    .unlock (.chan id) <| senderWakeup <| .lock (.chan id) <| .jump (.connectLoop id)
  else .unlock (.chan id) <| ret .chanConnect .done

def connectLoop (id : Nat) : Cd :=
  onChan .step id (fun c => (c.state, c)) fun st =>
  if st = .connecting then condWait (.chan id) <| .jump (.connectLoop id)
  else .unlock (.chan id) <| ret .chanConnect .done

def readLoop (id size : Nat) : Cd :=
  onChan .step id (fun c => ((c.state, c.recvbuf.count), c)) fun (st, count) =>
  if st = .rdclosed ∨ st = .closed then .unlock (.chan id) <| ret .chanRead .done
  else if st ≠ .established ∧ st ≠ .wrclosed then .unlock (.chan id) <| ret .chanRead .done
  else if 0 < count then
    onChan .step id (fun c => ((), ((Mux.chanRead c size).map Prod.fst).getD c)) fun _ =>
    .unlock (.chan id) <| senderWakeup <| ret .chanRead .done
  else condWait (.chan id) <| .jump (.readLoop id size)

def writeLoop (id : Nat) (left : List Byte) : Cd :=
  if left = [] then .unlock (.chan id) <| senderWakeup <| ret .chanWrite .done
  else
    onChan .step id (fun c => ((c.state, c.sendbuf.avail), c)) fun (st, avail) =>
    if st ≠ .established ∧ st ≠ .rdclosed then .unlock (.chan id) <| ret .chanWrite .done
    else if 0 < avail then
      onChan .step id (fun c => ((), ((Mux.chanWrite c left).map Prod.fst).getD c)) fun _ =>
      .jump (.writeLoop id (left.drop avail))
    else condWait (.chan id) <| .jump (.writeLoop id left)

def chanClose (id : Nat) : Cd :=
  .lock (.chan id) <|
  onChan .step id (fun c => (c.state, Mux.chanClose c)) fun st =>
  if st = .established ∨ st = .rdclosed then
    .unlock (.chan id) <| senderWakeup <| ret .chanClose .done
  else .unlock (.chan id) <| ret .chanClose .done

def waitLoop (id : Nat) : Cd :=
  onChan .step id (fun c => (c.state, c)) fun st =>
  if st = .closed then .unlock (.chan id) <| ret .chanWait .done
  else condWait (.chan id) <| .jump (.waitLoop id)

/-- The loop of `mux_shutdown`, and the end of it: the threads that it cancels and waits for
take no lock of it. -/
def shutLoop (k : Cd) : Nat → Nat → Cd
  | 0, _ => .unlock .mux <| skip .step <| ret .muxShutdown k
  | n + 1, i =>
    look (fun t => t.has i) fun there =>
    if there then
      .lock (.chan i) <| onChan .step i (fun c => ((), c.shut)) fun _ =>
      .unlock (.chan i) <| shutLoop k n (i + 1)
    else shutLoop k n (i + 1)

def muxShutdown (k : Cd) : Cd :=
  skip .shutdown <| .lock .mux <|
  look (fun t => t.closed) fun closed =>
  if closed then .unlock .mux <| ret .muxShutdown k
  else
    .act .step (fun t (_ : Unit) t' => t' = { t with closed := true }) fun _ =>
    shutLoop k muxMaxchan 0

/-- `sender_waitforwork`, up to its loop. -/
def senderLoop : Cd := .lock .mux <| skip .step <| .jump .workLoop

/-- The wait of `sender_waitforwork`. A sender that is cancelled has the lock in
`sender_cleanup`. -/
def workWait : Cd :=
  .unlock .mux <| call fun
  | .cancelled => .lock .mux <| .unlock .mux <| ret .senderLoop .done
  | _ => .lock .mux <| .jump .workLoop

/-- The beginning of `sender_scan`. -/
def workLoop : Cd :=
  look (fun t => (t.nchans, t.senderLastid)) fun (n, last) =>
  if n = 0 then workWait else .jump (.scanLoop last)

/-- What is behind `sender_waitforwork` in `sender_loop`. -/
def senderSend (id : Nat) (what : CF) : Cd :=
  chanGet id <|
  onChan .step id (fun c => (senderPrepare c id.toUInt8 what, c)) fun
  | .data _ size =>
    .unlock (.chan id) <| call fun
    | .ok =>
      .lock (.chan id) <| onChan .step id (fun c => ((), senderAdvance c size)) fun _ =>
      .unlock (.chan id) <| .jump .sender
    | .failed => muxShutdown <| ret .senderLoop .done
    | .cancelled => ret .senderLoop .done
  | _ =>
    .unlock (.chan id) <| call fun
    | .ok => .jump .sender
    | .failed => muxShutdown <| ret .senderLoop .done
    | .cancelled => ret .senderLoop .done

def scanLoop (last : Nat) : Cd :=
  look (fun t => t.nextId last) fun id =>
  need (fun t => t.has id = true) <| .lock (.chan id) <|
  onChan .step id (fun c =>
    ((Mux.senderScan c).map Prod.snd, ((Mux.senderScan c).map Prod.fst).getD c)) fun
  | some what =>
    .unlock (.chan id) <|
    .act .step (fun t (_ : Unit) t' => t' = { t with senderLastid := id }) fun _ =>
    .unlock .mux <| senderSend id what
  | none =>
    .unlock (.chan id) <| look (fun t => decide (id = t.senderLastid)) fun round =>
    if round then workWait else .jump (.scanLoop id)

def receiverBad : Cd := muxShutdown <| ret .receiverLoop .done

/-- The switch of `receiver_loop`. -/
def receiverSwitch (h : Header) : Cd :=
  match h with
  | .connect id _ _ =>
    chanGet id.toNat <|
    onChan (.packet h) id.toNat (fun c => ((), (receive c h).1)) fun _ =>
    .unlock (.chan id.toNat) <| senderWakeup <| .jump .receiver
  | .accept id _ _ =>
    chanGet id.toNat <|
    onChan (.packet h) id.toNat (fun c => (c.state, (receive c h).1)) fun st =>
    if st = .connecting then .unlock (.chan id.toNat) <| .jump .receiver
    else .unlock (.chan id.toNat) <| senderWakeup <| .jump .receiver
  | .reset _ => receiverBad
  | .window id _ =>
    chanGet id.toNat <|
    onChan (.packet h) id.toNat (fun c => (c.state, (receive c h).1)) fun st =>
    if st = .established ∨ st = .rdclosed then
      .unlock (.chan id.toNat) <| senderWakeup <| .jump .receiver
    else .unlock (.chan id.toNat) <| .jump .receiver
  | .data id len =>
    chanGet id.toNat <|
    onChan (.packet h) id.toNat (fun c => ((receive c h).2, (receive c h).1)) fun
    | .badproto => .unlock (.chan id.toNat) receiverBad
    | _ =>
      .unlock (.chan id.toNat) <| call fun
      | .ok =>
        .lock (.chan id.toNat) <|
        onChan .step id.toNat (fun c => ((), { c with recvbuf := c.recvbuf.grow len })) fun _ =>
        .unlock (.chan id.toNat) <| .jump .receiver
      | .failed => receiverBad
      | .cancelled => ret .receiverLoop .done
  | .close id =>
    chanGet id.toNat <|
    onChan (.packet h) id.toNat (fun c => ((receive c h).2, (receive c h).1)) fun
    | .badproto => receiverBad
    | _ => .unlock (.chan id.toNat) <| .jump .receiver

def receiverLoop : Cd :=
  arrival fun
  | .header h => receiverSwitch h
  | .unknown => receiverBad
  | .failed => receiverBad
  | .cancelled => ret .receiverLoop .done

def body : Label → Cd
  | .chanListen => .lock .mux <| .jump (.listenLoop 0)
  | .listenLoop i => listenLoop i
  | .chanAccept id => chanGet id <| .jump (.acceptLoop id)
  | .acceptLoop id => acceptLoop id
  | .chanConnect id => chanConnect id
  | .connectLoop id => connectLoop id
  | .chanRead id size => .lock (.chan id) <| .jump (.readLoop id size)
  | .readLoop id size => readLoop id size
  | .chanWrite id data => .lock (.chan id) <| .jump (.writeLoop id data)
  | .writeLoop id left => writeLoop id left
  | .chanClose id => chanClose id
  | .chanWait id => .lock (.chan id) <| .jump (.waitLoop id)
  | .waitLoop id => waitLoop id
  | .shutdown => muxShutdown .done
  | .sender => senderLoop
  | .workLoop => workLoop
  | .scanLoop id => scanLoop id
  | .receiver => receiverLoop

/-- What a thread that holds no lock may do. -/
def entry : Label → Bool
  | .listenLoop _ | .acceptLoop _ | .connectLoop _ | .readLoop _ _ | .writeLoop _ _
  | .waitLoop _ | .workLoop | .scanLoop _ => false
  | _ => true

/-- `chan_insert` finds room, and a `CLOSE` packet comes for a channel that is open. -/
def Regular : Op → Table → Prop
  | .insert, t => ∃ i < muxMaxchan, t.has i = false
  | .packet (.close id), t =>
    ∃ c, t.channels id.toNat = some c ∧ (c.state = .established ∨ c.state = .wrclosed)
  | _, _ => True

def rules (Guard : Op → Table → Prop) : Rules Table Op Lock Label :=
  ⟨body, fun p => entry p = true, Guard⟩

/-! ## The order of the locks -/

def rank : Lock → Nat
  | .mux => 0
  | .chan _ => 1

/-- Where a thread has no lock. -/
def Quiet : Op → Prop
  | .ret _ => True
  | .shutdown => True
  | _ => False

/-- The locks that a loop begins a round with. -/
def pre : Label → List Lock
  | .listenLoop _ | .workLoop | .scanLoop _ => [.mux]
  | .acceptLoop id | .connectLoop id | .readLoop id _ | .writeLoop id _ | .waitLoop id => [.chan id]
  | _ => []

def order : Order Op Lock Label := ⟨rank, Quiet, pre⟩

abbrev Fit (held : List Lock) (k : Cd) : Prop := Keeps order Regular held k

variable {held : List Lock} {k : Cd} {id : Nat}

@[simp] theorem fit_done : Fit held .done ↔ held = [] := Iff.rfl

@[simp] theorem fit_jump {p : Label} : Fit held (.jump p) ↔ held = pre p := Iff.rfl

@[simp] theorem fit_lock {l : Lock} :
    Fit held (.lock l k) ↔ (∀ l' ∈ held, rank l' < rank l) ∧ Fit (l :: held) k := Iff.rfl

@[simp] theorem fit_unlock {l : Lock} :
    Fit held (.unlock l k) ↔ l ∈ held ∧ Fit (held.erase l) k := Iff.rfl

theorem fit_step {β : Type} {r : Table → β → Table → Prop} {k : β → Cd} (h : ∀ b, Fit held (k b)) :
    Fit held (.act .step r k) := ⟨False.elim, fun _ b _ _ _ => h b⟩

@[simp] theorem fit_skip : Fit held (skip .step k) ↔ Fit held k :=
  ⟨fun h => h.2 Table.new () _ trivial rfl, fun h => fit_step fun _ => h⟩

theorem fit_ret {f : Fn} (h : Fit [] k) : Fit [] (ret f k) := ⟨fun _ => rfl, fun _ _ _ _ _ => h⟩

theorem fit_need {p : Table → Prop} (h : Fit held k) : Fit held (need p k) := fit_step fun _ => h

theorem fit_look {β : Type} {f : Table → β} {k : β → Cd} (h : ∀ b, Fit held (k b)) :
    Fit held (look f k) := fit_step h

theorem fit_onChan {β : Type} {f : Chan → β × Chan} {k : β → Cd} (h : ∀ b, Fit held (k b)) :
    Fit held (onChan .step id f k) := fit_step h

theorem fit_call {k : Outcome → Cd} (h : ∀ o, Fit held (k o)) : Fit held (call k) := fit_step h

/-- The switch on a packet looks at a channel in the state that `Regular` lets it be in. -/
theorem fit_packet {β : Type} {h : Header} {f : Chan → β × Chan} {k : β → Cd}
    (hk : ∀ t c, Regular (.packet h) t → t.channels id = some c → Fit held (k (f c).1)) :
    Fit held (onChan (.packet h) id f k) := by
  refine ⟨False.elim, fun t b t' ht hr => ?_⟩
  obtain ⟨c, hc, rfl, -⟩ := hr
  exact hk t c ht hc

/-! ## The functions keep it -/

theorem fit_senderWakeup (h : Fit [] k) : Fit [] (senderWakeup k) := by
  simpa [senderWakeup] using h

theorem fit_chanGet (h : Fit [.chan id] k) : Fit [] (chanGet id k) := by
  refine fit_need (fit_lock.mpr ⟨by simp, fit_step fun _ => ?_⟩)
  simpa [rank] using h

theorem fit_chanInsert {k : Option Nat → Cd} (h : ∀ r, Fit [] (k r)) : Fit [] (chanInsert k) := by
  refine fit_lock.mpr ⟨by simp, False.elim, fun t b t' ht hr => ?_⟩
  cases b with
  | some i => simpa using fit_ret (h (some i))
  | none =>
    -- there is room, so the loop does not come to its end
    obtain ⟨i, hi, hfree⟩ := ht
    have hnone := Option.map_eq_none_iff.mp hr.1.symm
    have hhas := Table.has_of_insertFrom hnone (Nat.zero_le i) (by omega)
    simp [hfree] at hhas

theorem fit_shutLoop (h : Fit [] k) : ∀ n i, Fit [.mux] (shutLoop k n i) := by
  intro n
  induction n with
  | zero => exact fun i => by simpa [shutLoop] using fit_ret h
  | succ n ih =>
    intro i
    refine fit_look fun there => ?_
    split
    · refine fit_lock.mpr ⟨by simp [rank], fit_onChan fun _ => ?_⟩
      simpa using ih (i + 1)
    · exact ih (i + 1)

theorem fit_muxShutdown (h : Fit [] k) : Fit [] (muxShutdown k) := by
  refine ⟨fun _ => rfl, fun _ _ _ _ _ => fit_lock.mpr ⟨by simp, fit_look fun closed => ?_⟩⟩
  split
  · simpa using fit_ret h
  · exact fit_step fun _ => fit_shutLoop h _ _

theorem fit_workWait : Fit [.mux] workWait := by
  refine fit_unlock.mpr ⟨by simp, fit_call fun o => ?_⟩
  cases o with
  | cancelled => simpa using fit_ret (fit_done.mpr rfl)
  | _ => simp [pre]

theorem fit_receiverBad : Fit [] receiverBad := fit_muxShutdown (fit_ret (fit_done.mpr rfl))

/-- A function that releases its channel and returns. -/
theorem fit_return {f : Fn} (h : held = [.chan id]) :
    Fit held (.unlock (.chan id) (ret f .done)) := by
  subst h
  simpa using fit_ret (fit_done.mpr rfl)

theorem fit_senderSend (id : Nat) (what : CF) : Fit [] (senderSend id what) := by
  refine fit_chanGet (fit_onChan fun pc => ?_)
  cases pc with
  | data i size =>
    refine fit_unlock.mpr ⟨by simp, fit_call fun o => ?_⟩
    cases o with
    | ok =>
      refine fit_lock.mpr ⟨by simp, fit_onChan fun _ => ?_⟩
      simp [pre]
    | failed => simpa using fit_muxShutdown (fit_ret (fit_done.mpr rfl))
    | cancelled => simpa using fit_ret (fit_done.mpr rfl)
  | _ =>
    refine fit_unlock.mpr ⟨by simp, fit_call fun o => ?_⟩
    cases o with
    | ok => simp [pre]
    | failed => simpa using fit_muxShutdown (fit_ret (fit_done.mpr rfl))
    | cancelled => simpa using fit_ret (fit_done.mpr rfl)

/-- What the channel is released for. -/
theorem fit_release (h : Fit [] k) : Fit [.chan id] (.unlock (.chan id) k) := by
  simpa using h

theorem fit_receiverSwitch (h : Header) : Fit [] (receiverSwitch h) := by
  have hagain : Fit [] (.jump .receiver) := fit_jump.mpr rfl
  cases h with
  | connect id mss win =>
    exact fit_chanGet (fit_packet fun _ _ _ _ => fit_release (fit_senderWakeup hagain))
  | accept id mss win =>
    refine fit_chanGet (fit_packet fun _ _ _ _ => ?_)
    split
    · exact fit_release hagain
    · exact fit_release (fit_senderWakeup hagain)
  | reset id => exact fit_receiverBad
  | window id win =>
    refine fit_chanGet (fit_packet fun _ _ _ _ => ?_)
    split
    · exact fit_release (fit_senderWakeup hagain)
    · exact fit_release hagain
  | data id len =>
    refine fit_chanGet (fit_packet fun _ _ _ _ => ?_)
    split
    · exact fit_release fit_receiverBad
    · refine fit_release (fit_call fun o => ?_)
      cases o with
      | ok =>
        refine fit_lock.mpr ⟨by simp, fit_onChan fun _ => ?_⟩
        exact fit_release hagain
      | failed => exact fit_receiverBad
      | cancelled => exact fit_ret (fit_done.mpr rfl)
  | close id =>
    refine fit_chanGet (fit_packet fun t c ht hc => ?_)
    -- an open channel takes a `CLOSE`
    obtain ⟨c', hc', hst⟩ := ht
    obtain rfl : c = c' := Option.some.inj (hc.symm.trans hc')
    obtain hst | hst := hst
    · simpa [receive, hst] using hagain
    · simpa [receive, hst] using hagain

theorem fit_body (p : Label) : Fit (pre p) (body p) := by
  cases p with
  | chanListen => simp [body, pre]
  | listenLoop i =>
    refine fit_look fun more => ?_
    split
    · refine fit_need (fit_lock.mpr ⟨by simp [pre, rank], fit_onChan fun st => ?_⟩)
      split
      · refine fit_unlock.mpr ⟨by simp [pre], fit_onChan fun _ => ?_⟩
        simpa [pre] using fit_ret (fit_done.mpr rfl)
      · simp [pre]
    · refine fit_unlock.mpr ⟨by simp [pre], ?_⟩
      exact fit_chanInsert fun _ => fit_ret (fit_done.mpr rfl)
  | chanAccept id => exact fit_chanGet (fit_jump.mpr rfl)
  | acceptLoop id =>
    refine fit_onChan fun st => ?_
    split
    · simp [condWait, pre]
    · simpa [pre] using fit_ret (fit_done.mpr rfl)
  | chanConnect id =>
    refine fit_chanGet (fit_onChan fun st => ?_)
    split
    · refine fit_unlock.mpr ⟨by simp, ?_⟩
      simpa using fit_senderWakeup (by simp [pre])
    · simpa using fit_ret (fit_done.mpr rfl)
  | connectLoop id =>
    refine fit_onChan fun st => ?_
    split
    · simp [condWait, pre]
    · simpa [pre] using fit_ret (fit_done.mpr rfl)
  | chanRead id size => simp [body, pre]
  | readLoop id size =>
    refine fit_onChan fun st => ?_
    dsimp only
    split
    · exact fit_return rfl
    · split
      · exact fit_return rfl
      · split
        · refine fit_onChan fun _ => fit_unlock.mpr ⟨by simp [pre], ?_⟩
          simpa [pre] using fit_senderWakeup (fit_ret (fit_done.mpr rfl))
        · simp [condWait, pre]
  | chanWrite id data => simp [body, pre]
  | writeLoop id left =>
    show Fit _ (writeLoop id left)
    unfold writeLoop
    split
    · refine fit_unlock.mpr ⟨by simp [pre], ?_⟩
      simpa [pre] using fit_senderWakeup (fit_ret (fit_done.mpr rfl))
    · refine fit_onChan fun st => ?_
      dsimp only
      split
      · exact fit_return rfl
      · split
        · exact fit_onChan fun _ => fit_jump.mpr rfl
        · simp [condWait, pre]
  | chanClose id =>
    refine fit_lock.mpr ⟨by simp [pre], fit_onChan fun st => ?_⟩
    split
    · refine fit_unlock.mpr ⟨by simp, ?_⟩
      simpa [pre] using fit_senderWakeup (fit_ret (fit_done.mpr rfl))
    · exact fit_return rfl
  | chanWait id => simp [body, pre]
  | waitLoop id =>
    refine fit_onChan fun st => ?_
    split
    · exact fit_return rfl
    · simp [condWait, pre]
  | shutdown => exact fit_muxShutdown (fit_done.mpr rfl)
  | sender => simp [body, senderLoop, pre]
  | workLoop =>
    refine fit_look fun p => ?_
    dsimp only
    split
    · exact fit_workWait
    · exact fit_jump.mpr rfl
  | scanLoop last =>
    refine fit_look fun id => fit_need (fit_lock.mpr ⟨by simp [pre, rank], fit_onChan fun o => ?_⟩)
    cases o with
    | some what =>
      refine fit_unlock.mpr ⟨by simp [pre], fit_step fun _ => ?_⟩
      simpa [pre] using fit_senderSend id what
    | none =>
      refine fit_unlock.mpr ⟨by simp [pre], fit_look fun round => ?_⟩
      rw [List.erase_cons_head]
      split
      · exact fit_workWait
      · exact fit_jump.mpr rfl
  | receiver =>
    refine fit_step fun r => ?_
    cases r with
    | header h => exact fit_receiverSwitch h
    | cancelled => exact fit_ret (fit_done.mpr rfl)
    | _ => exact fit_receiverBad

theorem ordered : (rules Regular).Ordered order where
  body := fit_body
  entry p hp := by cases p <;> first | rfl | cases hp

end Locks

/-- No function returns, and `mux_shutdown` is not called, with a lock; no thread takes the lock of
the multiplexer when it has that of a channel; and none waits for a lock that it has. -/
structure Disciplined {T : Type} (s : State Table Op Lock Label T) : Prop where
  ret : ∀ t f, (s.code t).next = some (.ret f) → ∀ l, s.owner l ≠ some t
  shutdown : ∀ t, (s.code t).next = some .shutdown → ∀ l, s.owner l ≠ some t
  order : ∀ t, (s.code t).wants = some .mux → ∀ id, s.owner (.chan id) ≠ some t
  self : ∀ t l, (s.code t).wants = some l → s.owner l ≠ some t

theorem lock_discipline {T : Type} [DecidableEq T] {s : State Table Op Lock Label T}
    (h : Reach (Locks.rules Locks.Regular) (.start Table.new) s) : Disciplined s :=
  have ht := h.tidy Locks.ordered
  { ret := fun _ _ hc => ht.of_quiet hc trivial
    shutdown := fun _ hc => ht.of_quiet hc trivial
    order := fun _ hw _ ho => absurd (ht.lt_of_wants hw ho) (Nat.not_lt_zero _)
    self := fun _ _ hw => ht.not_self hw }

/-- `chan_listen` has the lock of the multiplexer. -/
theorem lock_discipline_listen :
    Disciplined ((((State.start Table.new : State Table Op Lock Label Unit).goto ()
      (Locks.body .chanListen)).give .mux (some ())).goto () (.jump (.listenLoop 0))) :=
  lock_discipline (.step () (.step () .init
    (.call (p := Label.chanListen) rfl rfl)) (.lock rfl rfl))

/-- The receiver gets a `CLOSE` packet for a channel that is not open: it calls `mux_shutdown`
with the lock of the channel, and waits for that lock there. -/
theorem lock_close :
    ∃ s : State Table Op Lock Label Unit,
      Reach (Locks.rules fun _ _ => True) (.start Table.new) s ∧
        (s.code ()).wants = some (.chan 0) ∧ s.owner (.chan 0) = some () ∧ ¬ Disciplined s := by
  have h : Reach (Locks.rules fun _ _ => True)
      (.start Table.new : State Table Op Lock Label Unit) (.start Table.new) := .init
  have h := h.step () (.call (p := Label.receiver) rfl rfl)
  have h := h.step () (.act (b := Locks.Arrival.header (.close 0)) rfl trivial rfl)
  -- `chan_get`
  have h := h.step () (.act (b := ()) rfl trivial ⟨by decide, rfl⟩)
  have h := h.step () (.lock rfl rfl)
  have h := h.step () (.act (b := ()) rfl trivial ⟨Chan.new, rfl⟩)
  have h := h.step () (.lock rfl rfl)
  have h := h.step () (.unlock rfl rfl)
  have h := h.step () (.act (b := ReceiverPc.badproto) rfl trivial ⟨Chan.new, rfl, rfl, rfl⟩)
  -- `mux_shutdown`
  have h := h.step () (.act (b := ()) rfl trivial rfl)
  have h := h.step () (.lock rfl rfl)
  have h := h.step () (.act (b := false) rfl trivial ⟨rfl, rfl⟩)
  have h := h.step () (.act (b := ()) rfl trivial rfl)
  have h := h.step () (.act (b := true) rfl trivial ⟨rfl, rfl⟩)
  exact ⟨_, h, rfl, rfl, fun hd => hd.self () (.chan 0) rfl rfl⟩

/-- Of the threads that hold locks, one can go on. -/
theorem locks_not_stuck {T : Type} [DecidableEq T] {s : State Table Op Lock Label T} {l : Lock}
    {t : T} (h : Reach (Locks.rules Locks.Regular) (.start Table.new) s)
    (ho : s.owner l = some t) :
    ∃ u l', s.owner l' = some u ∧ ∀ l'', (s.code u).wants = some l'' → s.owner l'' = none :=
  (h.tidy Locks.ordered).exists_awake (N := 1)
    (fun l => by cases l <;> simp [Locks.order, Locks.rank]) ho

end Csup.Mux
