import Csup.Mux.Talk

/-!
# Waking up the sender

The threads of an endpoint, one step for each stretch under a lock. What a channel
lock guards is done in one step; the multiplexer lock, which the sender keeps while it
goes from channel to channel in `sender_scan`, is free when it is not there. A wait
for a condition may end at any time, as it may without a signal.

* `no_lost_wakeup`: when the sender sleeps and no thread is on its way to wake it,
  there is nothing to send, in runs whose steps are all `Careful`;
* `not_woken`: there is, when `chan_write` went to sleep for room before it came to
  `sender_wakeup`;
* `not_reset`: there is, when a packet came for a channel that is not in use.
-/

namespace Csup.Mux

open Csup.Framework

/-- Where the sender thread is. -/
inductive SenderAt
  /-- about to call `sender_waitforwork` -/
  | start
  /-- in `sender_scan`, with the channels it has still to look at -/
  | scan (left : List ChanId)
  /-- waiting for `sender_newwork` -/
  | blocked
  /-- woken up, and without the lock yet -/
  | woken
  /-- in `sender_loop`, with something to send -/
  | work (pc : SenderPc)

/-- The threads that wake it up. -/
inductive Thread
  | receiver
  | user (n : Nat)
  deriving DecidableEq

/-- Where they are. -/
inductive ThreadPc
  /-- outside of the calls, or about to read a header -/
  | run
  /-- in `receiver_loop`, about to read the data of a packet -/
  | data (id : ChanId) (len : Nat)
  | filled (id : ChanId) (len : Nat)
  /-- the receiver has left its loop -/
  | gone
  /-- in `chan_write`, waiting for `wrready` with `left` still to be written -/
  | wrwait (id : ChanId) (left : List Byte)
  /-- about to call `sender_wakeup` -/
  | wakeup
  /-- in `sender_wakeup`, about to signal `sender_newwork` -/
  | signal

structure Threads where
  chans : ChanId → Chan
  sender : SenderAt
  /-- `sender_waiting` -/
  waiting : Bool
  pc : Thread → ThreadPc

def Threads.init : Threads := ⟨fun _ => Chan.new, .start, false, fun _ => .run⟩

def Threads.setChan (s : Threads) (id : ChanId) (c : Chan) : Threads :=
  { s with chans := Function.update s.chans id c }

def Threads.setPc (s : Threads) (t : Thread) (pc : ThreadPc) : Threads :=
  { s with pc := Function.update s.pc t pc }

/-- Nobody has the multiplexer lock. -/
def Threads.MuxFree (s : Threads) : Prop := ∀ left, s.sender ≠ .scan left

/-- `chan_write` from where it has the lock of the channel to where it gives it up. -/
def chanWriteLocked (c : Chan) (id : ChanId) (data : List Byte) : Chan × ThreadPc :=
  if data = [] then (c, .wakeup)
  else if c.state ≠ .established ∧ c.state ≠ .rdclosed then (c, .run)
  else
    match chanWrite c data with
    | some (c', put) =>
      if put.length < data.length then (c', .wrwait id (data.drop put.length)) else (c', .wakeup)
    | none => (c, .wrwait id data)

/-- The packets for which the receiver calls `sender_wakeup`. -/
def wakesSender (c : Chan) : Header → Bool
  | .connect .. => true
  | .accept .. => decide (c.state ≠ .connecting)
  | .window .. => decide (c.state = .established ∨ c.state = .rdclosed)
  | _ => false

/-- Where the receiver goes with a packet. -/
def receiverPc (c : Chan) (hd : Header) : ThreadPc :=
  match (receive c hd).2 with
  | .idle => if wakesSender c hd then .wakeup else .run
  | .data id len => .data id len
  | .filled id len => .filled id len
  | .badproto => .gone

/-- What matters of a step. -/
inductive Move
  | write (id : ChanId) (data : List Byte)
  | header (hd : Header)
  | other

/-- The steps. A call that has to wait for `rdready` is none until it does not. -/
inductive Threads.Step (s : Threads) : Move → Threads → Prop
  | listen (n : Nat) (id : ChanId) {c : Chan} : s.pc (.user n) = .run → s.MuxFree →
    chanListen (s.chans id) = some c → Step s .other (s.setChan id c)
  | connect (n : Nat) (id : ChanId) {c : Chan} : s.pc (.user n) = .run → s.MuxFree →
    chanConnect (s.chans id) = some c →
    Step s .other ((s.setChan id c).setPc (.user n) .wakeup)
  | close (n : Nat) (id : ChanId) : s.pc (.user n) = .run →
    (s.chans id).state = .established ∨ (s.chans id).state = .rdclosed →
    Step s .other ((s.setChan id (chanClose (s.chans id))).setPc (.user n) .wakeup)
  | read (n : Nat) (id : ChanId) {c : Chan} (size : Nat) {data : List Byte} :
    s.pc (.user n) = .run → chanRead (s.chans id) size = some (c, data) →
    Step s .other ((s.setChan id c).setPc (.user n) .wakeup)
  | write (n : Nat) (id : ChanId) (data : List Byte) : s.pc (.user n) = .run →
    Step s (.write id data) ((s.setChan id (chanWriteLocked (s.chans id) id data).1).setPc (.user n)
      (chanWriteLocked (s.chans id) id data).2)
  | writeOn (n : Nat) {id : ChanId} {left : List Byte} : s.pc (.user n) = .wrwait id left →
    Step s (.write id left) ((s.setChan id (chanWriteLocked (s.chans id) id left).1).setPc (.user n)
      (chanWriteLocked (s.chans id) id left).2)
  | header (hd : Header) : s.pc .receiver = .run → s.MuxFree →
    Step s (.header hd) ((s.setChan hd.id (receive (s.chans hd.id) hd).1).setPc .receiver
      (receiverPc (s.chans hd.id) hd))
  | unknown : s.pc .receiver = .run → Step s .other (s.setPc .receiver .gone)
  | fill {id : ChanId} {len : Nat} (data : List Byte) : s.pc .receiver = .data id len →
    data.length = len →
    Step s .other
      ((s.setChan id { s.chans id with recvbuf := (s.chans id).recvbuf.fill data }).setPc .receiver
        (.filled id len))
  | filled {id : ChanId} {len : Nat} : s.pc .receiver = .filled id len →
    Step s .other
      ((s.setChan id { s.chans id with recvbuf := (s.chans id).recvbuf.grow len }).setPc .receiver .run)
  | wakeup {t : Thread} : s.pc t = .wakeup → s.MuxFree →
    Step s .other (s.setPc t (if s.waiting then .signal else .run))
  | signal {t : Thread} : s.pc t = .signal → s.sender = .blocked →
    Step s .other { s.setPc t .run with sender := .woken }
  | signalNone {t : Thread} : s.pc t = .signal → s.sender ≠ .blocked →
    Step s .other (s.setPc t .run)
  | spurious : s.sender = .blocked → Step s .other { s with sender := .woken }
  | scanStart (left : List ChanId) : s.sender = .start ∨ s.sender = .woken →
    (∀ id, (s.chans id).state ≠ .unused → id ∈ left) →
    Step s .other { s with sender := .scan left }
  | scanHit {id : ChanId} {left : List ChanId} {c : Chan} {what : CF} :
    s.sender = .scan (id :: left) → senderScan (s.chans id) = some (c, what) →
    Step s .other { s.setChan id c with sender := .work (.picked id what), waiting := false }
  | scanMiss {id : ChanId} {left : List ChanId} : s.sender = .scan (id :: left) →
    senderScan (s.chans id) = none → Step s .other { s with sender := .scan left }
  | scanEnd : s.sender = .scan [] → Step s .other { s with sender := .blocked, waiting := true }
  | prepare {id : ChanId} {what : CF} : s.sender = .work (.picked id what) →
    Step s .other { s with sender := .work (senderPrepare (s.chans id) id what) }
  | sendHdr {hd : Header} : s.sender = .work (.hdr hd) → Step s .other { s with sender := .start }
  | sendData {id : ChanId} {size : Nat} : s.sender = .work (.data id size) →
    Step s .other { s with sender := .work (.sent id size) }
  | advance {id : ChanId} {size : Nat} : s.sender = .work (.sent id size) →
    Step s .other { s.setChan id (senderAdvance (s.chans id) size) with sender := .start }

/-- A run whose steps are all `ok`. -/
inductive Threads.Run (ok : Threads → Move → Prop) : Threads → Prop
  | init : Run ok Threads.init
  | step {s s' : Threads} {m : Move} : Run ok s → s.Step m s' → ok s m → Run ok s'

/-! ## Work -/

/-- A pending flag, or data and a window for it. -/
def Chan.HasWork (c : Chan) : Prop := c.flags ≠ .none ∨ c.hasData = true

/-- The sender sees what there is to be done for a channel before it sleeps. -/
def SenderAt.Sees (id : ChanId) : SenderAt → Prop
  | scan left => id ∈ left
  | blocked => False
  | _ => True

/-- It sees it, or a thread is on its way to wake it up. -/
def Threads.Attended (s : Threads) (id : ChanId) : Prop :=
  s.sender.Sees id ∨ (∃ t, s.pc t = .wakeup) ∨ s.sender = .blocked ∧ ∃ t, s.pc t = .signal

/-- `chan_write` fills the send buffer and waits for room. -/
def WritesPart (c : Chan) (data : List Byte) : Prop :=
  (c.state = .established ∨ c.state = .rdclosed) ∧ 0 < c.sendbuf.avail ∧ c.sendbuf.avail < data.length

/-- A `chan_write` that has to wait for room leaves a channel that has no window or is
attended to; and no `CONNECT` or `ACCEPT` comes for a channel that is not in use. -/
def Careful (s : Threads) : Move → Prop
  | .write id data => WritesPart (s.chans id) data →
      (s.chans id).sendseq = (s.chans id).sendwin ∨ s.Attended id
  | .header hd => hd.kind = .connect ∨ hd.kind = .accept → (s.chans hd.id).state ≠ .unused
  | .other => True

/-- Nobody is on the way to wake up the sender. -/
def Threads.Still (s : Threads) : Prop := ∀ t, s.pc t ≠ .wakeup ∧ s.pc t ≠ .signal

/-- What holds of a channel: it has no flags when it is not in use, and nothing to send
before it is open. -/
structure Chan.Plain (c : Chan) : Prop where
  unused : c.state = .unused → c.flags = .none
  idle : ¬CF.AllowedIn .data c.state → c.sendbuf.count = 0
  data : c.flags.data = true → CF.AllowedIn .data c.state

/-- The sender is sending data of a channel. -/
def SenderAt.Feeds (id : ChanId) : SenderAt → Prop
  | work (.picked i what) => i = id ∧ what = .data
  | work (.data i _) => i = id
  | work (.sent i _) => i = id
  | _ => False

structure Awake (s : Threads) : Prop where
  waiting : s.sender = .blocked → s.waiting = true
  plain : ∀ id, (s.chans id).Plain
  feeds : ∀ id, s.sender.Feeds id → CF.AllowedIn .data (s.chans id).state
  work : ∀ id, (s.chans id).HasWork → s.Attended id

variable {s s' : Threads} {id : ChanId} {c c' : Chan} {t : Thread} {pc : ThreadPc}

theorem hasData_of_idle (h : c.Plain) (hs : ¬CF.AllowedIn .data c.state) : c.hasData = false := by
  simp [Chan.hasData, h.idle hs]

theorem not_hasWork_unused (h : c.Plain) (hs : c.state = .unused) : ¬c.HasWork := by
  rintro (hf | hd)
  · exact hf (h.unused hs)
  · rw [hasData_of_idle h fun h0 => h0.1 hs] at hd
    cases hd

theorem flags_eq_none {f : Flags} (h : ∀ w, f.get w = false) : f = .none := by
  have h₁ := h .connect
  have h₂ := h .accept
  have h₃ := h .reset
  have h₄ := h .window
  have h₅ := h .data
  have h₆ := h .close
  cases f
  simp_all [Flags.get, Flags.none]

theorem pick_eq_none {f : Flags} (h : f.pick = none) (w : CF) : f.get w = false := by
  unfold Flags.pick at h
  repeat' split at h
  all_goals cases w <;> simp_all [Flags.get]

/-- The sender finds nothing in a channel. -/
theorem not_hasWork_of_scan (h : c.Plain) (hs : senderScan c = none) : ¬c.HasWork := by
  by_cases hu : c.state = .unused
  · exact not_hasWork_unused h hu
  · unfold senderScan at hs
    rw [if_neg hu, Option.map_eq_none_iff] at hs
    have hget : ∀ w, c.flags.get w = false ∧ (w = .data → c.hasData = false) := fun w => by
      have := pick_eq_none hs w
      rw [get_scanFlags] at this
      simp_all
    rintro (hf | hd)
    · exact hf (flags_eq_none fun w => (hget w).1)
    · rw [(hget .data).2 rfl] at hd
      cases hd

/-! ## Channels -/

theorem Chan.Plain.same (h : c.Plain) (hs : c'.state = c.state) (hf : c'.flags = c.flags)
    (hb : c'.sendbuf = c.sendbuf) : c'.Plain :=
  ⟨hs ▸ hf ▸ h.unused, hs ▸ hb ▸ h.idle, hs ▸ hf ▸ h.data⟩

/-- An open channel. -/
theorem Chan.Plain.opened (hs : CF.AllowedIn .data c.state) : c.Plain :=
  ⟨fun h => absurd h hs.1, fun h => absurd hs h, fun _ => hs⟩

theorem hasWork_congr (hf : c'.flags = c.flags) (hb : c'.sendbuf = c.sendbuf)
    (hseq : c'.sendseq = c.sendseq) (hwin : c'.sendwin = c.sendwin) : c'.HasWork ↔ c.HasWork := by
  unfold Chan.HasWork Chan.hasData
  rw [hf, hb, hseq, hwin]

/-- Flags that do not stand for data are set in a channel that is in use. -/
theorem Chan.Plain.flags {f : Flags} (h : c.Plain) (hs : c.state ≠ .unused) (hf : f.data = c.flags.data) :
    Chan.Plain { c with flags := f } :=
  ⟨fun h0 => absurd h0 hs, h.idle, fun h0 => h.data (hf ▸ h0)⟩

/-- A packet comes. -/
theorem Chan.Plain.receive {hd : Header} (h : c.Plain)
    (hc : hd.kind = .connect ∨ hd.kind = .accept → c.state ≠ .unused) :
    (receive c hd).1.Plain := by
  unfold Mux.receive
  cases hd with
  | connect i mss w =>
    dsimp only
    split
    · exact .opened (by simp [CF.AllowedIn])
    · exact h.flags (hc (.inl rfl)) rfl
  | accept i mss w =>
    dsimp only
    split
    · exact .opened (by simp [CF.AllowedIn])
    · exact h.flags (hc (.inr rfl)) rfl
  | reset i => exact h
  | data i len =>
    dsimp only
    split
    · exact h
    · exact h
  | window i w =>
    dsimp only
    split
    · exact h.same rfl rfl rfl
    · exact h
  | close i =>
    dsimp only
    split
    · exact .opened (by simp [CF.AllowedIn])
    · exact .opened (by simp [CF.AllowedIn])
    · exact h

/-- The sender picks data of a channel that is open. -/
theorem Chan.Plain.scan {what : CF} (h : c.Plain) (hs : senderScan c = some (c', what)) :
    c'.Plain ∧ (what = .data → CF.AllowedIn .data c'.state) := by
  obtain ⟨hu, hp, rfl⟩ := senderScan_spec hs
  have hdata : c.scanFlags.get .data = true → CF.AllowedIn .data c.state := fun h0 => by
    rw [get_scanFlags, Bool.or_eq_true] at h0
    rcases h0 with h0 | h0
    · exact h.data h0
    · by_contra hn
      simp [hasData_of_idle h hn] at h0
  refine ⟨⟨fun h0 => absurd h0 hu, h.idle, fun h0 => hdata ?_⟩, fun hw => hdata (hw ▸ (pick_spec hp).1)⟩
  have h1 : (c.scanFlags.clear what).get .data = true := h0
  rw [get_clear, Bool.and_eq_true] at h1
  exact h1.1

theorem receive_opened (hd : Header) (h : CF.AllowedIn .data c.state) :
    CF.AllowedIn .data (receive c hd).1.state := by
  unfold Mux.receive
  cases hd <;> dsimp only <;> repeat' split
  all_goals first | exact h | simp [CF.AllowedIn]

/-- A packet that makes work wakes the sender. -/
theorem receive_hasWork {hd : Header} (h : c.Plain) (hr : receiverPc c hd ≠ .wakeup)
    (hw : (receive c hd).1.HasWork) : c.HasWork := by
  cases hd with
  | connect i mss w =>
    by_cases hs : c.state = .listening <;> simp [receiverPc, Mux.receive, wakesSender, hs] at hr
  | accept i mss w =>
    by_cases hs : c.state = .connecting
    · -- nothing is written before it is open
      simp only [Mux.receive, hs, if_true] at hw
      refine hw.imp (fun h0 => h0) fun hd => ?_
      simp [Chan.hasData, h.idle (fun h0 => h0.2.2 hs)] at hd
    · simp [receiverPc, Mux.receive, wakesSender, hs] at hr
  | reset i => exact hw
  | data i len =>
    simp only [Mux.receive] at hw
    split at hw <;> exact hw
  | window i w =>
    by_cases hs : c.state = .established ∨ c.state = .rdclosed
    · simp [receiverPc, Mux.receive, wakesSender, hs] at hr
    · simpa only [Mux.receive, hs, if_false] using hw
  | close i =>
    simp only [Mux.receive] at hw
    split at hw <;> exact hw

/-- `chan_write` leaves work when it waits for room, or a thread that wakes the sender. -/
theorem chanWriteLocked_spec (h : c.Plain) (id : ChanId) (data : List Byte) :
    (chanWriteLocked c id data).1.Plain ∧
      (CF.AllowedIn .data c.state → CF.AllowedIn .data (chanWriteLocked c id data).1.state) ∧
      ((chanWriteLocked c id data).2 = .wakeup ∨
        ((chanWriteLocked c id data).1.HasWork → c.HasWork ∨
          WritesPart c data ∧ c.sendseq ≠ c.sendwin)) := by
  unfold chanWriteLocked
  split
  · exact ⟨h, fun h0 => h0, .inl rfl⟩
  · rename_i hne
    split
    · exact ⟨h, fun h0 => h0, .inr .inl⟩
    · rename_i hs
      have hs' : c.state = .established ∨ c.state = .rdclosed := by
        by_contra h0
        exact hs (not_or.mp h0)
      cases hw : chanWrite c data with
      | none => exact ⟨h, fun h0 => h0, .inr .inl⟩
      | some r =>
        obtain ⟨c', put⟩ := r
        unfold chanWrite at hw
        split at hw
        · rename_i hcond
          obtain ⟨rfl, rfl⟩ := Prod.mk.inj (Option.some.inj hw)
          dsimp only
          have hopen : CF.AllowedIn .data c.state := by
            rcases hs' with h0 | h0 <;> simp [CF.AllowedIn, h0]
          split
          · rename_i hlt
            refine ⟨.opened hopen, fun _ => hopen, .inr fun hwork => ?_⟩
            rw [List.length_take] at hlt
            rcases hwork with hf | hd
            · exact .inl (.inl hf)
            · refine .inr ⟨⟨hs', hcond.2.1, by omega⟩, ?_⟩
              intro h0
              simp [Chan.hasData, h0] at hd
          · exact ⟨.opened hopen, fun _ => hopen, .inl rfl⟩
        · cases hw

/-- A write that fills the send buffer. -/
theorem chanWriteLocked_part {data : List Byte} (id : ChanId) (h : WritesPart c data) :
    chanWriteLocked c id data =
      ({ c with sendbuf := c.sendbuf.put (data.take c.sendbuf.avail) },
        .wrwait id (data.drop c.sendbuf.avail)) := by
  obtain ⟨hs, h0, hlt⟩ := h
  have hne : data ≠ [] := by
    rintro rfl
    exact Nat.not_lt_zero _ hlt
  have hn : min c.sendbuf.avail data.length = c.sendbuf.avail := by omega
  have hlen : (data.take c.sendbuf.avail).length = c.sendbuf.avail := by
    rw [List.length_take]
    exact hn
  have hw : chanWrite c data = some ({ c with sendbuf := c.sendbuf.put (data.take c.sendbuf.avail) },
      data.take c.sendbuf.avail) := by
    unfold chanWrite
    rw [if_pos ⟨hs, h0, hne⟩]
    simp only [hn]
  unfold chanWriteLocked
  rw [if_neg hne, if_neg fun h1 => hs.elim h1.1 h1.2, hw]
  dsimp only
  rw [hlen, if_pos hlt]

/-! ## Attention -/

theorem attended_wakeup (h : s.pc t = .wakeup) (id : ChanId) : s.Attended id := .inr (.inl ⟨t, h⟩)

/-- A thread that is not on its way to wake the sender goes on. -/
theorem Threads.Attended.setPc (h : s.Attended id) (hw : s.pc t ≠ .wakeup) (hs : s.pc t ≠ .signal) :
    (s.setPc t pc).Attended id := by
  have keep : ∀ {t'}, t' ≠ t → (s.setPc t pc).pc t' = s.pc t' := fun h => Function.update_of_ne h ..
  rcases h with h | ⟨t', h⟩ | ⟨hb, t', h⟩
  · exact .inl h
  · have hne : t' ≠ t := fun h0 => hw (h0 ▸ h)
    exact .inr (.inl ⟨t', (keep hne).trans h⟩)
  · have hne : t' ≠ t := fun h0 => hs (h0 ▸ h)
    exact .inr (.inr ⟨hb, t', (keep hne).trans h⟩)

@[simp] theorem setChan_self : (s.setChan id c).chans id = c := by
  unfold Threads.setChan
  exact Function.update_self id c s.chans

theorem update_spec {P : ChanId → Chan → Prop} (h : ∀ j, P j (s.chans j)) (hc : P id c) (j : ChanId) :
    P j ((s.setChan id c).chans j) := by
  show P j (Function.update s.chans id c j)
  by_cases hj : j = id
  · rw [hj, Function.update_self]
    exact hc
  · rw [Function.update_of_ne hj]
    exact h j

/-- A thread goes on after a step on a channel; it is on its way to wake the sender when
it made work. -/
theorem Awake.chan (h : Awake s) (hw : s.pc t ≠ .wakeup) (hs : s.pc t ≠ .signal) (hp : c.Plain)
    (hopen : CF.AllowedIn .data (s.chans id).state → CF.AllowedIn .data c.state)
    (hwork : pc = .wakeup ∨ (c.HasWork → s.Attended id)) :
    Awake ((s.setChan id c).setPc t pc) := by
  refine ⟨h.waiting, update_spec h.plain hp, fun j hj => ?_, fun j hj => ?_⟩
  · exact update_spec (P := fun j c => s.sender.Feeds j → CF.AllowedIn .data c.state) h.feeds
      (fun hf => hopen (h.feeds id hf)) j hj
  · rcases hwork with rfl | hwork
    · exact attended_wakeup (t := t) (Function.update_self ..) j
    · have hold : s.Attended j :=
        update_spec (P := fun j c => c.HasWork → s.Attended j) h.work hwork j hj
      exact Threads.Attended.setPc (s := s.setChan id c) hold hw hs

/-- A thread that writes, or that goes on writing. -/
theorem Awake.write {data : List Byte} (h : Awake s) (hw : s.pc t ≠ .wakeup)
    (hs : s.pc t ≠ .signal) (hc : Careful s (.write id data)) :
    Awake ((s.setChan id (chanWriteLocked (s.chans id) id data).1).setPc t
      (chanWriteLocked (s.chans id) id data).2) := by
  obtain ⟨hp, hopen, hwork⟩ := chanWriteLocked_spec (h.plain id) id data
  refine h.chan hw hs hp hopen (hwork.imp_right fun h0 hw => ?_)
  rcases h0 hw with h0 | ⟨h0, hne⟩
  · exact h.work id h0
  · exact (hc h0).resolve_left hne

/-- A sender that does not sleep, and sees what there is to be done. -/
theorem awake_of_sees (hb : s.sender ≠ .blocked) (hp : ∀ id, (s.chans id).Plain)
    (hf : ∀ id, s.sender.Feeds id → CF.AllowedIn .data (s.chans id).state)
    (hs : ∀ id, (s.chans id).HasWork → s.sender.Sees id) : Awake s :=
  ⟨fun h0 => absurd h0 hb, hp, hf, fun id hid => .inl (hs id hid)⟩

theorem sees_of_free (hfree : s.MuxFree) (hb : s.sender ≠ .blocked) (id : ChanId) :
    s.sender.Sees id := by
  cases hs : s.sender with
  | scan left => exact absurd hs (hfree left)
  | blocked => exact absurd hs hb
  | _ => trivial

theorem setPc_self (h : s.pc t = pc) : s.setPc t pc = s := by
  rw [Threads.setPc, ← h, Function.update_eq_self]

/-- What is left to be sent when the sender prepares a packet. -/
theorem feeds_prepare {what : CF} {j : ChanId}
    (h : SenderAt.Feeds j (.work (senderPrepare c id what))) : j = id ∧ what = .data := by
  cases what with
  | data =>
    unfold senderPrepare at h
    dsimp only at h
    split at h
    · exact ⟨h.symm, rfl⟩
    · cases h
  | _ => cases h

/-- A step of the sender in `sender_loop`. -/
theorem Awake.work' {pc : SenderPc} (h : Awake s)
    (hf : ∀ id, SenderAt.Feeds id (.work pc) → s.sender.Feeds id) :
    Awake { s with sender := .work pc } :=
  awake_of_sees (fun h0 => by cases h0) h.plain (fun id hid => h.feeds id (hf id hid))
    fun _ _ => trivial

theorem Awake.step {m : Move} (h : Awake s) (hs : s.Step m s') (hc : Careful s m) : Awake s' := by
  have run : ∀ {t : Thread}, s.pc t = .run → s.pc t ≠ .wakeup ∧ s.pc t ≠ .signal := fun hr => by
    simp [hr]
  cases hs with
  | @listen n id c hr _ hl =>
    unfold chanListen at hl
    split at hl
    · rename_i hu
      obtain rfl := Option.some.inj hl
      have hidle : ¬CF.AllowedIn .data (s.chans id).state := fun h0 => h0.1 hu
      rw [← setPc_self (s := s.setChan id _) hr]
      refine h.chan (run hr).1 (run hr).2 ⟨fun h0 => (by cases h0), fun _ => (h.plain id).idle hidle,
        fun h0 => absurd ((h.plain id).data h0) hidle⟩ (fun h0 => absurd h0 hidle) (.inr fun hw => ?_)
      exact h.work id ((hasWork_congr rfl rfl rfl rfl).mp hw)
    · cases hl
  | @connect n id c hr _ hl =>
    unfold chanConnect at hl
    split at hl
    · rename_i hu
      obtain rfl := Option.some.inj hl
      have hidle : ¬CF.AllowedIn .data (s.chans id).state := fun h0 => h0.1 hu
      exact h.chan (run hr).1 (run hr).2 ⟨fun h0 => (by cases h0), fun _ => (h.plain id).idle hidle,
        fun h0 => absurd ((h.plain id).data h0) hidle⟩ (fun h0 => absurd h0 hidle) (.inl rfl)
    · cases hl
  | close n id hr hs =>
    refine h.chan (run hr).1 (run hr).2 ?_ ?_ (.inl rfl)
    · rcases hs with hs | hs <;> exact .opened (by simp [chanClose, hs, CF.AllowedIn])
    · rcases hs with hs | hs <;> simp [chanClose, hs, CF.AllowedIn]
  | @read n id c size data hr hd =>
    unfold chanRead at hd
    split at hd
    · rename_i hcond
      obtain ⟨rfl, -⟩ := Prod.mk.inj (Option.some.inj hd)
      have hopen : CF.AllowedIn .data (s.chans id).state := by
        rcases hcond.1 with h0 | h0 <;> simp [CF.AllowedIn, h0]
      exact h.chan (run hr).1 (run hr).2 (.opened hopen) (fun h0 => h0) (.inl rfl)
    · cases hd
  | write n id data hr => exact h.write (run hr).1 (run hr).2 hc
  | writeOn n hr => exact h.write (by simp [hr]) (by simp [hr]) hc
  | header hd hr _ =>
    refine h.chan (run hr).1 (run hr).2 ((h.plain hd.id).receive hc) (receive_opened hd) ?_
    by_cases hw : receiverPc (s.chans hd.id) hd = .wakeup
    · exact .inl hw
    · exact .inr fun h0 => h.work hd.id (receive_hasWork (h.plain hd.id) hw h0)
  | unknown hr =>
    refine ⟨h.waiting, h.plain, h.feeds, fun id hid => ?_⟩
    exact (h.work id hid).setPc (run hr).1 (run hr).2
  | @fill id len data hr hlen =>
    exact h.chan (by simp [hr]) (by simp [hr]) ((h.plain id).same rfl rfl rfl) (fun h0 => h0)
      (.inr fun hw => h.work id ((hasWork_congr rfl rfl rfl rfl).mp hw))
  | @filled id len hr =>
    exact h.chan (by simp [hr]) (by simp [hr]) ((h.plain id).same rfl rfl rfl) (fun h0 => h0)
      (.inr fun hw => h.work id ((hasWork_congr rfl rfl rfl rfl).mp hw))
  | @wakeup t hr hfree =>
    refine ⟨h.waiting, h.plain, h.feeds, fun id hid => ?_⟩
    by_cases hb : s.sender = .blocked
    · -- it reads that the sender waits
      rw [h.waiting hb]
      exact .inr (.inr ⟨hb, t, Function.update_self ..⟩)
    · exact .inl (sees_of_free hfree hb id)
  | @signal t hr hb =>
    exact awake_of_sees (fun h0 => by cases h0) h.plain (fun id h0 => by cases h0) fun _ _ => trivial
  | @signalNone t hr hb =>
    refine ⟨h.waiting, h.plain, h.feeds, fun id hid => ?_⟩
    rcases h.work id hid with h0 | ⟨t', h0⟩ | ⟨h0, -⟩
    · exact .inl h0
    · have hne : t' ≠ t := fun h1 => by simp [← h1, h0] at hr
      exact .inr (.inl ⟨t', (Function.update_of_ne hne ..).trans h0⟩)
    · exact absurd h0 hb
  | spurious hb =>
    exact awake_of_sees (fun h0 => by cases h0) h.plain (fun id h0 => by cases h0) fun _ _ => trivial
  | scanStart left hs hall =>
    refine awake_of_sees (fun h0 => by cases h0) h.plain (fun id h0 => by cases h0) fun id hid => ?_
    exact hall id fun hu => not_hasWork_unused (h.plain id) hu hid
  | @scanHit id left c what hs hscan =>
    obtain ⟨hp, hf⟩ := (h.plain id).scan hscan
    refine awake_of_sees (fun h0 => by cases h0) (update_spec h.plain hp) (fun j h0 => ?_) fun _ _ => trivial
    obtain ⟨rfl, hw⟩ := h0
    show CF.AllowedIn .data (Function.update s.chans id c id).state
    rw [Function.update_self]
    exact hf hw
  | @scanMiss id left hs hscan =>
    refine ⟨fun h0 => (by cases h0), h.plain, fun id h0 => (by cases h0), fun j hj => ?_⟩
    rcases h.work j hj with h0 | h0 | ⟨h0, -⟩
    · rw [hs] at h0
      rcases List.mem_cons.mp h0 with rfl | h0
      · exact absurd hj (not_hasWork_of_scan (h.plain j) hscan)
      · exact .inl h0
    · exact .inr (.inl h0)
    · rw [hs] at h0
      cases h0
  | scanEnd hs =>
    refine ⟨fun _ => rfl, h.plain, fun id h0 => (by cases h0), fun j hj => ?_⟩
    rcases h.work j hj with h0 | h0 | ⟨h0, -⟩
    · rw [hs] at h0
      cases h0
    · exact .inr (.inl h0)
    · rw [hs] at h0
      cases h0
  | @prepare id what hs =>
    refine h.work' fun j hj => ?_
    obtain ⟨rfl, hw⟩ := feeds_prepare hj
    rw [hs]
    exact ⟨rfl, hw⟩
  | sendHdr hs =>
    exact awake_of_sees (fun h0 => by cases h0) h.plain (fun id h0 => by cases h0) fun _ _ => trivial
  | @sendData id size hs => exact h.work' fun j hj => by rw [hs]; exact hj
  | @advance id size hs =>
    have hopen : CF.AllowedIn .data (s.chans id).state := h.feeds id (by rw [hs]; rfl)
    refine awake_of_sees (fun h0 => by cases h0) (update_spec h.plain (.opened hopen))
      (fun id h0 => by cases h0) fun _ _ => trivial

/-- When the sender sleeps and no thread is on its way to wake it, it has nothing to send. -/
theorem no_lost_wakeup (h : Threads.Run Careful s) (hb : s.sender = .blocked) (hs : s.Still)
    (id : ChanId) : ¬(s.chans id).HasWork := by
  have hawake : Awake s := by
    clear hb hs
    induction h with
    | init =>
      refine awake_of_sees (fun h0 => by cases h0) (fun _ => ⟨fun _ => rfl, fun _ => rfl, fun h0 => ?_⟩)
        (fun _ h0 => by cases h0) fun _ _ => trivial
      cases h0
    | step _ hs hc ih => exact ih.step hs hc
  intro hw
  rcases hawake.work id hw with h0 | ⟨t, h0⟩ | ⟨-, t, h0⟩
  · rw [hb] at h0
    exact h0
  · exact (hs t).1 h0
  · exact (hs t).2 h0

/-! ## A sender that sleeps -/

/-- Only the channel 0 is in use. -/
def OnlyZero (chans : ChanId → Chan) : Prop := ∀ id, id ≠ 0 → chans id = Chan.new

theorem OnlyZero.update {chans : ChanId → Chan} (h : OnlyZero chans) (c : Chan) :
    OnlyZero (Function.update chans 0 c) := fun id hid => by
  rw [Function.update_of_ne hid]
  exact h id hid

theorem OnlyZero.mem {chans : ChanId → Chan} (h : OnlyZero chans) (id : ChanId)
    (hs : (chans id).state ≠ .unused) : id ∈ [(0 : ChanId)] := by
  rw [List.mem_singleton]
  by_contra hid
  exact hs (by rw [h id hid]; rfl)

theorem onlyZero_init : OnlyZero Threads.init.chans := fun _ _ => rfl

/-- The channel 0, open. -/
def openedZero : Chan := { Chan.new with state := .established, sendmss := 1024, sendwin := 16384 }

/-- The channel 0 is connected, and the sender has nothing to do. -/
theorem exists_asleep (ok : Threads → Move → Prop) (hok : ∀ s m, Careful s m → ok s m) :
    ∃ s, Threads.Run ok s ∧ s.sender = .blocked ∧ (∀ t, s.pc t = .run) ∧ s.chans 0 = openedZero := by
  have hother : ∀ s, ok s .other := fun s => hok s _ trivial
  have h₁ := Threads.Run.init.step (.connect 0 0 rfl (fun _ h0 => by cases h0) rfl) (hother _)
  have h₂ := h₁.step (.wakeup (t := .user 0) rfl fun _ h0 => by cases h0) (hother _)
  have h₃ := h₂.step (.scanStart [0] (.inl rfl) (onlyZero_init.update _).mem) (hother _)
  have h₄ := h₃.step (.scanHit rfl rfl) (hother _)
  have h₅ := h₄.step (.prepare rfl) (hother _)
  have h₆ := h₅.step (.sendHdr rfl) (hother _)
  have h₇ := h₆.step (.header (.accept 0 1024 16384) rfl fun _ h0 => by cases h0)
    (hok _ _ fun _ h0 => by cases h0)
  have h₈ := h₇.step
    (.scanStart [0] (.inl rfl) (((onlyZero_init.update _).update _).update _).mem) (hother _)
  have h₉ := h₈.step (.scanMiss rfl rfl) (hother _)
  have h₁₀ := h₉.step (.scanEnd rfl) (hother _)
  refine ⟨_, h₁₀, rfl, fun t => ?_, rfl⟩
  cases t with
  | receiver => rfl
  | user n =>
    by_cases hn : n = 0
    · rw [hn]
      rfl
    · show Function.update (Function.update _ (Thread.user 0) _) (Thread.user 0) _ (Thread.user n) = _
      have hne : Thread.user n ≠ Thread.user 0 := fun h0 => hn (Thread.user.inj h0)
      rw [Function.update_of_ne hne, Function.update_of_ne hne]
      rfl

/-- A sleeping sender with nothing to send. -/
theorem no_lost_wakeup_asleep : ∃ s, Threads.Run Careful s ∧ s.sender = .blocked ∧
    (s.chans 0).state = .established ∧ ∀ id, ¬(s.chans id).HasWork := by
  obtain ⟨s, h, hb, hrun, hc⟩ := exists_asleep Careful fun _ _ h0 => h0
  have hs : s.Still := fun t => by simp [hrun t]
  exact ⟨s, h, hb, by rw [hc]; rfl, no_lost_wakeup h hb hs⟩

/-- More is written than there is room for: the thread sleeps, and so does the sender. -/
theorem not_woken : ∃ s, Threads.Run (fun _ _ => True) s ∧ s.sender = .blocked ∧ s.Still ∧
    (s.chans 0).HasWork := by
  obtain ⟨s, h, hb, hrun, hc⟩ := exists_asleep (fun _ _ => True) fun _ _ _ => trivial
  obtain ⟨data, hlen⟩ : ∃ data : List Byte, data.length = 16385 :=
    ⟨List.replicate _ 0, List.length_replicate ..⟩
  have hroom : openedZero.sendbuf.avail = 16384 := by decide +kernel
  have hpart : WritesPart openedZero data := ⟨.inl rfl, by omega, by omega⟩
  have h₁ := h.step (.write 0 0 data (hrun _)) trivial
  rw [hc, chanWriteLocked_part 0 hpart] at h₁
  refine ⟨_, h₁, hb, fun t => ?_, .inr ?_⟩
  · show Function.update s.pc (.user 0) _ t ≠ _ ∧ Function.update s.pc (.user 0) _ t ≠ _
    by_cases ht : t = .user 0
    · rw [ht, Function.update_self]
      simp
    · rw [Function.update_of_ne ht, hrun]
      simp
  · have hfits : ([] : List Byte).length + (data.take openedZero.sendbuf.avail).length ≤ chanSbsize := by
      rw [List.length_take, hroom, hlen]
      decide
    have hbuf := (RingBuffer.holds_new (fun _ => (0 : Byte)) chanSbsize).put hfits
    show Chan.hasData ((s.setChan 0 _).chans 0) = true
    rw [setChan_self, Chan.hasData, Bool.and_eq_true]
    refine ⟨rfl, decide_eq_true ?_⟩
    show 0 < (openedZero.sendbuf.put _).count
    rw [show (openedZero.sendbuf.put (data.take openedZero.sendbuf.avail)).count = _ from hbuf.count_eq,
      List.nil_append, List.length_take, hroom, hlen]
    decide

/-- A packet for a channel that is not in use sets a flag that the sender does not look at. -/
theorem not_reset : ∃ s, Threads.Run (fun _ _ => True) s ∧ s.sender = .blocked ∧ s.Still ∧
    (s.chans 1).HasWork := by
  have hunused : ∀ id, (Function.update Threads.init.chans 1
      { Chan.new with flags := { Flags.none with reset := true } } id).state = .unused := fun id => by
    by_cases hid : id = 1
    · rw [hid]
      rfl
    · rw [Function.update_of_ne hid]
      rfl
  have h₀ : Threads.Run (fun _ _ => True) Threads.init := .init
  have h₁ := h₀.step
    (.header (.connect 1 1024 16384) rfl fun _ h0 => by cases h0) trivial
  have h₂ := h₁.step (.wakeup (t := .receiver) rfl fun _ h0 => by cases h0) trivial
  have h₃ := h₂.step (.scanStart [] (.inl rfl) fun id hid => absurd (hunused id) hid) trivial
  have h₄ := h₃.step (.scanEnd rfl) trivial
  refine ⟨_, h₄, rfl, fun t => ?_, .inl fun h0 => by cases h0⟩
  have hne : ThreadPc.run ≠ .wakeup ∧ ThreadPc.run ≠ .signal := by simp
  cases t with
  | receiver => exact hne
  | user n => exact hne

end Csup.Mux
