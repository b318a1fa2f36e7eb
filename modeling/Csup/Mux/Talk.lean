import Csup.Mux.Half

/-!
# What is said on a channel, and when

Which packets a channel sends depends on its state and flags, and which it takes
on its state. `Voice` is what it may still send; `Ear` what it takes. What the
one may still send, the other takes, when it has taken what is under way: `Talk`.

`Tidy` says what flags there may be in what state; a call or a step of the sender
keeps it, and is one of four kinds of `Turn`.
-/

namespace Csup.Mux

/-- The flag a packet is sent for. -/
def Header.kind : Header → CF
  | connect .. => .connect
  | accept .. => .accept
  | reset .. => .reset
  | data .. => .data
  | window .. => .window
  | close .. => .close

def Flags.get (f : Flags) : CF → Bool
  | .connect => f.connect
  | .accept => f.accept
  | .reset => f.reset
  | .window => f.window
  | .data => f.data
  | .close => f.close

def SenderPc.picks : SenderPc → CF → Bool
  | picked _ w, what => decide (w = what)
  | _, _ => false

/-- The sender will send it. -/
def Half.due (h : Half) (what : CF) : Bool := h.c.flags.get what || h.tx.picks what

/-- The packet that is about to be written. -/
def Half.out (h : Half) : List Packet :=
  match h.tx with
  | .hdr hd => [⟨hd, []⟩]
  | .data id size => [⟨.data id size, h.c.sendbuf.peek size⟩]
  | _ => []

/-- The packets written to the socket. -/
def Event.packets : Event → List Packet
  | sent p => [p]
  | _ => []

/-! ## Voices and ears -/

/-- What a channel may still say: nothing, as it is unused or listens or called;
`CONNECT`; `ACCEPT`; anything; windows. -/
inductive Voice
  | unused | listening | calling | called | answering | talking | done
  deriving DecidableEq

inductive Ear
  | unused | listening | connecting | opened | closed
  deriving DecidableEq

def Voice.say : Voice → CF → Option Voice
  | calling, .connect => some called
  | answering, .accept => some talking
  | talking, .window => some talking
  | talking, .data => some talking
  | talking, .close => some done
  | done, .window => some done
  | _, _ => none

def Ear.hear : Ear → CF → Option Ear
  | listening, .connect => some opened
  | connecting, .accept => some opened
  | opened, .window => some opened
  | opened, .data => some opened
  | opened, .close => some closed
  | closed, .window => some closed
  | _, _ => none

def Ear.hears (e : Ear) (ks : List CF) : Option Ear := ks.foldlM Ear.hear e

/-- Who may say what to whom. -/
def Ear.Awaits : Ear → Voice → Prop
  | unused, v => v = .unused ∨ v = .listening
  | listening, v => v = .unused ∨ v = .listening ∨ v = .calling
  | connecting, v => v = .listening ∨ v = .answering
  | opened, v => v = .called ∨ v = .talking
  | closed, v => v = .done

/-- The one will have heard `ks` before what the other may say. -/
def Talk (e : Ear) (ks : List CF) (v : Voice) : Prop := ∃ e', e.hears ks = some e' ∧ e'.Awaits v

def CS.ear : CS → Ear
  | unused => .unused
  | listening => .listening
  | connecting => .connecting
  | established | wrclosed => .opened
  | rdclosed | closed => .closed

/-- From the state and whether `CONNECT`, `ACCEPT` and `CLOSE` are due. -/
def CS.voice (connect accept close : Bool) : CS → Voice
  | unused => .unused
  | listening => .listening
  | connecting => if connect then .calling else .called
  | established | rdclosed => if accept then .answering else .talking
  | wrclosed | closed => if accept then .answering else if close then .talking else .done

def Half.ear (h : Half) : Ear := h.c.state.ear

def Half.voice (h : Half) : Voice := h.c.state.voice (h.due .connect) (h.due .accept) (h.due .close)

/-! ## Talk -/

variable {e e' : Ear} {v v' : Voice} {k : CF} {ks : List CF}

theorem hears_append (e : Ear) (ks : List CF) (k : CF) :
    e.hears (ks ++ [k]) = (e.hears ks).bind fun e' => e'.hear k := by
  simp [Ear.hears, List.foldlM_append]

theorem hears_cons (e : Ear) (k : CF) (ks : List CF) :
    e.hears (k :: ks) = (e.hear k).bind fun e' => e'.hears ks := by
  simp [Ear.hears]

/-- What is said is heard. -/
theorem Ear.Awaits.say (h : e.Awaits v) (hs : v.say k = some v') :
    ∃ e', e.hear k = some e' ∧ e'.Awaits v' := by
  cases e <;> cases v <;> simp [Ear.Awaits] at h <;> cases k <;> simp [Voice.say] at hs <;>
    subst hs <;> simp [Ear.hear, Ear.Awaits]

theorem Talk.say (h : Talk e ks v) (hs : v.say k = some v') : Talk e (ks ++ [k]) v' := by
  obtain ⟨e₁, h₁, ha⟩ := h
  obtain ⟨e₂, h₂, ha⟩ := ha.say hs
  exact ⟨e₂, by rw [hears_append, h₁]; exact h₂, ha⟩

theorem Talk.hear (h : Talk e (k :: ks) v) : ∃ e', e.hear k = some e' ∧ Talk e' ks v := by
  obtain ⟨e₁, h₁, ha⟩ := h
  rw [hears_cons] at h₁
  obtain ⟨e₂, h₂, h₃⟩ := Option.bind_eq_some_iff.mp h₁
  exact ⟨e₂, h₂, e₁, h₃, ha⟩

theorem hear_opened (h : e.hear k = some e') : e' = .opened ∨ e' = .closed := by
  cases e <;> cases k <;> simp [Ear.hear] at h <;> simp [← h]

/-- An ear that hears something is open after it. -/
theorem hears_opened (h : e.hears ks = some e') : ks = [] ∧ e' = e ∨ e' = .opened ∨ e' = .closed := by
  induction ks generalizing e with
  | nil => exact .inl ⟨rfl, (Option.some.inj h).symm⟩
  | cons k ks ih =>
    rw [hears_cons] at h
    obtain ⟨e₁, h₁, h₂⟩ := Option.bind_eq_some_iff.mp h
    rcases ih h₂ with ⟨-, rfl⟩ | h
    · exact .inr (hear_opened h₁)
    · exact .inr h

theorem Talk.nil (h : e.Awaits v) : Talk e [] v := ⟨e, rfl, h⟩

/-- A voice that has said nothing has not been heard. -/
theorem Talk.awaits (h : Talk e ks v) (hv : v ≠ .called ∧ v ≠ .talking ∧ v ≠ .done) :
    ks = [] ∧ e.Awaits v := by
  obtain ⟨e', h', ha⟩ := h
  rcases hears_opened h' with ⟨rfl, rfl⟩ | rfl | rfl
  · exact ⟨rfl, ha⟩
  · simp [Ear.Awaits, hv] at ha
  · simp [Ear.Awaits, hv] at ha

/-- An open ear listens to a voice that has said something. -/
theorem Talk.spoken (h : Talk e ks v) (he : e = .opened ∨ e = .closed) :
    v = .called ∨ v = .talking ∨ v = .done := by
  obtain ⟨e', h', ha⟩ := h
  have : e' = .opened ∨ e' = .closed := by
    rcases hears_opened h' with ⟨-, rfl⟩ | h
    · exact he
    · exact h
  rcases this with rfl | rfl
  · rcases ha with ha | ha
    · exact .inl ha
    · exact .inr (.inl ha)
  · exact .inr (.inr ha)

/-! ## Flags -/

/-- The states in which there may be a flag. -/
def CF.AllowedIn : CF → CS → Prop
  | connect, s => s = .connecting
  | accept, s | window, s | data, s => s ≠ .unused ∧ s ≠ .listening ∧ s ≠ .connecting
  | close, s => s.Closing
  | reset, _ => False

structure Tidy (h : Half) : Prop where
  allowed : ∀ what, h.due what = true → what.AllowedIn h.c.state
  once : ∀ what, what ≠ .window → h.tx.picks what = true → h.c.flags.get what = false
  first : h.tx ≠ .wait → h.c.flags.connect = false ∧ h.c.flags.accept = false
  late : h.due .accept = true → h.c.state.Closing → h.c.flags.close = true
  idle : h.c.state = .unused ∨ h.c.state = .listening → h.tx = .wait

/-- Data is sent before `CLOSE` is. -/
def DataFirst (h : Half) : Prop :=
  h.due .data = true ∨ h.c.hasData = true →
    CF.AllowedIn .data h.c.state ∧ (h.c.state.Closing → h.due .close = true)

variable {f : Flags} {c : Chan} {what w : CF} {id : ChanId} {h h' : Half}

theorem get_clear : (f.clear what).get w = (f.get w && decide (what ≠ w)) := by
  cases what <;> cases w <;> simp [Flags.clear, Flags.get]

/-- What is picked is set, and what is more important is not. -/
theorem pick_spec (hp : f.pick = some what) :
    f.get what = true ∧ (what = .connect ∨ f.connect = false ∧ (what = .accept ∨ f.accept = false)) := by
  unfold Flags.pick at hp
  repeat' split at hp
  all_goals first | (obtain rfl := Option.some.inj hp; simp_all [Flags.get]) | cases hp

theorem get_scanFlags : c.scanFlags.get w = (c.flags.get w || (decide (w = .data) && c.hasData)) := by
  unfold Chan.scanFlags
  split <;> rename_i hd <;> cases w <;> simp_all [Flags.get]

theorem senderScan_spec {c' : Chan} (hs : senderScan c = some (c', what)) :
    c.state ≠ .unused ∧ c.scanFlags.pick = some what ∧
      c' = { c with flags := c.scanFlags.clear what } := by
  unfold senderScan at hs
  split at hs
  · cases hs
  · rename_i hu
    obtain ⟨w, hp, heq⟩ := Option.map_eq_some_iff.mp hs
    obtain ⟨rfl, rfl⟩ := Prod.mk.inj heq
    exact ⟨hu, hp, rfl⟩

/-- What `sender_scan` picks was set, and is due still. -/
theorem due_scan {c' : Chan} (id : ChanId) (w : CF) (ht : h.tx = .wait)
    (hs : senderScan h.c = some (c', what)) :
    Half.due ⟨c', .picked id what⟩ w = (h.due w || (decide (w = .data) && h.c.hasData)) := by
  obtain ⟨-, hp, rfl⟩ := senderScan_spec hs
  have hset := (pick_spec hp).1
  simp only [Half.due, get_clear, SenderPc.picks, ht, Bool.or_false]
  rw [← get_scanFlags]
  by_cases hw : what = w
  · rw [← hw, hset]
    simp
  · simp [hw]

theorem voice_congr (hs : h'.c.state = h.c.state)
    (hd : ∀ w, w ≠ .data → w ≠ .window → h'.due w = h.due w) : h'.voice = h.voice := by
  unfold Half.voice
  rw [hs, hd .connect (by decide) (by decide), hd .accept (by decide) (by decide),
    hd .close (by decide) (by decide)]

theorem CF.AllowedIn.not_idle {s : CS} (h : w.AllowedIn s) : ¬(s = .unused ∨ s = .listening) := by
  rintro (rfl | rfl) <;> cases w <;> simp [CF.AllowedIn, CS.Closing] at h

/-- Steps that leave the flags, and do not pick any. -/
theorem Tidy.of_tx {tx : SenderPc} (ht : Tidy h) (hf : c.flags = h.c.flags)
    (hs : c.state = h.c.state) (hp : ∀ w, tx.picks w = true → h.tx.picks w = true)
    (hw : h.tx = .wait → tx = .wait) : Tidy ⟨c, tx⟩ := by
  have hdue : ∀ w, Half.due ⟨c, tx⟩ w = true → h.due w = true := fun w hw => by
    simp only [Half.due, Bool.or_eq_true, hf] at hw ⊢
    exact hw.imp_right (hp w)
  refine ⟨fun w hw => ?_, fun w hne hw => ?_, fun hne => ?_, fun hd hc => ?_, fun hi => ?_⟩
  · show w.AllowedIn c.state
    rw [hs]
    exact ht.allowed w (hdue w hw)
  · show c.flags.get w = false
    rw [hf]
    exact ht.once w hne (hp w hw)
  · show c.flags.connect = false ∧ c.flags.accept = false
    rw [hf]
    exact ht.first fun h0 => hne (hw h0)
  · show c.flags.close = true
    rw [hf]
    exact ht.late (hdue _ hd) (hs ▸ hc)
  · exact hw (ht.idle (hs ▸ hi))

/-! ## Steps -/

/-- What a call or a step of the sender does to what is said. -/
inductive Turn (h h' : Half) (ev : Event) : Prop
  | same : h'.voice = h.voice → h'.ear = h.ear →
    (ev.packets ++ h'.out).map (·.header.kind) = h.out.map (·.header.kind) → Turn h h' ev
  | listen : h.voice = .unused → h.ear = .unused → h'.voice = .listening → h'.ear = .listening →
    (ev.packets ++ h'.out).map (·.header.kind) = h.out.map (·.header.kind) → Turn h h' ev
  | call (id : ChanId) : ev = .connect id → h.voice = .unused → h.ear = .unused →
    h'.voice = .calling → h'.ear = .connecting →
    (ev.packets ++ h'.out).map (·.header.kind) = h.out.map (·.header.kind) → Turn h h' ev
  | say (what : CF) : h.voice.say what = some h'.voice → h'.ear = h.ear →
    (ev.packets ++ h'.out).map (·.header.kind) = h.out.map (·.header.kind) ++ [what] → Turn h h' ev

/-- A channel that is open for writing is closed. -/
theorem Tidy.shut {s : CS} (ht : Tidy h)
    (hs : h.c.state = .established ∧ s = .wrclosed ∨ h.c.state = .rdclosed ∧ s = .closed) :
    Tidy { h with c := { h.c with state := s, flags := { h.c.flags with close := true } } } ∧
      Turn h { h with c := { h.c with state := s, flags := { h.c.flags with close := true } } }
        (.close id) := by
  have hclosing : s.Closing := by rcases hs with ⟨-, rfl⟩ | ⟨-, rfl⟩ <;> simp [CS.Closing]
  have hp : h.tx.picks .close = false := by
    by_contra hp
    have := ht.allowed .close <| by simp [Half.due, hp]
    rcases hs with ⟨h0, -⟩ | ⟨h0, -⟩ <;> simp [CF.AllowedIn, CS.Closing, h0] at this
  refine ⟨⟨fun w hw => ?_, fun w hne hw => ?_, ht.first, fun _ _ => rfl, fun hi => ?_⟩, .same ?_ ?_ rfl⟩
  · by_cases hwc : w = .close
    · rw [hwc]
      exact hclosing
    · have := ht.allowed w <| by
        rw [← hw]
        cases w <;> first | rfl | exact absurd rfl hwc
      rcases hs with ⟨h0, rfl⟩ | ⟨h0, rfl⟩ <;> cases w <;>
        simp_all [CF.AllowedIn, CS.Closing]
  · have hwc : w ≠ .close := fun h0 => by simp [h0 ▸ hw] at hp
    rw [← ht.once w hne hw]
    cases w <;> first | rfl | exact absurd rfl hwc
  · rcases hs with ⟨-, rfl⟩ | ⟨-, rfl⟩ <;> simp at hi
  · rcases hs with ⟨h0, rfl⟩ | ⟨h0, rfl⟩ <;> simp [Half.voice, CS.voice, h0, Half.due, Flags.get]
  · rcases hs with ⟨h0, rfl⟩ | ⟨h0, rfl⟩ <;> simp [Half.ear, CS.ear, h0]

theorem Tidy.chanClose (ht : Tidy h) :
    Tidy { h with c := chanClose h.c } ∧ Turn h { h with c := chanClose h.c } (.close id) := by
  unfold Mux.chanClose
  split
  · rename_i hs
    exact ht.shut (.inl ⟨hs, rfl⟩)
  · rename_i hs
    exact ht.shut (.inr ⟨hs, rfl⟩)
  · exact ⟨ht, .same rfl rfl rfl⟩

/-- `chan_read` sets a flag. -/
theorem Tidy.window (ht : Tidy h) {b : Buf} {n : Nat}
    (hs : h.c.state = .established ∨ h.c.state = .wrclosed) :
    Tidy { h with c := { h.c with
      recvbuf := b, recvseq := n, flags := { h.c.flags with window := true } } } where
  allowed := fun w hw => by
    by_cases hwc : w = .window
    · rcases hs with hs | hs <;> simp [CF.AllowedIn, hwc, hs]
    · refine ht.allowed w ?_
      rw [← hw]
      cases w <;> first | rfl | exact absurd rfl hwc
  once := fun w hne hw => by
    rw [← ht.once w hne hw]
    cases w <;> first | rfl | exact absurd rfl hne
  first := ht.first
  late := ht.late
  idle := ht.idle

theorem Tidy.scan {c' : Chan} (ht : Tidy h) (hd : DataFirst h) (hw : h.tx = .wait)
    (hs : senderScan h.c = some (c', what)) : Tidy ⟨c', .picked id what⟩ := by
  have hdue : ∀ w, Half.due ⟨c', .picked id what⟩ w = true → w.AllowedIn h.c.state := fun w h1 => by
    rw [due_scan id _ hw hs, Bool.or_eq_true, Bool.and_eq_true, decide_eq_true_eq] at h1
    rcases h1 with h1 | ⟨rfl, h1⟩
    · exact ht.allowed w h1
    · exact (hd (.inr h1)).1
  have hpicked := hdue what (by simp [Half.due, SenderPc.picks])
  have hacc : Half.due ⟨c', .picked id what⟩ .accept = h.due .accept := by
    rw [due_scan id _ hw hs]
    simp
  obtain ⟨hu, hp, rfl⟩ := senderScan_spec hs
  have hpick := (pick_spec hp).2
  have haccept : h.c.scanFlags.accept = h.due .accept := by
    show h.c.scanFlags.get .accept = _
    rw [get_scanFlags, Half.due, hw]
    simp [SenderPc.picks]
  have hget : ∀ w, w = what ∨ h.c.scanFlags.get w = false →
      (h.c.scanFlags.clear what).get w = false := fun w h1 => by
    rw [get_clear]
    rcases h1 with rfl | h1
    · simp
    · simp [h1]
  refine ⟨hdue, fun w hne hpw => ?_, fun _ => ⟨hget .connect ?_, hget .accept ?_⟩, fun h1 hc => ?_,
    fun hi => absurd hi hpicked.not_idle⟩
  · simp only [SenderPc.picks, decide_eq_true_eq] at hpw
    exact hget w (.inl hpw.symm)
  · exact hpick.imp Eq.symm (·.1)
  · rcases hpick with rfl | hpick
    · -- they are not allowed in one state
      refine .inr <| by_contra fun h1 => ?_
      rw [← ne_eq, Bool.ne_false_iff] at h1
      exact (ht.allowed .accept (haccept ▸ h1)).2.2 hpicked
    · exact hpick.2.imp Eq.symm fun h1 => h1
  · rw [hacc] at h1
    have hne : what ≠ .close := by
      rintro rfl
      have := hpick.resolve_left (by decide)
      rw [haccept, h1] at this
      simp at this
    show (h.c.scanFlags.clear what).get .close = true
    rw [get_clear, get_scanFlags]
    simp [hne, Flags.get, ht.late h1 hc]

/-- What is due in a state may be said in it. -/
theorem voice_say {s : CS} {close : Bool} (ha : what.AllowedIn s)
    (hl : what = .accept ∨ what = .data → s.Closing → close = true)
    (hc : what = .close → close = false) :
    (s.voice (decide (what = .connect)) (decide (what = .accept))
      (close || decide (what = .close))).say what = some (s.voice false false close) := by
  cases what <;> cases s <;> cases close <;>
    simp_all [CF.AllowedIn, CS.Closing, CS.voice, Voice.say]

theorem Tidy.prepare (ht : Tidy h) (hd : DataFirst h) (hp : h.tx = .picked id what) :
    Tidy { h with tx := senderPrepare h.c id what } ∧
      Turn h { h with tx := senderPrepare h.c id what } .silent := by
  have hnp : ∀ w, (senderPrepare h.c id what).picks w = false := fun w => by
    cases what
    case data =>
      unfold senderPrepare
      dsimp only
      split <;> rfl
    all_goals rfl
  have hkind : (Half.out { h with tx := senderPrepare h.c id what }).map (·.header.kind) = [what] := by
    cases what
    case data =>
      unfold senderPrepare
      dsimp only
      split <;> rfl
    all_goals rfl
  have hout : h.out = [] := by simp [Half.out, hp]
  have hdue : ∀ w, Half.due { h with tx := senderPrepare h.c id what } w = h.c.flags.get w := fun w => by
    simp [Half.due, hnp]
  have hwhat : h.due what = true := by simp [Half.due, hp, SenderPc.picks]
  have hallowed := ht.allowed what hwhat
  have hfirst := ht.first (by simp [hp])
  refine ⟨ht.of_tx rfl rfl (fun w hw => by simp [hnp] at hw) (fun h0 => by simp [hp] at h0),
    .say what ?_ rfl (by rw [hout]; exact hkind)⟩
  -- in the voices, only the flag that is sent for differs
  have hv : h.voice = h.c.state.voice (decide (what = .connect)) (decide (what = .accept))
      (h.c.flags.close || decide (what = .close)) := by
    simp [Half.voice, Half.due, Flags.get, hfirst, hp, SenderPc.picks]
  have hv' : Half.voice { h with tx := senderPrepare h.c id what } =
      h.c.state.voice false false h.c.flags.close := by
    simp [Half.voice, hdue, Flags.get, hfirst]
  rw [hv, hv']
  refine voice_say hallowed (fun h0 hc => ?_) fun h0 => ?_
  · rcases h0 with h0 | h0
    · exact ht.late (h0 ▸ hwhat) hc
    · have := (hd (.inl (h0 ▸ hwhat))).2 hc
      simpa [Half.due, hp, SenderPc.picks, h0, Flags.get] using this
  · exact ht.once .close (by decide) (by simp [hp, SenderPc.picks, h0])

/-- A call or a step of the sender. -/
theorem Tidy.act {ev : Event} (ht : Tidy h) (hd : DataFirst h) (ha : Half.Act id h h' ev) :
    Tidy h' ∧ Turn h h' ev := by
  have quiet : ∀ {c : Chan} {tx : SenderPc} {ev : Event}, c.flags = h.c.flags → c.state = h.c.state →
      (∀ w, tx.picks w = h.tx.picks w) → (h.tx = .wait → tx = .wait) →
      (ev.packets ++ Half.out ⟨c, tx⟩).map (·.header.kind) = h.out.map (·.header.kind) →
      Tidy ⟨c, tx⟩ ∧ Turn h ⟨c, tx⟩ ev := fun hf hs hp hw hk =>
    ⟨ht.of_tx hf hs (fun w => (hp w).symm ▸ fun h0 => h0) hw,
      .same (voice_congr hs fun w _ _ => by simp [Half.due, hf, hp]) (by simp [Half.ear, hs]) hk⟩
  have hout : ∀ {c : Chan}, (Half.out { h with c }).map (·.header.kind) = h.out.map (·.header.kind) := by
    intro c
    unfold Half.out
    cases h.tx <;> rfl
  cases ha with
  | @listen c hl =>
    unfold chanListen at hl
    split at hl
    · rename_i hu
      obtain rfl := Option.some.inj hl
      have hnone : ∀ w, h.due w ≠ true := fun w hw => (ht.allowed w hw).not_idle (.inl hu)
      refine ⟨⟨fun w hw => absurd hw (hnone w), ht.once, ht.first, fun h1 => absurd h1 (hnone _),
        fun _ => ht.idle (.inl hu)⟩, .listen ?_ ?_ rfl rfl hout⟩
      · simp [Half.voice, hu, CS.voice]
      · simp [Half.ear, hu, CS.ear]
    · cases hl
  | @connect c hl =>
    unfold chanConnect at hl
    split at hl
    · rename_i hu
      obtain rfl := Option.some.inj hl
      have hw := ht.idle (.inl hu)
      have hdue : ∀ w, w ≠ .connect → Half.due { h with c := { h.c with
          state := .connecting, flags := { h.c.flags with connect := true } } } w ≠ true := by
        intro w hne h1
        refine (ht.allowed w ?_).not_idle (.inl hu)
        rw [← h1]
        cases w <;> first | rfl | exact absurd rfl hne
      refine ⟨⟨fun w h1 => ?_, fun w _ h1 => ?_, fun h1 => absurd hw h1,
        fun h1 => absurd h1 (hdue _ (by decide)), fun h1 => ?_⟩, .call id rfl ?_ ?_ ?_ rfl hout⟩
      · rw [show w = .connect from by_contra fun hne => hdue w hne h1]
        rfl
      · simp [hw, SenderPc.picks] at h1
      · simp at h1
      · simp [Half.voice, hu, CS.voice]
      · simp [Half.ear, hu, CS.ear]
      · simp [Half.voice, CS.voice, Half.due, Flags.get]
    · cases hl
  | close => exact ht.chanClose
  | @read c size data hr =>
    unfold chanRead at hr
    split at hr
    · rename_i hcond
      obtain ⟨rfl, rfl⟩ := Prod.mk.inj (Option.some.inj hr)
      refine ⟨ht.window hcond.1, .same (voice_congr rfl fun w hne hne' => ?_) rfl hout⟩
      cases w <;> first | rfl | exact absurd rfl hne'
    · cases hr
  | @write c left data hw =>
    unfold chanWrite at hw
    split at hw
    · obtain ⟨rfl, rfl⟩ := Prod.mk.inj (Option.some.inj hw)
      exact quiet rfl rfl (fun _ => rfl) (fun h0 => h0) hout
    · cases hw
  | @scan c what hw hs =>
    refine ⟨ht.scan hd hw hs, .same (voice_congr ?_ fun w hne _ => ?_) ?_ ?_⟩
    · obtain ⟨-, -, rfl⟩ := senderScan_spec hs
      rfl
    · rw [due_scan id _ hw hs]
      simp [hne]
    · obtain ⟨-, -, rfl⟩ := senderScan_spec hs
      rfl
    · simp [Event.packets, Half.out, hw]
  | prepare hp => exact ht.prepare hd hp
  | sendHdr hp _ =>
    exact quiet rfl rfl (fun w => by rw [hp]; rfl) (fun _ => rfl) (by simp [Event.packets, Half.out, hp])
  | sendData hp =>
    exact quiet rfl rfl (fun w => by rw [hp]; rfl) (fun h0 => by simp [hp] at h0)
      (by simp [Event.packets, Half.out, hp, Header.kind])
  | advance hp =>
    exact quiet rfl rfl (fun w => by rw [hp]; rfl) (fun _ => rfl) (by simp [Event.packets, Half.out, hp])

/-! ## Both ways -/

/-- `f` is under way from the first to the second, `b` the other way. -/
structure Talks (X Y : Half) (f b : List CF) : Prop where
  out : Talk Y.ear f X.voice
  back : Talk X.ear b Y.voice

variable {X X' Y : Half} {ls : List CF}

theorem Talk.unused (h : Talk .unused ks v) : ks = [] ∧ (v = .unused ∨ v = .listening) := by
  cases ks with
  | nil =>
    obtain ⟨e', he, ha⟩ := h
    obtain rfl := Option.some.inj he
    exact ⟨rfl, ha⟩
  | cons k ks =>
    obtain ⟨e', he, -⟩ := h.hear
    simp [Ear.hear] at he

theorem Talks.act {ev : Event} {f : List Packet}
    (h : Talks X Y ((f ++ X.out).map (·.header.kind)) ls) (ht : Turn X X' ev)
    (hl : ∀ id, ev = .connect id → Y.c.state = .listening) :
    Talks X' Y ((f ++ ev.packets ++ X'.out).map (·.header.kind)) ls := by
  obtain ⟨ho, hb⟩ := h
  rw [List.append_assoc, List.map_append]
  rw [List.map_append] at ho
  cases ht with
  | same hv he hk =>
    rw [hk]
    exact ⟨hv ▸ ho, he ▸ hb⟩
  | listen hv he hv' he' hk =>
    rw [hk]
    rw [hv] at ho
    rw [he] at hb
    obtain ⟨hnil, ha⟩ := ho.awaits (by decide)
    obtain ⟨rfl, hy⟩ := hb.unused
    refine ⟨?_, ?_⟩
    · rw [hv', hnil]
      refine .nil ?_
      revert ha
      cases Y.ear <;> simp [Ear.Awaits]
    · rw [he']
      exact .nil <| hy.imp_right .inl
  | call id hev hv he hv' he' hk =>
    rw [hk]
    rw [hv] at ho
    rw [he] at hb
    have hlisten := hl id hev
    obtain ⟨hnil, -⟩ := ho.awaits (by decide)
    obtain ⟨rfl, -⟩ := hb.unused
    refine ⟨?_, ?_⟩
    · rw [hv', hnil]
      refine .nil ?_
      simp [Half.ear, hlisten, CS.ear, Ear.Awaits]
    · rw [he']
      refine .nil ?_
      simp [Half.voice, hlisten, CS.voice, Ear.Awaits]
  | say what hs he hk =>
    rw [hk, ← List.append_assoc]
    exact ⟨ho.say hs, he ▸ hb⟩

theorem Half.voice_eq_unused : h.voice = .unused ↔ h.c.state = .unused := by
  unfold Half.voice
  cases h.c.state <;> simp only [CS.voice] <;> repeat' split
  all_goals simp

theorem Half.voice_eq_listening : h.voice = .listening ↔ h.c.state = .listening := by
  unfold Half.voice
  cases h.c.state <;> simp only [CS.voice] <;> repeat' split
  all_goals simp

theorem Half.voice_of_ear_unused (he : h.ear = .unused) : h.voice = .unused := by
  refine voice_eq_unused.mpr ?_
  revert he
  unfold Half.ear
  cases h.c.state <;> simp [CS.ear]

theorem Half.voice_of_ear_listening (he : h.ear = .listening) : h.voice = .listening := by
  refine voice_eq_listening.mpr ?_
  revert he
  unfold Half.ear
  cases h.c.state <;> simp [CS.ear]

/-- A channel that has not said anything when it is called or answered. -/
theorem Talk.caller {f : List CF} (h : Talk Y.ear f v) (hv : v = .listening ∨ v = .calling)
    (hy : Y.voice = .called ∨ Y.voice = .talking ∨ Y.voice = .done) :
    v = .listening ∧ f = [] ∧ Y.ear = .connecting := by
  obtain ⟨rfl, ha⟩ := h.awaits (by rcases hv with rfl | rfl <;> decide)
  have hu : Y.ear ≠ .unused := fun h0 => by simp [Half.voice_of_ear_unused h0] at hy
  have hl : Y.ear ≠ .listening := fun h0 => by simp [Half.voice_of_ear_listening h0] at hy
  revert ha hu hl
  rcases hv with rfl | rfl <;> cases Y.ear <;> simp [Ear.Awaits]

theorem Tidy.flag_eq_false (ht : Tidy h) (hw : ¬w.AllowedIn h.c.state) : h.c.flags.get w = false := by
  by_contra h0
  exact hw <| ht.allowed w <| by simp [Half.due, h0]

/-- A listening channel that is called answers. -/
theorem Talks.connect {f : List CF} {mss win : Nat} (h : Talks X Y f (.connect :: ls))
    (ht : Tidy X) (hs : X.c.state = .listening) :
    Tidy { X with c := { X.c with
      state := .established, sendmss := mss, sendwin := win,
      flags := { X.c.flags with accept := true } } } ∧
    Talks { X with c := { X.c with
      state := .established, sendmss := mss, sendwin := win,
      flags := { X.c.flags with accept := true } } } Y f ls := by
  have hw := ht.idle (.inr hs)
  have hflag : ∀ w, X.c.flags.get w = false := fun w =>
    ht.flag_eq_false fun h0 => h0.not_idle (.inr hs)
  have hdue : ∀ w, Half.due { X with c := { X.c with
      state := .established, sendmss := mss, sendwin := win,
      flags := { X.c.flags with accept := true } } } w = decide (w = .accept) := fun w => by
    have := hflag w
    cases w <;> simp_all [Half.due, Flags.get, SenderPc.picks]
  obtain ⟨ho, hb⟩ := h
  obtain ⟨e, he, hb⟩ := hb.hear
  rw [Half.ear, hs] at he
  obtain rfl : Ear.opened = e := Option.some.inj he
  rw [Half.voice_eq_listening.mpr hs] at ho
  obtain ⟨-, rfl, hy⟩ := ho.caller (.inl rfl) (hb.spoken (.inl rfl))
  refine ⟨⟨fun w h0 => ?_, fun w _ h0 => ?_, fun h0 => absurd hw h0, fun _ h0 => ?_, fun h0 => ?_⟩,
    .nil ?_, hb⟩
  · rw [hdue, decide_eq_true_eq] at h0
    rw [h0]
    simp [CF.AllowedIn]
  · simp [hw, SenderPc.picks] at h0
  · simp [CS.Closing] at h0
  · simp at h0
  · rw [hy, Half.voice, hdue, hdue, hdue]
    simp [CS.voice, Ear.Awaits]

/-- A channel that called is answered. -/
theorem Talks.accept {f : List CF} {mss win : Nat} (h : Talks X Y f (.accept :: ls))
    (ht : Tidy X) (hs : X.c.state = .connecting) :
    Tidy { X with c := { X.c with sendmss := mss, sendwin := win, state := .established } } ∧
    Talks { X with c := { X.c with sendmss := mss, sendwin := win, state := .established } } Y f ls := by
  obtain ⟨ho, hb⟩ := h
  obtain ⟨e, he, hb⟩ := hb.hear
  rw [Half.ear, hs] at he
  obtain rfl : Ear.opened = e := Option.some.inj he
  -- it has called
  have hcon : X.due .connect = false := by
    by_contra h0
    have hv : X.voice = .calling := by simp [Half.voice, hs, CS.voice, h0]
    exact absurd (ho.caller (.inr hv) (hb.spoken (.inl rfl))).1 (by simp [hv])
  have hdue : ∀ w, X.due w = false := fun w => by
    by_contra h0
    have := ht.allowed w (by simpa using h0)
    rw [hs] at this
    cases w <;> simp_all [CF.AllowedIn, CS.Closing]
  have hdue' : ∀ w, Half.due { X with c := { X.c with
      sendmss := mss, sendwin := win, state := .established } } w = false := hdue
  refine ⟨⟨fun w h0 => ?_, ht.once, ht.first, fun h0 => ?_, fun h0 => ?_⟩, ?_, hb⟩
  · simp [hdue'] at h0
  · simp [hdue'] at h0
  · simp at h0
  · obtain ⟨e₁, h₁, ha⟩ := ho
    refine ⟨e₁, h₁, ?_⟩
    have hv : X.voice = .called := by simp [Half.voice, hs, CS.voice, hdue]
    rw [Half.voice, hdue', hdue', hdue']
    rw [hv] at ha
    revert ha
    cases e₁ <;> simp [Ear.Awaits, CS.voice]

/-- The peer of a channel has closed. -/
theorem Talks.close {f : List CF} {s : CS} (h : Talks X Y f (.close :: ls)) (ht : Tidy X)
    (hs : X.c.state = .established ∧ s = .rdclosed ∨ X.c.state = .wrclosed ∧ s = .closed) :
    Tidy { X with c := { X.c with state := s } } ∧ Talks { X with c := { X.c with state := s } } Y f ls := by
  obtain ⟨ho, hb⟩ := h
  obtain ⟨e, he, hb⟩ := hb.hear
  obtain rfl : s.ear = e := by
    rw [Half.ear] at he
    rcases hs with ⟨h0, rfl⟩ | ⟨h0, rfl⟩ <;> rw [h0] at he <;> exact Option.some.inj he
  have hclosing : s.Closing ↔ X.c.state.Closing := by
    rcases hs with ⟨h0, rfl⟩ | ⟨h0, rfl⟩ <;> simp [CS.Closing, h0]
  refine ⟨⟨fun w h0 => ?_, ht.once, ht.first, fun h0 h1 => ht.late h0 (hclosing.mp h1), fun h0 => ?_⟩,
    ?_, hb⟩
  · have := ht.allowed w h0
    show w.AllowedIn s
    rcases hs with ⟨h1, rfl⟩ | ⟨h1, rfl⟩ <;> rw [h1] at this <;> cases w <;>
      simp_all [CF.AllowedIn, CS.Closing]
  · rcases hs with ⟨-, rfl⟩ | ⟨-, rfl⟩ <;> simp at h0
  · have hv : Half.voice { X with c := { X.c with state := s } } = X.voice := by
      rcases hs with ⟨h0, rfl⟩ | ⟨h0, rfl⟩ <;> simp [Half.voice, CS.voice, h0, Half.due]
    exact hv ▸ ho

/-- A packet that is awaited. -/
theorem Talks.receive {hd : Header} {f : List CF} (h : Talks X Y f (hd.kind :: ls)) (ht : Tidy X) :
    Tidy { X with c := (receive X.c hd).1 } ∧ Talks { X with c := (receive X.c hd).1 } Y f ls := by
  obtain ⟨e, he, hb⟩ := h.back.hear
  unfold Half.ear at he
  cases hd with
  | connect i mss w =>
    have hs : X.c.state = .listening := by
      revert he
      cases X.c.state <;> simp [CS.ear, Ear.hear, Header.kind]
    simpa [Mux.receive, hs] using h.connect ht hs
  | accept i mss w =>
    have hs : X.c.state = .connecting := by
      revert he
      cases X.c.state <;> simp [CS.ear, Ear.hear, Header.kind]
    simpa [Mux.receive, hs] using h.accept ht hs
  | reset i => simp [Ear.hear, Header.kind] at he
  | data i len =>
    have hc : (Mux.receive X.c (.data i len)).1 = X.c := by
      simp only [Mux.receive]
      split <;> rfl
    have he' : e = X.ear := by
      revert he
      unfold Half.ear
      cases X.c.state <;> simp [CS.ear, Ear.hear, Header.kind] <;> exact Eq.symm
    rw [hc]
    exact ⟨ht, h.out, he' ▸ hb⟩
  | window i w =>
    have he' : e = X.ear := by
      revert he
      unfold Half.ear
      cases X.c.state <;> simp [CS.ear, Ear.hear, Header.kind] <;> exact Eq.symm
    have ht' : Tidy { X with c := { X.c with sendwin := w } } :=
      ht.of_tx rfl rfl (fun _ h0 => h0) fun h0 => h0
    simp only [Mux.receive]
    split
    · exact ⟨ht', h.out, he' ▸ hb⟩
    · exact ⟨ht, h.out, he' ▸ hb⟩
  | close i =>
    have hs : X.c.state = .established ∨ X.c.state = .wrclosed := by
      revert he
      cases X.c.state <;> simp [CS.ear, Ear.hear, Header.kind]
    rcases hs with hs | hs
    · simpa [Mux.receive, hs] using h.close ht (.inl ⟨hs, rfl⟩)
    · simpa [Mux.receive, hs] using h.close ht (.inr ⟨hs, rfl⟩)

end Csup.Mux
