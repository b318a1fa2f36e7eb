import Csup.Framework.Guarded
import Csup.Mux.Defs
import Mathlib.Data.List.Basic

/-!
# The channels of a multiplexer: `chan_get`, `chan_insert`, `sender_scan`

`Table` is the part of a `struct mux` that tells which channels there are, and `Side` the
threads that look channels up in it, with what the peer sent. One step is a stretch of code
under the lock of the multiplexer. The assertions are compiled out: an index that `channels`
does not have, and a channel that is not there, are a `Fault`.

What is done to a channel by a call that has it already (`chan_read`, `chan_write`, the rest of
`sender_loop`) is left open: `Act.use`.

Main theorem: `channels_iff`. There are the first `nchans` channels, in every state of a run,
exactly when every packet names a channel that `channels` has room for, behind channels that
are there.
-/

namespace Csup.Mux

open Csup.Framework

def muxMaxchan : Nat := 2

inductive Fault
  /-- an index that is not below `MUX_MAXCHAN` -/
  | index (id : Nat)
  /-- a null pointer is followed -/
  | missing (id : Nat)
  deriving DecidableEq

/-- What `mux_shutdown` does to a channel. -/
def Chan.shut (c : Chan) : Chan :=
  if c.state = .unused then c else { c with state := .closed, flags := .none }

structure Table where
  channels : Nat → Option Chan
  nchans : Nat
  senderLastid : Nat
  closed : Bool

namespace Table

/-- `mux_open` -/
def new : Table := ⟨fun _ => none, 0, 0, false⟩

def has (t : Table) (i : Nat) : Bool := (t.channels i).isSome

def set (t : Table) (id : Nat) (c : Chan) : Table :=
  { t with channels := Function.update t.channels id (some c) }

/-- What is done to a channel that is there. -/
def modify (t : Table) (id : Nat) (f : Chan → Chan) : Table :=
  { t with channels := Function.update t.channels id ((t.channels id).map f) }

/-- `m->channels[i]`, when it is locked next. -/
def chan (t : Table) (i : Nat) : Except Fault Chan :=
  if i < muxMaxchan then
    match t.channels i with
    | some c => .ok c
    | none => .error (.missing i)
  else .error (.index i)

def chanGet (t : Table) (id : Nat) : Except Fault (Chan × Table) :=
  if id < muxMaxchan then
    match t.channels id with
    | some c => .ok (c, t)
    | none => .ok (Chan.new, { t.set id Chan.new with nchans := t.nchans + 1 })
  else .error (.index id)

/-- The loop of `chan_listen`, with `n` channels to look at from the `i`th on. -/
def listenFrom (t : Table) : Nat → Nat → Except Fault (Option (Nat × Table))
  | 0, _ => .ok none
  | n + 1, i =>
    match t.chan i with
    | .error e => .error e
    | .ok c =>
      match Mux.chanListen c with
      | some c' => .ok (some (i, t.set i c'))
      | none => t.listenFrom n (i + 1)

/-- `chan_listen`, up to where it makes a channel of its own. -/
def chanListen (t : Table) : Except Fault (Option (Nat × Table)) := t.listenFrom t.nchans 0

/-- The loop of `chan_insert`. -/
def insertFrom (t : Table) (c : Chan) : Nat → Nat → Option (Nat × Table)
  | 0, _ => none
  | n + 1, i =>
    match t.channels i with
    | none => some (i, { t.set i c with nchans := t.nchans + 1 })
    | some _ => t.insertFrom c n (i + 1)

def chanInsert (t : Table) (c : Chan) : Option (Nat × Table) := t.insertFrom c muxMaxchan 0

def nextId (t : Table) (id : Nat) : Nat := if id + 1 < t.nchans then id + 1 else 0

/-- The loop of `sender_scan`, for so many channels. -/
def scanFrom (t : Table) : Nat → Nat → Except Fault (Option (Nat × CF × Table))
  | 0, _ => .ok none
  | n + 1, id =>
    match t.chan (t.nextId id) with
    | .error e => .error e
    | .ok c =>
      match Mux.senderScan c with
      | some (c', what) =>
        .ok (some (t.nextId id, what, { t.set (t.nextId id) c' with senderLastid := t.nextId id }))
      | none => if t.nextId id = t.senderLastid then .ok none else t.scanFrom n (t.nextId id)

def senderScan (t : Table) : Except Fault (Option (Nat × CF × Table)) :=
  if t.nchans = 0 then .ok none else t.scanFrom t.nchans t.senderLastid

/-- `mux_shutdown`, which looks at every index of `channels`. -/
def muxShutdown (t : Table) : Table :=
  if t.closed then t
  else
    { t with
      closed := true
      channels := fun i => (t.channels i).map Chan.shut }

/-- The loop of `mux_close`, which frees the channels that are there. -/
def closeFrom : Nat → Nat → Except Fault Unit
  | 0, _ => .ok ()
  | n + 1, i => if i < muxMaxchan then closeFrom n (i + 1) else .error (.index i)

def muxClose (t : Table) : Except Fault Unit := closeFrom t.nchans 0

end Table

/-- The channel `receiver_loop` gets by a header. -/
def Header.lookup : Header → Option Nat
  | .reset _ => none
  | h => some h.id.toNat

structure Side where
  table : Table
  /-- what the peer sent and the receiver has not read -/
  input : List Byte
  /-- the calls of `chan_listen` that are to insert a channel -/
  inserting : Nat
  /-- what calls of `chan_listen` returned -/
  listened : List Nat
  /-- where the sender is back from `sender_waitforwork` -/
  picked : Option (Nat × CF)
  receiver : ReceiverPc
  freed : Bool

/-- The receiver thread has started, and the channel 0 is not there yet. -/
def Side.init : Side := ⟨Table.new, [], 0, [], none, .idle, false⟩

inductive Act
  | arrive (bytes : List Byte)
  | connect
  | listen
  | insert
  | accept (id : Nat)
  | use (id : Nat) (c : Chan)
  | scan
  | prepare
  | receive
  | fill
  | filled
  | shutdown
  | close

/-- `chan_connect(m, 0)`, up to where it waits. -/
def Side.connect (s : Side) : Except Fault Side :=
  (s.table.chanGet 0).map fun p =>
    match chanConnect p.1 with
    | some c => { s with table := p.2.set 0 c }
    | none => { s with table := p.2 }

/-- A packet that is there. -/
def Side.receive (s : Side) (h : Header) (rest : List Byte) : Except Fault Side :=
  match h.lookup with
  | none => .ok { s with input := rest, receiver := .badproto }
  | some id => (s.table.chanGet id).map fun p =>
    { s with
      table := p.2.set id (Mux.receive p.1 h).1
      input := rest
      receiver := (Mux.receive p.1 h).2 }

/-- A step, if it can be taken. -/
def Side.act (s : Side) : Act → Option (Except Fault Side)
  | .arrive bytes => some (.ok { s with input := s.input ++ bytes })
  | .connect => some s.connect
  | .listen => some (s.table.chanListen.map fun
    | some (i, t) => { s with table := t, listened := i :: s.listened }
    | none => { s with inserting := s.inserting + 1 })
  | .insert =>
    if s.inserting = 0 then none
    else
      match s.table.chanInsert { Chan.new with state := .listening } with
      | some (i, t) => some (.ok
        { s with table := t, inserting := s.inserting - 1, listened := i :: s.listened })
      | none => some (.ok { s with inserting := s.inserting - 1 })
  | .accept id =>
    if id ∈ s.listened then some ((s.table.chanGet id).map fun p => { s with table := p.2 })
    else none
  | .use id c => if s.table.has id then some (.ok { s with table := s.table.set id c }) else none
  | .scan =>
    if s.picked.isSome then none
    else some (s.table.senderScan.map fun
      | some (id, what, t) => { s with table := t, picked := some (id, what) }
      | none => s)
  | .prepare => s.picked.map fun (id, _) =>
    (s.table.chanGet id).map fun p => { s with table := p.2, picked := none }
  | .receive =>
    if s.receiver = .idle then
      match decode s.input with
      | .wait => none
      | .unknown => some (.ok { s with receiver := .badproto })
      | .header h rest => some (s.receive h rest)
    else none
  | .fill =>
    match s.receiver with
    | .data id len =>
      if len ≤ s.input.length then some (.ok
        { s with
          table := s.table.modify id.toNat fun c =>
            { c with recvbuf := c.recvbuf.fill (s.input.take len) }
          input := s.input.drop len
          receiver := .filled id len })
      else none
    | _ => none
  | .filled =>
    match s.receiver with
    | .filled id len => some (.ok
      { s with
        table := s.table.modify id.toNat fun c => { c with recvbuf := c.recvbuf.grow len }
        receiver := .idle })
    | _ => none
  | .shutdown => some (.ok { s with table := s.table.muxShutdown })
  | .close =>
    if s.table.closed then some (s.table.muxClose.map fun _ => { s with freed := true }) else none

/-- There is no step once `mux_close` freed the channels. -/
def Side.step (s : Side) (a : Act) : Option (Except Fault Side) :=
  if s.freed then none else s.act a

/-! ## What there is -/

namespace Table

/-- The channels below `nchans` are there, and `nchans` is an index or one beyond the last. -/
def Safe (t : Table) : Prop := t.nchans ≤ muxMaxchan ∧ ∀ i < t.nchans, t.has i = true

structure Counted (t : Table) : Prop where
  bound : ∀ i, muxMaxchan ≤ i → t.has i = false
  count : t.nchans = (t.has 0).toNat + (t.has 1).toNat
  lastid : t.senderLastid < max 1 t.nchans

/-- `t'` has the channels of `t`. -/
structure Same (t t' : Table) : Prop where
  has : t'.has = t.has
  nchans : t'.nchans = t.nchans
  lastid : t'.senderLastid = t.senderLastid ∨ t'.senderLastid < t.nchans

/-- `t'` has the channels of `t` and the channel `id`. -/
structure Added (t : Table) (id : Nat) (t' : Table) : Prop where
  lt : id < muxMaxchan
  free : t.has id = false
  has : t'.has = Function.update t.has id true
  nchans : t'.nchans = t.nchans + 1
  lastid : t'.senderLastid = t.senderLastid

variable {t t' : Table} {id : Nat}

theorem Counted.lt (h : t.Counted) (hi : t.has id = true) : id < muxMaxchan := by
  by_contra hlt
  have := h.bound id (by omega)
  simp_all

theorem Counted.safe_iff (h : t.Counted) : t.Safe ↔ (t.has 1 = true → t.has 0 = true) := by
  have hc := h.count
  unfold Safe
  cases h0 : t.has 0 <;> cases h1 : t.has 1 <;>
    simp only [h0, h1, Bool.toNat_true, Bool.toNat_false] at hc
  · simp [hc]
  · exact iff_of_false (fun hs => by simpa [h0] using hs.2 0 (by omega)) (by simp)
  · refine iff_of_true ⟨by simp [hc, muxMaxchan], fun i hi => ?_⟩ (by simp)
    obtain rfl : i = 0 := by omega
    exact h0
  · refine iff_of_true ⟨by simp [hc, muxMaxchan], fun i hi => ?_⟩ (by simp)
    obtain rfl | rfl : i = 0 ∨ i = 1 := by omega
    · exact h0
    · exact h1

/-- Where a channel is, all the channels before it are. -/
theorem Counted.below (h : t.Counted) (hs : t.Safe) (hi : t.has id = true) :
    ∀ j < id, t.has j = true := by
  intro j hj
  have hlt := h.lt hi
  have h2 : muxMaxchan = 2 := rfl
  obtain ⟨rfl, rfl⟩ : j = 0 ∧ id = 1 := by omega
  exact h.safe_iff.mp hs hi

theorem Same.counted (h : t.Same t') (hc : t.Counted) : t'.Counted where
  bound := by rw [h.has]; exact hc.bound
  count := by rw [h.has, h.nchans]; exact hc.count
  lastid := by
    have := hc.lastid
    have := h.lastid
    rw [h.nchans]
    omega

theorem Same.safe_iff (h : t.Same t') : t'.Safe ↔ t.Safe := by
  unfold Safe
  rw [h.has, h.nchans]

theorem Added.counted (h : t.Added id t') (hc : t.Counted) : t'.Counted where
  bound i hi := by
    have hne : i ≠ id := by have := h.lt; omega
    rw [h.has, Function.update_of_ne hne]
    exact hc.bound i hi
  count := by
    have hcount := hc.count
    have hfree := h.free
    have h2 : id < 2 := h.lt
    rw [h.has, h.nchans]
    obtain rfl | rfl : id = 0 ∨ id = 1 := by omega
    · simp [hcount, hfree]
      omega
    · simp [hcount, hfree]
  lastid := by
    have := hc.lastid
    rw [h.lastid, h.nchans]
    omega

theorem Added.safe_iff (h : t.Added id t') (hc : t.Counted) :
    t'.Safe ↔ ∀ j < id, t.has j = true := by
  rw [(h.counted hc).safe_iff, h.has]
  have h2 : id < 2 := h.lt
  obtain rfl | rfl : id = 0 ∨ id = 1 := by omega
  · simp
  · simp

/-! ## What is done to the channels -/

theorem Same.refl (t : Table) : t.Same t := ⟨rfl, rfl, .inl rfl⟩

theorem same_set {c : Chan} (h : t.has id = true) : t.Same (t.set id c) where
  has := by
    funext i
    by_cases hi : i = id
    · subst hi
      simp [has, set, ← h]
    · simp [has, set, hi]
  nchans := rfl
  lastid := .inl rfl

theorem same_modify {f : Chan → Chan} : t.Same (t.modify id f) where
  has := by
    funext i
    by_cases hi : i = id
    · subst hi
      simp [has, modify]
    · simp [has, modify, hi]
  nchans := rfl
  lastid := .inl rfl

theorem same_muxShutdown (t : Table) : t.Same t.muxShutdown := by
  unfold muxShutdown
  split
  · exact .refl t
  · exact ⟨by funext i; simp [has], rfl, .inl rfl⟩

theorem added_set {c : Chan} (hlt : id < muxMaxchan) (h : t.has id = false) :
    t.Added id { t.set id c with nchans := t.nchans + 1 } where
  lt := hlt
  free := h
  has := by
    funext i
    by_cases hi : i = id
    · subst hi
      simp [has, set]
    · simp [has, set, hi]
  nchans := rfl
  lastid := rfl

theorem chan_of_has (hlt : id < muxMaxchan) (h : t.has id = true) : ∃ c, t.chan id = .ok c := by
  obtain ⟨c, hc⟩ := Option.isSome_iff_exists.mp h
  exact ⟨c, by simp [chan, hlt, hc]⟩

theorem chanGet_of_has (hlt : id < muxMaxchan) (h : t.has id = true) :
    ∃ c, t.chanGet id = .ok (c, t) := by
  obtain ⟨c, hc⟩ := Option.isSome_iff_exists.mp h
  exact ⟨c, by simp [chanGet, hlt, hc]⟩

theorem chanGet_of_free (hlt : id < muxMaxchan) (h : t.has id = false) :
    t.chanGet id = .ok (Chan.new, { t.set id Chan.new with nchans := t.nchans + 1 }) := by
  have hc : t.channels id = none := Option.not_isSome_iff_eq_none.mp (by simpa [has] using h)
  simp [chanGet, hlt, hc]

theorem listenFrom_spec {n i : Nat} (hlt : i + n ≤ muxMaxchan)
    (h : ∀ j, i ≤ j → j < i + n → t.has j = true) :
    t.listenFrom n i = .ok none ∨
      ∃ j c, t.has j = true ∧ t.listenFrom n i = .ok (some (j, t.set j c)) := by
  induction n generalizing i with
  | zero => exact .inl rfl
  | succ n ih =>
    have hi : t.has i = true := h i (by omega) (by omega)
    obtain ⟨c, hc⟩ := chan_of_has (by omega) hi
    unfold listenFrom
    simp only [hc]
    cases hl : Mux.chanListen c with
    | some c' => exact .inr ⟨i, c', hi, rfl⟩
    | none => exact ih (by omega) fun j hj hj' => h j (by omega) (by omega)

theorem insertFrom_spec {n i : Nat} (c : Chan) (hlt : i + n ≤ muxMaxchan)
    (h : ∀ j < i, t.has j = true) :
    t.insertFrom c n i = none ∨
      ∃ j, j < muxMaxchan ∧ t.has j = false ∧ (∀ k < j, t.has k = true) ∧
        t.insertFrom c n i = some (j, { t.set j c with nchans := t.nchans + 1 }) := by
  induction n generalizing i with
  | zero => exact .inl rfl
  | succ n ih =>
    unfold insertFrom
    cases hc : t.channels i with
    | none => exact .inr ⟨i, by omega, by simp [has, hc], h, rfl⟩
    | some c' =>
      refine ih (by omega) fun j hj => ?_
      obtain hji | rfl : j < i ∨ j = i := by omega
      · exact h j hji
      · simp [has, hc]

theorem has_of_insertFrom {n i j : Nat} {c : Chan} (h : t.insertFrom c n i = none) (hi : i ≤ j)
    (hj : j < i + n) : t.has j = true := by
  induction n generalizing i with
  | zero => omega
  | succ n ih =>
    unfold insertFrom at h
    cases hc : t.channels i with
    | none => simp [hc] at h
    | some c' =>
      obtain rfl | hlt : i = j ∨ i < j := by omega
      · simp [has, hc]
      · exact ih (by simpa [hc] using h) hlt (by omega)

theorem nextId_lt (hn : t.nchans ≠ 0) : t.nextId id < t.nchans := by
  unfold nextId
  split <;> omega

theorem scanFrom_spec {n : Nat} (hs : t.Safe) (hn : t.nchans ≠ 0) (id : Nat) :
    t.scanFrom n id = .ok none ∨
      ∃ i c what, i < t.nchans ∧
        t.scanFrom n id = .ok (some (i, what, { t.set i c with senderLastid := i })) := by
  induction n generalizing id with
  | zero => exact .inl rfl
  | succ n ih =>
    have hlt : t.nextId id < t.nchans := nextId_lt hn
    obtain ⟨c, hc⟩ := chan_of_has (Nat.lt_of_lt_of_le hlt hs.1) (hs.2 _ hlt)
    unfold scanFrom
    simp only [hc]
    cases Mux.senderScan c with
    | none =>
      show (if t.nextId id = t.senderLastid then _ else _) = _ ∨ _
      split
      · exact .inl rfl
      · exact ih _
    | some p => exact .inr ⟨_, p.1, p.2, hlt, rfl⟩

theorem senderScan_spec (hs : t.Safe) :
    t.senderScan = .ok none ∨
      ∃ i c what, i < t.nchans ∧
        t.senderScan = .ok (some (i, what, { t.set i c with senderLastid := i })) := by
  unfold senderScan
  split
  · exact .inl rfl
  · next hn => exact scanFrom_spec hs hn _

theorem same_scan {c : Chan} (hs : t.Safe) (hlt : id < t.nchans) :
    t.Same { t.set id c with senderLastid := id } :=
  have h : t.Same (t.set id c) := same_set (hs.2 id hlt)
  ⟨h.has, h.nchans, .inr hlt⟩

theorem closeFrom_spec {n i : Nat} (h : i + n ≤ muxMaxchan) : closeFrom n i = .ok () := by
  induction n generalizing i with
  | zero => rfl
  | succ n ih =>
    have hi : i < muxMaxchan := by omega
    show (if i < muxMaxchan then closeFrom n (i + 1) else _) = _
    rw [if_pos hi]
    exact ih (by omega)

/-- The loop of `sender_scan` comes round to the channel it began behind. -/
theorem scanFrom_fuel {n m k : Nat} (hlt : t.senderLastid < t.nchans) (hk : k + n = t.nchans)
    (hn : 0 < n)
    (hid : id = if t.senderLastid + k < t.nchans then t.senderLastid + k
      else t.senderLastid + k - t.nchans) :
    t.scanFrom (n + m) id = t.scanFrom n id := by
  induction n generalizing k id with
  | zero => omega
  | succ n ih =>
    have hnext : t.nextId id = if t.senderLastid + (k + 1) < t.nchans then t.senderLastid + (k + 1)
        else t.senderLastid + (k + 1) - t.nchans := by
      unfold nextId
      split at hid <;> split <;> split <;> omega
    rw [Nat.add_right_comm]
    unfold scanFrom
    cases t.chan (t.nextId id) with
    | error e => rfl
    | ok c =>
      dsimp only
      cases Mux.senderScan c with
      | some p => rfl
      | none =>
        dsimp only
        by_cases he : t.nextId id = t.senderLastid
        · rw [if_pos he, if_pos he]
        · have hn' : 0 < n := by
            by_contra h0
            apply he
            rw [hnext, if_neg (by omega)]
            omega
          rw [if_neg he, if_neg he, ih (k := k + 1) (by omega) hn' hnext]

theorem senderScan_fuel {m : Nat} (h : t.Counted) (hn : t.nchans ≠ 0) :
    t.scanFrom (t.nchans + m) t.senderLastid = t.senderScan := by
  have hlt : t.senderLastid < t.nchans := by have := h.lastid; omega
  rw [senderScan, if_neg hn]
  exact scanFrom_fuel hlt (Nat.zero_add _) (by omega) (by simp [hlt])

end Table

/-! ## Runs -/

namespace Side

/-- What holds of the channels, and of the ids that were looked up. -/
structure Inv (s : Side) : Prop where
  counted : s.table.Counted
  listened : ∀ id ∈ s.listened, s.table.has id = true
  picked : ∀ p, s.picked = some p → s.table.has p.1 = true

/-- The packet that is read next, if it names a channel, names one for which there is room, and
those before it are there. -/
def Orderly (s : Side) : Act → Prop
  | .receive => ∀ h rest id, decode s.input = .header h rest → h.lookup = some id →
    id < muxMaxchan ∧ ∀ j < id, s.table.has j = true
  | _ => True

variable {s s' : Side} {a : Act} {r : Except Fault Side}

theorem inv_init : Inv init where
  counted := ⟨fun _ _ => rfl, rfl, by decide⟩
  listened := by simp [init]
  picked := by simp [init]

theorem safe_init : init.table.Safe := ⟨by decide, fun i hi => by simp [init, Table.new] at hi⟩

theorem Inv.same (hi : Inv s) (h : s.table.Same s'.table)
    (hl : ∀ id ∈ s'.listened, id ∈ s.listened ∨ s.table.has id = true)
    (hp : ∀ p, s'.picked = some p → s.picked = some p ∨ s.table.has p.1 = true) : Inv s' where
  counted := h.counted hi.counted
  listened id hid := by
    rw [h.has]
    exact (hl id hid).elim (hi.listened id) fun h => h
  picked p hps := by
    rw [h.has]
    exact (hp p hps).elim (hi.picked p) fun h => h

theorem Inv.added {id : Nat} (hi : Inv s) (h : s.table.Added id s'.table)
    (hl : ∀ i ∈ s'.listened, i ∈ s.listened ∨ i = id)
    (hp : s'.picked = s.picked) : Inv s' where
  counted := h.counted hi.counted
  listened i hid := by
    rw [h.has]
    by_cases hne : i = id
    · rw [hne, Function.update_self]
    · rw [Function.update_of_ne hne]
      exact hi.listened i ((hl i hid).resolve_right hne)
  picked p hps := by
    have hid := hi.picked p (hp ▸ hps)
    have hne : p.1 ≠ id := fun he => by simp [he, h.free] at hid
    rw [h.has, Function.update_of_ne hne, hid]

/-- A step that does not fail, and leads to a safe state. -/
def Fine (r : Except Fault Side) : Prop := ∃ s', r = .ok s' ∧ s'.table.Safe ∧ Inv s'

theorem fine_same (hi : Inv s) (hs : s.table.Safe) (h : s.table.Same s'.table)
    (hl : ∀ id ∈ s'.listened, id ∈ s.listened ∨ s.table.has id = true)
    (hp : ∀ p, s'.picked = some p → s.picked = some p ∨ s.table.has p.1 = true) :
    Fine (.ok s') := ⟨s', rfl, h.safe_iff.mpr hs, hi.same h hl hp⟩

theorem fine_table (hi : Inv s) (hs : s.table.Safe) (h : s.table.Same s'.table)
    (hl : s'.listened = s.listened) (hp : s'.picked = s.picked ∨ s'.picked = none) :
    Fine (.ok s') :=
  fine_same hi hs h (fun _ h => .inl (hl ▸ h)) fun p h => by
    obtain hp | hp := hp
    · exact .inl (hp ▸ h)
    · simp [hp] at h

/-- `chan_get`, and what is then done to the channel. -/
theorem get_spec {id : Nat} {f : Chan × Table → Side} (hi : Inv s) (hs : s.table.Safe)
    (hsame : ∀ p : Chan × Table, p.2.has id = true → p.2.Same (f p).table)
    (hl : ∀ p, (f p).listened = s.listened)
    (hp : ∀ p, (f p).picked = s.picked ∨ (f p).picked = none) :
    (∀ s', (s.table.chanGet id).map f = .ok s' → Inv s') ∧
      ((∃ s', (s.table.chanGet id).map f = .ok s' ∧ s'.table.Safe) ↔
        id < muxMaxchan ∧ ∀ j < id, s.table.has j = true) := by
  -- the state of the threads beside a table that `chan_get` returns
  have hf {p : Chan × Table} (hi' : Inv { s with table := p.2 }) (h : p.2.has id = true) :
      Inv (f p) := by
    refine hi'.same (hsame p h) (fun i hid => .inl (hl p ▸ hid)) fun q hq => ?_
    obtain hp | hp := hp p
    · exact .inl (hp ▸ hq)
    · simp [hp] at hq
  by_cases hlt : id < muxMaxchan
  · cases h : s.table.has id with
    | true =>
      obtain ⟨c, hc⟩ := Table.chanGet_of_has hlt h
      have hsafe : (f (c, s.table)).table.Safe := (hsame _ h).safe_iff.mpr hs
      rw [hc]
      exact ⟨fun s' he => Except.ok.inj he ▸ hf hi h,
        iff_of_true ⟨_, rfl, hsafe⟩ ⟨hlt, hi.counted.below hs h⟩⟩
    | false =>
      obtain ⟨t, hget, hadd⟩ :
          ∃ t, s.table.chanGet id = .ok (Chan.new, t) ∧ s.table.Added id t :=
        ⟨_, Table.chanGet_of_free hlt h, Table.added_set hlt h⟩
      have h' : t.has id = true := by rw [hadd.has, Function.update_self]
      have hinv : Inv { s with table := t } := hi.added hadd (fun i => .inl) rfl
      rw [hget]
      refine ⟨fun s' he => Except.ok.inj he ▸ hf hinv h', ?_⟩
      rw [and_iff_right hlt, ← hadd.safe_iff hi.counted, ← (hsame (Chan.new, t) h').safe_iff]
      exact ⟨fun ⟨s', he, hs'⟩ => Except.ok.inj he ▸ hs', fun hs' => ⟨_, rfl, hs'⟩⟩
  · rw [show s.table.chanGet id = .error (.index id) from if_neg hlt]
    exact ⟨fun s' he => (nomatch he), iff_of_false (fun ⟨s', he, _⟩ => (nomatch he))
      fun h => hlt h.1⟩

theorem get_fine {id : Nat} {f : Chan × Table → Side} (hi : Inv s) (hs : s.table.Safe)
    (hsame : ∀ p : Chan × Table, p.2.has id = true → p.2.Same (f p).table)
    (hl : ∀ p, (f p).listened = s.listened)
    (hp : ∀ p, (f p).picked = s.picked ∨ (f p).picked = none)
    (hlt : id < muxMaxchan) (h : ∀ j < id, s.table.has j = true) :
    Fine ((s.table.chanGet id).map f) := by
  have hg := get_spec hi hs hsame hl hp
  obtain ⟨s', he, hs'⟩ := hg.2.mpr ⟨hlt, h⟩
  exact ⟨s', he, hs', hg.1 s' he⟩

theorem connect_fine (hi : Inv s) (hs : s.table.Safe) : Fine s.connect := by
  refine get_fine hi hs (fun p h => ?_) (fun p => ?_) (fun p => .inl ?_) (by decide) (by simp)
  all_goals cases chanConnect p.1
  · exact .refl _
  · exact Table.same_set h
  all_goals rfl

theorem receive_spec {h : Header} {rest : List Byte} (hi : Inv s) (hs : s.table.Safe) :
    (∀ s', s.receive h rest = .ok s' → Inv s') ∧
      ((∃ s', s.receive h rest = .ok s' ∧ s'.table.Safe) ↔
        ∀ id, h.lookup = some id → id < muxMaxchan ∧ ∀ j < id, s.table.has j = true) := by
  unfold receive
  cases hl : h.lookup with
  | none =>
    obtain ⟨s', he, hs', hi'⟩ : Fine (.ok { s with input := rest, receiver := .badproto }) :=
      fine_table hi hs (.refl _) rfl (.inl rfl)
    exact ⟨fun t ht => Except.ok.inj (he.symm.trans ht) ▸ hi',
      iff_of_true ⟨s', he, hs'⟩ (by simp)⟩
  | some id =>
    have hg := @get_spec s id
      (fun p => { s with
        table := p.2.set id (Mux.receive p.1 h).1
        input := rest
        receiver := (Mux.receive p.1 h).2 })
      hi hs (fun p h => Table.same_set h) (fun _ => rfl) fun _ => .inl rfl
    simpa using hg

theorem act_fine (hi : Inv s) (hs : s.table.Safe) (ha : a ≠ .receive) (h : s.act a = some r) :
    Fine r := by
  cases a with
  | arrive bytes => exact Option.some.inj h ▸ fine_table hi hs (.refl _) rfl (.inl rfl)
  | connect => exact Option.some.inj h ▸ connect_fine hi hs
  | listen =>
    obtain rfl := Option.some.inj h
    rcases Table.listenFrom_spec (t := s.table) (n := s.table.nchans) (i := 0)
      (by have := hs.1; omega) (fun j _ hj => hs.2 j (by omega)) with hl | ⟨j, c, hj, hl⟩
    · rw [Table.chanListen, hl]
      exact fine_table hi hs (.refl _) rfl (.inl rfl)
    · rw [Table.chanListen, hl]
      exact fine_same hi hs (Table.same_set hj)
        (fun i hid => (List.mem_cons.mp hid).elim (fun h => .inr (h ▸ hj)) .inl) fun _ => .inl
  | insert =>
    simp only [act] at h
    split at h
    · cases h
    · rcases Table.insertFrom_spec (t := s.table) (n := muxMaxchan) (i := 0)
        { Chan.new with state := .listening } (by omega) (by simp)
        with hl | ⟨j, hlt, hj, hbelow, hl⟩
      · rw [Table.chanInsert, hl] at h
        exact Option.some.inj h ▸ fine_table hi hs (.refl _) rfl (.inl rfl)
      · rw [Table.chanInsert, hl] at h
        obtain rfl := Option.some.inj h
        have hadd := Table.added_set (c := { Chan.new with state := .listening }) hlt hj
        exact ⟨_, rfl, (hadd.safe_iff hi.counted).mpr hbelow,
          hi.added hadd (fun i hi => (List.mem_cons.mp hi).symm) rfl⟩
  | accept id =>
    simp only [act] at h
    split at h
    · next hid =>
      have hhas := hi.listened id hid
      exact Option.some.inj h ▸ get_fine hi hs (fun _ _ => .refl _) (fun _ => rfl)
        (fun _ => .inl rfl) (hi.counted.lt hhas) (hi.counted.below hs hhas)
    · cases h
  | use id c =>
    simp only [act] at h
    split at h
    · next hid => exact Option.some.inj h ▸ fine_table hi hs (Table.same_set hid) rfl (.inl rfl)
    · cases h
  | scan =>
    simp only [act] at h
    split at h
    · cases h
    · obtain rfl := Option.some.inj h
      rcases Table.senderScan_spec hs with hl | ⟨i, c, what, hlt, hl⟩
      · rw [hl]
        exact fine_table hi hs (.refl _) rfl (.inl rfl)
      · rw [hl]
        refine fine_same hi hs (Table.same_scan hs hlt) (fun _ => .inl) fun p hp => .inr ?_
        obtain rfl : (i, what) = p := Option.some.inj hp
        exact hs.2 i hlt
  | prepare =>
    obtain ⟨p, hp, rfl⟩ := Option.map_eq_some_iff.mp h
    have hhas := hi.picked p hp
    exact get_fine hi hs (fun _ _ => .refl _) (fun _ => rfl) (fun _ => .inr rfl)
      (hi.counted.lt hhas) (hi.counted.below hs hhas)
  | receive => exact absurd rfl ha
  | fill =>
    simp only [act] at h
    split at h
    · split at h
      · exact Option.some.inj h ▸ fine_table hi hs Table.same_modify rfl (.inl rfl)
      · cases h
    · cases h
  | filled =>
    simp only [act] at h
    split at h
    · exact Option.some.inj h ▸ fine_table hi hs Table.same_modify rfl (.inl rfl)
    · cases h
  | shutdown =>
    exact Option.some.inj h ▸ fine_table hi hs (Table.same_muxShutdown _) rfl (.inl rfl)
  | close =>
    simp only [act] at h
    split at h
    · obtain rfl := Option.some.inj h
      rw [Table.muxClose, Table.closeFrom_spec (by have := hs.1; omega)]
      exact fine_table hi hs (.refl _) rfl (.inl rfl)
    · cases h

/-- `Orderly` is when a step does not fail and leads to a safe state. -/
theorem act_spec (hi : Inv s) (hs : s.table.Safe) (h : s.act a = some r) :
    (∀ s', r = .ok s' → Inv s') ∧ ((∃ s', r = .ok s' ∧ s'.table.Safe) ↔ Orderly s a) := by
  by_cases ha : a = .receive
  · subst ha
    simp only [act] at h
    split at h
    · cases hd : decode s.input with
      | wait => simp [hd] at h
      | unknown =>
        obtain rfl : Except.ok { s with receiver := .badproto } = r := by simpa [hd] using h
        obtain ⟨s', he, hs', hi'⟩ : Fine (.ok { s with receiver := .badproto }) :=
          fine_table hi hs (.refl _) rfl (.inl rfl)
        exact ⟨fun t ht => Except.ok.inj (he.symm.trans ht) ▸ hi',
          iff_of_true ⟨s', he, hs'⟩ (by simp [Orderly, hd])⟩
      | header hdr rest =>
        obtain rfl : s.receive hdr rest = r := by simpa [hd] using h
        have ho : Orderly s .receive ↔ ∀ id, hdr.lookup = some id →
            id < muxMaxchan ∧ ∀ j < id, s.table.has j = true := by
          simp only [Orderly, hd, Decoded.header.injEq]
          exact ⟨fun h id => h _ _ id ⟨rfl, rfl⟩, fun h _ _ id he => he.1 ▸ h id⟩
        rw [ho]
        exact receive_spec hi hs
    · cases h
  · obtain ⟨s', rfl, hs', hi'⟩ := act_fine hi hs ha h
    have ho : Orderly s a := by cases a <;> trivial
    exact ⟨fun t ht => Except.ok.inj ht ▸ hi', iff_of_true ⟨s', rfl, hs'⟩ ho⟩

end Side

/-- In every state of a run there are the first `nchans` channels, and no step uses an index
that there is not or a channel that is not there, exactly when every packet, as it is read,
names a channel for which there is room and in front of which none is missing. -/
theorem channels_iff (as : List Act) :
    Safely Side.step (fun s => s.table.Safe) Side.init as ↔
      Within Side.step Side.Orderly Side.init as := by
  refine @safely_iff_within _ _ _ _ Side.Inv _ _ (fun s a s' hi hs h => ?_)
    (fun s a r hi hs h => ?_) _ Side.inv_init Side.safe_init as
  all_goals
    simp only [Side.step] at h
    split at h
    · cases h
  · exact (Side.act_spec hi hs h).1 s' rfl
  · exact (Side.act_spec hi hs h).2

/-- A peer that connects the channel 1 before the multiplexer connects its own, and one that
closes a channel there is no room for. -/
theorem channels_peer :
    ¬ Safely Side.step (fun s => s.table.Safe) Side.init
        [.arrive [2, 1, 4, 0, 0, 0, 64, 0], .receive] ∧
      ¬ Safely Side.step (fun s => s.table.Safe) Side.init [.arrive [7, 200], .receive] := by
  constructor
  · intro h
    obtain ⟨s, hs, h⟩ := h.2 _ rfl
    obtain rfl := Except.ok.inj hs
    obtain ⟨s, hs, h⟩ := h.2 _ rfl
    obtain rfl := Except.ok.inj hs
    exact absurd (h.2 0 (by decide)) (by decide)
  · intro h
    obtain ⟨s, hs, h⟩ := h.2 _ rfl
    obtain rfl := Except.ok.inj hs
    obtain ⟨s, hs, -⟩ := h.2 _ rfl
    cases hs

end Csup.Mux
