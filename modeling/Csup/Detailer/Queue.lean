import Csup.Detailer.Defs

/-!
# The queue of fixups

What holds between the steps of the threads, for the queue, its lock, and the
detailer in `fixups_get`, each part on its own.

* `State.Queue.step`: the size is the length, and what is closed stays so;
* `State.Lock.step`: who has the lock;
* `State.Held.step`: what the detailer has is not freed;
* `State.Awake.step`: it does not wait for nothing.
-/

namespace Csup.Detailer

variable {C N : Type*} {conf : Config C N} {s s' : State C N}

/-! ## Between the steps -/

/-- The call the updater is in, up to where it is done under the lock. -/
def UpdaterPc.op : UpdaterPc C N → List (Op C N)
  | locked op => [op]
  | _ => []

def State.pending (s : State C N) : List (Op C N) := s.updater.op ++ s.todo

def UpdaterPc.Locked : UpdaterPc C N → Prop
  | locked _ | unlock _ => True
  | _ => False

def DetailerPc.Locked : DetailerPc C N → Prop
  | locked | unlock _ => True
  | _ => False

/-- It is in `fixups_get`, or about to call it. -/
def DetailerPc.Getting : DetailerPc C N → Prop
  | loop | block | finished => False
  | _ => True

/-- The updater is about to signal. -/
def UpdaterPc.Signals : UpdaterPc C N → Prop
  | unlock dosignal => dosignal = true
  | signal => True
  | _ => False

/-- The queue, and what the updater has still to do with it. -/
structure State.Queue (s : State C N) : Prop where
  size : s.fixups.size = s.fixups.fixupq.length
  closed : s.fixups.closed = true → s.pending = []
  opened : s.fixups.closed = false → ∃ fs : List (Fixup C N), s.pending = fs.map .put ++ [.close]

/-- Who has the lock. -/
structure State.Lock (s : State C N) : Prop where
  updater : s.fixups.lock = some .updater ↔ s.updater.Locked
  detailer : s.fixups.lock = some .detailer ↔ s.detailer.Locked

/-- The detailer gets a fixup when it has none and there may be one. -/
structure State.Asks (s : State C N) : Prop where
  colls : s.detailer = .block ∨ s.detailer.Getting → s.colls ≠ []
  fixup : s.detailer.Getting → s.fixup = none ∧ s.fixupseof = false

/-- The fixup it has is not freed. -/
def State.Held (s : State C N) : Prop :=
  ∀ f, s.fixup = some f ∨ s.detailer = .unlock (some f) → s.fixups.cur = some f

/-- It does not wait, or has reason to, or will be woken up. -/
def State.Awake (s : State C N) : Prop :=
  s.detailer = .wait → s.fixups.size = 0 ∧ s.fixups.closed = false ∨ s.updater.Signals

/-! ## The steps -/

theorem call_put {q q' : Fixups C N} {f : Fixup C N} {dosignal : Bool}
    (h : q.call (.put f) = some (q', dosignal)) :
    q.closed = false ∧ q' = { q with fixupq := q.fixupq ++ [f], size := q.size + 1 } ∧
      (dosignal = true ↔ q.size = 0) := by
  simp only [Fixups.call, Fixups.put] at h
  split at h
  · cases h
  · rename_i hc
    cases h
    exact ⟨by simpa using hc, rfl, by simp⟩

theorem call_close {q q' : Fixups C N} {dosignal : Bool}
    (h : q.call .close = some (q', dosignal)) :
    q' = { q with closed := true } ∧ (dosignal = true ↔ q.size = 0 ∧ q.closed = false) := by
  cases h
  exact ⟨rfl, by simp⟩

theorem get_wait {q : Fixups C N} (h : q.get = some .wait) : q.size = 0 ∧ q.closed = false := by
  unfold Fixups.get at h
  split at h
  · assumption
  · split at h
    · cases h
    · split at h <;> cases h

theorem get_ret {q q' : Fixups C N} {fixup : Option (Fixup C N)}
    (h : q.get = some (.ret fixup q')) :
    (fixup = none ∧ q' = q ∧ q.closed = true ∧ q.size = 0) ∨
      ∃ f fixupq, fixup = some f ∧ q.fixupq = f :: fixupq ∧ q.size ≠ 0 ∧
        q' = { q with fixupq, cur := some f, size := q.size - 1 } := by
  unfold Fixups.get at h
  split at h
  · cases h
  · split at h
    · rename_i hc
      cases h
      exact .inl ⟨rfl, rfl, hc⟩
    · split at h
      · cases h
      · rename_i hw hc f fixupq hq
        cases h
        refine .inr ⟨f, fixupq, rfl, hq, ?_, rfl⟩
        intro h0
        simp_all

/-- The assertion of `fixups_get` does not fail. -/
theorem get_ne_none {q : Fixups C N} (h : q.size = q.fixupq.length) : q.get ≠ none := by
  unfold Fixups.get
  cases hq : q.fixupq with
  | cons f fixupq => split <;> [simp; (split <;> simp)]
  | nil =>
    have h0 : q.size = 0 := by rw [h, hq]; rfl
    cases hc : q.closed <;> simp [h0]

theorem State.Queue.congr (h : s.Queue) (hq : s'.fixups.fixupq = s.fixups.fixupq)
    (hs : s'.fixups.size = s.fixups.size) (hc : s'.fixups.closed = s.fixups.closed)
    (hp : s'.pending = s.pending) : s'.Queue :=
  ⟨by rw [hs, hq, h.size], fun h' => hp ▸ h.closed (hc ▸ h'), fun h' => hp ▸ h.opened (hc ▸ h')⟩

theorem State.Queue.step (h : s.Queue) (hs : Step conf s s') : s'.Queue := by
  cases hs with
  | @lock op todo hu ht =>
    exact h.congr rfl rfl rfl (by rw [State.pending, State.pending, hu, ht]; rfl)
  | @op op q dosignal hu hc =>
    have hp : s.pending = op :: s.todo := by rw [State.pending, hu]; rfl
    cases op with
    | put f =>
      obtain ⟨ho, rfl, -⟩ := call_put hc
      refine ⟨by simp [h.size], fun hc => ?_, fun _ => ?_⟩
      · exact absurd (ho.symm.trans hc) (by decide)
      · obtain ⟨fs, hfs⟩ := h.opened ho
        cases fs with
        | nil => simp [hp] at hfs
        | cons g fs => exact ⟨fs, (List.cons.inj (hp.symm.trans hfs)).2⟩
    | close =>
      obtain ⟨rfl, -⟩ := call_close hc
      refine ⟨h.size, fun _ => ?_, fun hc => nomatch hc⟩
      cases ho : s.fixups.closed with
      | true => simp [h.closed ho] at hp
      | false =>
        obtain ⟨fs, hfs⟩ := h.opened ho
        cases fs with
        | nil => exact (List.cons.inj (hp.symm.trans hfs)).2
        | cons g fs => simp [hp] at hfs
  | @unlock dosignal hu =>
    refine h.congr rfl rfl rfl ?_
    rw [State.pending, State.pending, hu]
    cases dosignal <;> rfl
  | signal hu =>
    exact h.congr rfl rfl rfl (by rw [State.pending, State.pending, hu]; rfl)
  | write _ hw => cases hw <;> exact ⟨h.size, h.closed, h.opened⟩
  | ret _ hg =>
    rcases get_ret hg with ⟨rfl, rfl, -⟩ | ⟨f, fixupq, rfl, hq, -, rfl⟩
    · exact ⟨h.size, h.closed, h.opened⟩
    · exact ⟨by simp [h.size, hq], h.closed, h.opened⟩
  | _ => exact ⟨h.size, h.closed, h.opened⟩

theorem State.Lock.step (h : s.Lock) (hs : Step conf s s') : s'.Lock := by
  have hu := h.updater
  have hd := h.detailer
  cases hs with
  | @op op q _ hp hc =>
    have hl : q.lock = s.fixups.lock := by
      cases op with
      | put f => rw [(call_put hc).2.1]
      | close => rw [(call_close hc).1]
    constructor <;> simp_all [UpdaterPc.Locked]
  | @unlock dosignal hp =>
    constructor <;> cases dosignal <;> simp_all [UpdaterPc.Locked]
  | signal hp =>
    cases hw : s.detailer <;> constructor <;> simp_all [UpdaterPc.Locked, DetailerPc.wake, DetailerPc.Locked]
  | write _ hw => cases hw <;> constructor <;> simp_all [DetailerPc.Locked]
  | get hp =>
    rcases hp with hp | hp <;> constructor <;> simp_all [DetailerPc.Locked]
  | @ret _ q hp hg =>
    have hl : q.lock = s.fixups.lock := by
      rcases get_ret hg with ⟨-, rfl, -⟩ | ⟨_, _, -, -, -, rfl⟩ <;> rfl
    constructor <;> simp_all [DetailerPc.Locked]
  | _ => constructor <;> simp_all [DetailerPc.Locked, UpdaterPc.Locked]

theorem getting_wake (pc : DetailerPc C N) :
    (pc.wake.Getting ↔ pc.Getting) ∧ (pc.wake = .block ↔ pc = .block) := by
  cases pc <;> simp [DetailerPc.wake, DetailerPc.Getting]

theorem State.Asks.step (h : s.Asks) (hs : Step conf s s') : s'.Asks := by
  obtain ⟨hc, hf⟩ := h
  cases hs with
  | signal hp =>
    obtain ⟨hg, hb⟩ := getting_wake s.detailer
    exact ⟨fun h => hc (by simpa [hg, hb] using h), fun h => hf (hg.mp h)⟩
  | write _ hw => cases hw <;> constructor <;> simp_all [DetailerPc.Getting]
  | get hp => rcases hp with hp | hp <;> constructor <;> simp_all [DetailerPc.Getting]
  | lock | op | unlock => exact ⟨hc, hf⟩
  | _ => constructor <;> simp_all [DetailerPc.Getting]

theorem call_cur {q q' : Fixups C N} {op : Op C N} {dosignal : Bool}
    (h : q.call op = some (q', dosignal)) : q'.cur = q.cur := by
  cases op with
  | put f => rw [(call_put h).2.1]
  | close => rw [(call_close h).1]

theorem State.Held.step (h : s.Held) (ha : s.Asks) (hs : Step conf s s') : s'.Held := by
  intro f hf
  cases hs with
  | op _ hc => exact (call_cur hc).trans (h f hf)
  | signal =>
    apply h f
    cases hd : s.detailer <;> simp_all [DetailerPc.wake]
  | write _ hw => cases hw <;> exact h f (by simp_all)
  | get hp => rcases hp with hp | hp <;> exact h f (by simp_all)
  | ret hp hg =>
    have hn : s.fixup = none := (ha.fixup (by rw [hp]; trivial)).1
    rcases get_ret hg with ⟨rfl, -⟩ | ⟨g, fixupq, rfl, -, -, rfl⟩
    · simp [hn] at hf
    · simpa [hn] using hf
  | got hp => exact h f (.inr (by simpa [hp] using hf))
  | _ => exact h f (by simp_all)

/-- What a call leaves is a queue with something to do, and it signals if there was none. -/
theorem call_signals {q q' : Fixups C N} {op : Op C N} {dosignal : Bool}
    (h : q.call op = some (q', dosignal)) (h0 : q.size = 0) (hc : q.closed = false) :
    dosignal = true := by
  cases op with
  | put f => exact (call_put h).2.2.mpr h0
  | close => exact (call_close h).2.mpr ⟨h0, hc⟩

theorem State.Awake.step (h : s.Awake) (hs : Step conf s s') : s'.Awake := by
  intro hw
  cases hs with
  | lock hu =>
    refine (h hw).imp id fun hsig => ?_
    simp [hu, UpdaterPc.Signals] at hsig
  | op hu hc =>
    rcases h hw with ⟨h0, ho⟩ | hsig
    · exact .inr (call_signals hc h0 ho)
    · simp [hu, UpdaterPc.Signals] at hsig
  | @unlock dosignal hu =>
    refine (h hw).imp id fun hsig => ?_
    rw [hu] at hsig
    rw [show dosignal = true from hsig]
    trivial
  | signal => cases hd : s.detailer <;> simp [hd, DetailerPc.wake] at hw
  | write _ hl => cases hl <;> simp_all
  | wait _ hg =>
    have h0 := get_wait hg
    exact .inl h0
  | skip _ hd => exact absurd (hd.symm.trans hw) (by simp)
  | _ => cases hw

end Csup.Detailer
