import Mathlib.Logic.Function.Basic

/-!
# The end of the multiplexer: `mux_shutdown` and `mux_close`

The threads of a session from where the workers run: the main thread (the end of `proto_run`),
the killer, the workers, and the sender and the receiver. The first call of `mux_shutdown`
closes the channels, wakes those who wait for them, and then cancels and joins the sender and
the receiver, but for the one that it is; another call returns at once. A thread is cancelled
where it blocks. The assertions about how a thread ended are left out.

Main theorem: `teardown`. When the first call is the sender's or the receiver's and the main
thread calls only after it came back, neither of them uses the multiplexer once it is freed.
-/

namespace Csup.Mux.Teardown

inductive ExitStatus
  | success | failure | transientFailure | interrupted
  deriving DecidableEq

/-- The threads of the multiplexer. -/
inductive Service
  | sender | receiver
  deriving DecidableEq

def Service.other : Service → Service
  | sender => receiver
  | receiver => sender

inductive Who
  | main
  | killer
  | service (x : Service)
  | worker (i : Fin 3)
  deriving DecidableEq

/-- Where a thread that is neither the sender nor the receiver is in `mux_shutdown`, once the
channels are closed. -/
inductive Stage
  | cancelReceiver | joinReceiver | cancelSender | joinSender
  deriving DecidableEq

inductive ServicePc
  | run
  /-- about to call `mux_shutdown` -/
  | calls (st : ExitStatus)
  /-- in it, about to cancel the other -/
  | cancel
  | join
  | ended
  deriving DecidableEq

inductive WorkerPc
  | run
  /-- waits for a channel -/
  | wait
  | ended (st : ExitStatus)
  /-- `threads_wait` returned it -/
  | collected
  deriving DecidableEq

inductive KillerPc
  | wait
  | shut (g : Stage)
  | ended
  deriving DecidableEq

inductive MainPc
  /-- `i` workers were waited for -/
  | collect (i : Nat) (st : ExitStatus)
  /-- about to call `mux_shutdown` -/
  | calls (i : Nat) (st : ExitStatus)
  | shut (g : Stage) (i : Nat) (st : ExitStatus)
  /-- in `chan_close` -/
  | closing
  /-- in `chan_wait` -/
  | waiting
  | killerStop
  /-- about to call `mux_close` -/
  | close
  | ended
  deriving DecidableEq

/-- Where the main thread is behind `mux_shutdown`. -/
def MainPc.after (i : Nat) (st : ExitStatus) : MainPc :=
  if st = .success then .killerStop else .collect i st

structure State where
  closed : Bool
  status : Option ExitStatus
  /-- the first call of `mux_shutdown` -/
  first : Option (Who × ExitStatus)
  freed : Bool
  /-- what `mux_close` returned -/
  result : Option ExitStatus
  /-- whether a signal was taken -/
  killed : Bool
  main : MainPc
  killer : KillerPc
  service : Service → ServicePc
  /-- whether it is to be cancelled -/
  cancelled : Service → Bool
  worker : Fin 3 → WorkerPc

def State.init : State where
  closed := false
  status := none
  first := none
  freed := false
  result := none
  killed := false
  main := .collect 0 .success
  killer := .wait
  service := fun _ => .run
  cancelled := fun _ => false
  worker := fun _ => .run

def State.setService (s : State) (x : Service) (pc : ServicePc) : State :=
  { s with service := Function.update s.service x pc }

def State.setWorker (s : State) (i : Fin 3) (pc : WorkerPc) : State :=
  { s with worker := Function.update s.worker i pc }

def State.cancel (s : State) (x : Service) : State :=
  { s with cancelled := Function.update s.cancelled x true }

/-- The first call of `mux_shutdown`, by `t`, up to where it releases the lock. -/
def State.shut (s : State) (t : Who) (st : ExitStatus) : State :=
  { s with
    closed := true
    status := some st
    first := some (t, st)
    worker := fun i => if s.worker i = .wait then .run else s.worker i }

/-- The rest of `mux_shutdown`. -/
inductive Stage.Step (s : State) : Stage → State → Option Stage → Prop
  | cancelReceiver : Step s .cancelReceiver (s.cancel .receiver) (some .joinReceiver)
  | joinReceiver : s.service .receiver = .ended → Step s .joinReceiver s (some .cancelSender)
  | cancelSender : Step s .cancelSender (s.cancel .sender) (some .joinSender)
  | joinSender : s.service .sender = .ended → Step s .joinSender s none

/-- A step of a thread, and whether it uses the multiplexer or a channel. -/
inductive Step (s : State) : Who → Bool → State → Prop
  | work (i : Fin 3) : s.worker i = .run → Step s (.worker i) true s
  | block (i : Fin 3) : s.worker i = .run → s.closed = false →
    Step s (.worker i) true (s.setWorker i .wait)
  | wake (i : Fin 3) : s.worker i = .wait → Step s (.worker i) true (s.setWorker i .run)
  | exit (i : Fin 3) (st : ExitStatus) : s.worker i = .run →
    Step s (.worker i) false (s.setWorker i (.ended st))
  | serve (x : Service) : s.service x = .run → Step s (.service x) true s
  | fail (x : Service) (st : ExitStatus) : s.service x = .run →
    st = .failure ∨ st = .transientFailure → Step s (.service x) true (s.setService x (.calls st))
  | die (x : Service) : s.service x = .run → s.cancelled x = true →
    Step s (.service x) true (s.setService x .ended)
  | callAgain (x : Service) (st : ExitStatus) : s.service x = .calls st → s.closed = true →
    Step s (.service x) true (s.setService x .ended)
  | callFirst (x : Service) (st : ExitStatus) : s.service x = .calls st → s.closed = false →
    Step s (.service x) true ((s.shut (.service x) st).setService x .cancel)
  | cancelOther (x : Service) : s.service x = .cancel →
    Step s (.service x) false ((s.cancel x.other).setService x .join)
  | joinOther (x : Service) : s.service x = .join → s.service x.other = .ended →
    Step s (.service x) false (s.setService x .ended)
  | signalAgain : s.killer = .wait → s.killed = false → s.closed = true →
    Step s .killer true { s with killed := true }
  | signalFirst : s.killer = .wait → s.killed = false → s.closed = false →
    Step s .killer true
      { s.shut .killer .interrupted with killed := true, killer := .shut .cancelReceiver }
  | killerStage {g g' : Stage} {s' : State} : s.killer = .shut g → g.Step s s' (some g') →
    Step s .killer false { s' with killer := .shut g' }
  | killerBack {g : Stage} {s' : State} : s.killer = .shut g → g.Step s s' none →
    Step s .killer false { s' with killer := .wait }
  | collect (w : Fin 3) {st' : ExitStatus} {i : Nat} {st : ExitStatus} : s.main = .collect i st →
    i < 3 → s.worker w = .ended st' →
    Step s .main false { s.setWorker w .collected with
      main := if st' ≠ .success ∧ st = .success then .calls (i + 1) st' else .collect (i + 1) st }
  | collected {st : ExitStatus} : s.main = .collect 3 st →
    Step s .main false { s with main := if st = .success then .closing else .killerStop }
  | mainAgain {i : Nat} {st : ExitStatus} : s.main = .calls i st → s.closed = true →
    Step s .main true { s with main := .after i st }
  | mainFirst {i : Nat} {st : ExitStatus} : s.main = .calls i st → s.closed = false →
    Step s .main true { s.shut .main st with main := .shut .cancelReceiver i st }
  | mainStage {g g' : Stage} {s' : State} {i : Nat} {st : ExitStatus} : s.main = .shut g i st →
    g.Step s s' (some g') → Step s .main false { s' with main := .shut g' i st }
  | mainBack {g : Stage} {s' : State} {i : Nat} {st : ExitStatus} : s.main = .shut g i st →
    g.Step s s' none → Step s .main false { s' with main := .after i st }
  | chanClose : s.main = .closing → Step s .main true { s with main := .waiting }
  | chanWait : s.main = .waiting → Step s .main true { s with main := .calls 3 .success }
  /-- The killer is not cancelled while it is in `mux_shutdown`. -/
  | killerStop : s.main = .killerStop → s.killer = .wait →
    Step s .main false { s with killer := .ended, main := .close }
  | muxClose : s.main = .close → s.closed = true →
    Step s .main true { s with freed := true, result := s.status, main := .ended }

/-- A run whose steps are all `ok`. -/
inductive Run (ok : State → Who → Prop) : State → Prop
  | init : Run ok State.init
  | step {s s' : State} {t : Who} {uses : Bool} : Run ok s → Step s t uses s' → ok s t → Run ok s'

/-- The main thread does not call `mux_shutdown` while the first call, of the sender or of the
receiver, has yet to come back. -/
def CameBack (s : State) (t : Who) : Prop :=
  ∀ i st x st', t = .main → s.main = .calls i st → s.first = some (.service x, st') →
    s.service x = .ended

/-- When the multiplexer is freed no step of the sender or the receiver uses it, and no thread waits
for a channel; and `mux_close` returns the status of the first call. -/
structure Torn (s : State) : Prop where
  unused : s.freed = true → ∀ x s', ¬Step s (.service x) true s'
  released : s.freed = true → s.main ≠ .waiting ∧ ∀ i, s.worker i ≠ .wait
  status : ∀ st, s.result = some st → ∃ t, s.first = some (t, st)

/-- In `mux_shutdown`, past the part under the lock. -/
def Working (s : State) : Who → Prop
  | .main => ∃ g i st, s.main = .shut g i st
  | .killer => ∃ g, s.killer = .shut g
  | .service x => s.service x = .cancel ∨ s.service x = .join
  | .worker _ => False

/-- The receiver was joined before the sender is cancelled. -/
def Stage.Past (s : State) (g : Stage) : Prop :=
  g = .cancelSender ∨ g = .joinSender → s.service .receiver = .ended

theorem Stage.Step.eq {s s' : State} {g : Stage} {o : Option Stage} (h : g.Step s s' o) :
    ∃ c, s' = { s with cancelled := c } := by
  cases h with
  | cancelReceiver => exact ⟨_, rfl⟩
  | joinReceiver => exact ⟨s.cancelled, rfl⟩
  | cancelSender => exact ⟨_, rfl⟩
  | joinSender => exact ⟨s.cancelled, rfl⟩

theorem Stage.Step.past {s s' : State} {g g' : Stage} (h : g.Step s s' (some g'))
    (hg : g.Past s) : g'.Past s := by
  cases h with
  | cancelReceiver => exact fun h => by simp at h
  | joinReceiver hr => exact fun _ => hr
  | cancelSender => exact fun _ => hg (.inl rfl)

theorem Stage.Step.both {s s' : State} {g : Stage} (h : g.Step s s' none) (hg : g.Past s)
    (x : Service) : s.service x = .ended := by
  cases h with
  | joinSender hs =>
    cases x with
    | sender => exact hs
    | receiver => exact hg (.inr rfl)

theorem service_of_ended {s s' : State} {t : Who} {u : Bool} {x : Service}
    (h : Step s t u s') (hx : s.service x = .ended) : s'.service x = .ended := by
  have hset : ∀ (y : Service) (pc : ServicePc) (r : State), s.service y ≠ .ended →
      r.service = s.service → (r.setService y pc).service x = .ended := by
    intro y pc r hy hr
    have hne : x ≠ y := fun e => hy (e ▸ hx)
    show Function.update r.service y pc x = _
    rw [Function.update_of_ne hne, hr, hx]
  cases h with
  | fail y st hy _ => exact hset y _ _ (by simp [hy]) rfl
  | die y hy _ => exact hset y _ _ (by simp [hy]) rfl
  | callAgain y st hy _ => exact hset y _ _ (by simp [hy]) rfl
  | callFirst y st hy _ => exact hset y _ _ (by simp [hy]) rfl
  | cancelOther y hy => exact hset y _ _ (by simp [hy]) rfl
  | joinOther y hy _ => exact hset y _ _ (by simp [hy]) rfl
  | killerStage _ hg => obtain ⟨c, rfl⟩ := hg.eq; exact hx
  | killerBack _ hg => obtain ⟨c, rfl⟩ := hg.eq; exact hx
  | mainStage _ hg => obtain ⟨c, rfl⟩ := hg.eq; exact hx
  | mainBack _ hg => obtain ⟨c, rfl⟩ := hg.eq; exact hx
  | _ => exact hx

/-- Of what `mux_shutdown` reads and sets, and who is in it, a step that is not the first call only
lets threads come back. -/
def Later (s s' : State) : Prop :=
  s'.closed = s.closed ∧ s'.status = s.status ∧ s'.first = s.first ∧
    ∀ t, Working s' t → Working s t

def First (s : State) (t : Who) (s' : State) : Prop :=
  s.closed = false ∧ s'.closed = true ∧ (∃ st, s'.first = some (t, st) ∧ s'.status = some st) ∧
    Working s' t ∧ ∀ t', Working s' t' → t' = t ∨ Working s t'

theorem later_setService {s : State} {x : Service} {pc : ServicePc}
    (hpc : pc = .cancel ∨ pc = .join → s.service x = .cancel ∨ s.service x = .join) :
    Later s (s.setService x pc) := by
  refine ⟨rfl, rfl, rfl, fun t ht => ?_⟩
  cases t with
  | main => exact ht
  | killer => exact ht
  | worker i => exact ht
  | service y =>
    by_cases hy : y = x
    · subst hy
      have ht' : pc = .cancel ∨ pc = .join := by simpa [Working, State.setService] using ht
      exact hpc ht'
    · simpa [Working, State.setService, Function.update_of_ne hy] using ht

theorem later_main {s s' : State} (h : s'.closed = s.closed ∧ s'.status = s.status ∧
      s'.first = s.first ∧ s'.killer = s.killer ∧ s'.service = s.service)
    (hm : ∀ g i st, s'.main = .shut g i st → ∃ g' i' st', s.main = .shut g' i' st') :
    Later s s' := by
  obtain ⟨hc, hst, hf, hk, hv⟩ := h
  refine ⟨hc, hst, hf, fun t ht => ?_⟩
  cases t with
  | main => obtain ⟨g, i, st, hg⟩ := ht; exact hm g i st hg
  | killer => simpa only [Working, hk] using ht
  | worker i => exact ht
  | service y => simpa only [Working, hv] using ht

theorem later_killer {s s' : State} (h : s'.closed = s.closed ∧ s'.status = s.status ∧
      s'.first = s.first ∧ s'.main = s.main ∧ s'.service = s.service)
    (hk : ∀ g, s'.killer = .shut g → ∃ g', s.killer = .shut g') : Later s s' := by
  obtain ⟨hc, hst, hf, hm, hv⟩ := h
  refine ⟨hc, hst, hf, fun t ht => ?_⟩
  cases t with
  | main => simpa only [Working, hm] using ht
  | killer => obtain ⟨g, hg⟩ := ht; exact hk g hg
  | worker i => exact ht
  | service y => simpa only [Working, hv] using ht

theorem MainPc.after_ne {i : Nat} {st : ExitStatus} (g : Stage) (j : Nat) (st' : ExitStatus) :
    MainPc.after i st ≠ .shut g j st' := by
  unfold MainPc.after
  split <;> simp

theorem first_or_later {s s' : State} {t : Who} {u : Bool} (h : Step s t u s') :
    First s t s' ∨ Later s s' := by
  have hid : ∀ t', Working s t' → Working s t' := fun _ => id
  cases h with
  | work | serve => exact .inr ⟨rfl, rfl, rfl, hid⟩
  | block | wake | exit =>
    exact .inr (later_main ⟨rfl, rfl, rfl, rfl, rfl⟩ fun g i st h => ⟨g, i, st, h⟩)
  | fail x st | die x | callAgain x st | joinOther x =>
    exact .inr (later_setService fun h => by simp at h)
  | callFirst x st hx hc =>
    refine .inl ⟨hc, rfl, ⟨st, rfl, rfl⟩, ?_, fun t ht => ?_⟩
    · exact .inl (by simp [State.setService])
    · cases t with
      | main => exact .inr ht
      | killer => exact .inr ht
      | worker i => exact ht.elim
      | service y =>
        by_cases hy : y = x
        · exact .inl (congrArg _ hy)
        · right
          simpa [Working, State.setService, State.shut, Function.update_of_ne hy] using ht
  | cancelOther x hx =>
    exact .inr (later_setService (s := s.cancel x.other) fun _ => .inl hx)
  | signalAgain => exact .inr (later_killer ⟨rfl, rfl, rfl, rfl, rfl⟩ fun g h => ⟨g, h⟩)
  | signalFirst _ _ hc =>
    refine .inl ⟨hc, rfl, ⟨_, rfl, rfl⟩, ⟨_, rfl⟩, fun t ht => ?_⟩
    cases t with
    | killer => exact .inl rfl
    | _ => exact .inr ht
  | killerStage hk hg =>
    obtain ⟨c, rfl⟩ := hg.eq
    exact .inr (later_killer ⟨rfl, rfl, rfl, rfl, rfl⟩ fun _ _ => ⟨_, hk⟩)
  | killerBack _ hg =>
    obtain ⟨c, rfl⟩ := hg.eq
    exact .inr (later_killer ⟨rfl, rfl, rfl, rfl, rfl⟩ fun _ h => by cases h)
  | collect =>
    refine .inr (later_main ⟨rfl, rfl, rfl, rfl, rfl⟩ fun g i st h => ?_)
    dsimp only at h
    split at h <;> cases h
  | collected =>
    refine .inr (later_main ⟨rfl, rfl, rfl, rfl, rfl⟩ fun g i st h => ?_)
    dsimp only at h
    split at h <;> cases h
  | mainAgain =>
    exact .inr (later_main ⟨rfl, rfl, rfl, rfl, rfl⟩ fun g i st h =>
      absurd h (MainPc.after_ne g i st))
  | mainFirst _ hc =>
    refine .inl ⟨hc, rfl, ⟨_, rfl, rfl⟩, ⟨_, _, _, rfl⟩, fun t ht => ?_⟩
    cases t with
    | main => exact .inl rfl
    | _ => exact .inr ht
  | mainStage hm hg =>
    obtain ⟨c, rfl⟩ := hg.eq
    exact .inr (later_main ⟨rfl, rfl, rfl, rfl, rfl⟩ fun _ _ _ _ => ⟨_, _, _, hm⟩)
  | mainBack _ hg =>
    obtain ⟨c, rfl⟩ := hg.eq
    exact .inr (later_main ⟨rfl, rfl, rfl, rfl, rfl⟩ fun g i st h =>
      absurd h (MainPc.after_ne g i st))
  | chanClose | chanWait | muxClose =>
    exact .inr (later_main ⟨rfl, rfl, rfl, rfl, rfl⟩ fun g i st h => by cases h)
  | killerStop =>
    refine .inr ⟨rfl, rfl, rfl, fun t ht => ?_⟩
    cases t with
    | main => obtain ⟨g, i, st, h⟩ := ht; cases h
    | killer => obtain ⟨g, h⟩ := ht; cases h
    | worker i => exact ht
    | service y => exact ht

/-! ### In every run -/

structure Sane (s : State) : Prop where
  first : s.closed = s.first.isSome
  status : s.status = s.first.map Prod.snd
  woken : s.closed = true → ∀ i, s.worker i ≠ .wait
  freed : s.freed = true → s.main = .ended
  result : ∀ st, s.result = some st → s.status = some st
  working : ∀ t, Working s t → ∃ st, s.first = some (t, st)
  /-- When the first call came back, the sender and the receiver are at their end. -/
  back : ∀ t st, s.first = some (t, st) → ¬Working s t → ∀ x, s.service x = .ended
  mainPast : ∀ g i st, s.main = .shut g i st → g.Past s
  killerPast : ∀ g, s.killer = .shut g → g.Past s
  stopped : s.main = .close ∨ s.main = .ended → s.killer = .ended

theorem sane_init : Sane State.init where
  first := rfl
  status := rfl
  woken h := by cases h
  freed h := by cases h
  result _ h := by cases h
  working t h := by
    cases t with
    | main => obtain ⟨_, _, _, h⟩ := h; cases h
    | killer => obtain ⟨_, h⟩ := h; cases h
    | service x => rcases h with h | h <;> cases h
    | worker i => exact h.elim
  back _ _ h := by cases h
  mainPast _ _ _ h := by cases h
  killerPast _ h := by cases h
  stopped h := by rcases h with h | h <;> cases h

section Keep

variable {s s' : State} {t : Who} {u : Bool}

theorem Sane.closed_of_first (hs : Sane s) {p : Who × ExitStatus} (h : s.first = some p) :
    s.closed = true := by
  rw [hs.first, h]
  rfl

theorem Sane.first_of_closed (hs : Sane s) (h : s.closed = true) :
    ∃ t st, s.first = some (t, st) := by
  rw [hs.first] at h
  obtain ⟨⟨t, st⟩, hp⟩ := Option.isSome_iff_exists.mp h
  exact ⟨t, st, hp⟩

theorem Sane.not_working (hs : Sane s) (hc : s.closed = false) (t : Who) : ¬Working s t := by
  intro ht
  obtain ⟨st, hf⟩ := hs.working t ht
  simp [hs.closed_of_first hf] at hc

theorem Sane.keep_first (hs : Sane s) (h : First s t s' ∨ Later s s') :
    s'.closed = s'.first.isSome := by
  rcases h with ⟨_, hc, ⟨st, hf, _⟩, _⟩ | ⟨hc, _, hf, _⟩
  · rw [hc, hf]
    rfl
  · rw [hc, hf, hs.first]

theorem Sane.keep_status (hs : Sane s) (h : First s t s' ∨ Later s s') :
    s'.status = s'.first.map Prod.snd := by
  rcases h with ⟨_, _, ⟨st, hf, hst⟩, _⟩ | ⟨_, hst, hf, _⟩
  · rw [hst, hf]
    rfl
  · rw [hst, hf, hs.status]

theorem Sane.keep_working (hs : Sane s) (h : First s t s' ∨ Later s s') (t' : Who)
    (ht' : Working s' t') : ∃ st, s'.first = some (t', st) := by
  rcases h with ⟨hc, _, ⟨st, hf, _⟩, _, hw⟩ | ⟨_, _, hf, hw⟩
  · rcases hw t' ht' with rfl | hw
    · exact ⟨st, hf⟩
    · exact absurd hw (hs.not_working hc t')
  · rw [hf]
    exact hs.working t' (hw t' ht')

theorem Sane.main_back (hs : Sane s) (h : Step s t u s') (hw : Working s .main)
    (hw' : ¬Working s' .main) (x : Service) : s'.service x = .ended := by
  obtain ⟨g, i, st, hm⟩ := hw
  have hne : ∀ {pc}, s.main = pc → (∀ g i st, pc ≠ .shut g i st) → False :=
    fun h h' => h' g i st (h.symm.trans hm)
  cases h with
  | mainStage => exact absurd ⟨_, _, _, rfl⟩ hw'
  | mainBack hm' hg =>
    have hx := hg.both (hs.mainPast _ _ _ hm') x
    obtain ⟨c, rfl⟩ := hg.eq
    exact hx
  | collect _ h | collected h | mainAgain h | mainFirst h | chanClose h | chanWait h | killerStop h
  | muxClose h => exact (hne h (by simp)).elim
  | killerStage _ hg | killerBack _ hg =>
    obtain ⟨c, rfl⟩ := hg.eq
    exact absurd ⟨g, i, st, hm⟩ hw'
  | _ => exact absurd ⟨g, i, st, hm⟩ hw'

theorem Sane.killer_back (hs : Sane s) (h : Step s t u s') (hw : Working s .killer)
    (hw' : ¬Working s' .killer) (x : Service) : s'.service x = .ended := by
  obtain ⟨g, hk⟩ := hw
  have hne : ∀ {pc}, s.killer = pc → (∀ g, pc ≠ .shut g) → False :=
    fun h h' => h' g (h.symm.trans hk)
  cases h with
  | killerStage => exact absurd ⟨_, rfl⟩ hw'
  | killerBack hk' hg =>
    have hx := hg.both (hs.killerPast _ hk') x
    obtain ⟨c, rfl⟩ := hg.eq
    exact hx
  | signalAgain h | signalFirst h | killerStop _ h => exact (hne h (by simp)).elim
  | mainStage _ hg | mainBack _ hg =>
    obtain ⟨c, rfl⟩ := hg.eq
    exact absurd ⟨g, hk⟩ hw'
  | _ => exact absurd ⟨g, hk⟩ hw'

theorem service_back (h : Step s t u s') {y : Service} (hw : Working s (.service y))
    (hw' : ¬Working s' (.service y)) (x : Service) : s'.service x = .ended := by
  have hset : ∀ {z pc} {r : State}, r.service = s.service → s.service z ≠ .cancel ∧
      s.service z ≠ .join → ¬Working (r.setService z pc) (.service y) → False := by
    intro z pc r hr hz h'
    have hne : y ≠ z := by
      rintro rfl
      exact hw.elim hz.1 hz.2
    apply h'
    simpa [Working, State.setService, Function.update_of_ne hne, hr] using hw
  cases h with
  | fail z st hz | die z hz | callAgain z st hz | callFirst z st hz =>
    exact (hset rfl (by simp [hz]) hw').elim
  | cancelOther z hz =>
    by_cases hy : y = z
    · subst hy
      exact absurd (.inr (by simp [State.setService])) hw'
    · apply absurd _ hw'
      simpa [Working, State.setService, Function.update_of_ne hy, State.cancel] using hw
  | joinOther z hz ho =>
    by_cases hy : y = z
    · subst hy
      by_cases hx : x = y
      · simp [State.setService, hx]
      · have hx' : x = y.other := by cases x <;> cases y <;> simp_all [Service.other]
        show Function.update s.service y .ended x = .ended
        rw [Function.update_of_ne hx, hx', ho]
    · apply absurd _ hw'
      simpa [Working, State.setService, Function.update_of_ne hy] using hw
  | killerStage _ hg | killerBack _ hg | mainStage _ hg | mainBack _ hg =>
    obtain ⟨c, rfl⟩ := hg.eq
    exact absurd hw hw'
  | _ => exact absurd hw hw'

/-- Who comes back from the first call leaves the sender and the receiver at their end. -/
theorem Sane.comes_back (hs : Sane s) (h : Step s t u s') {t' : Who} (hw : Working s t')
    (hw' : ¬Working s' t') (x : Service) : s'.service x = .ended := by
  cases t' with
  | main => exact hs.main_back h hw hw' x
  | killer => exact hs.killer_back h hw hw' x
  | service y => exact service_back h hw hw' x
  | worker i => exact hw.elim

theorem Sane.keep_back (hs : Sane s) (h : Step s t u s') (t' : Who) (st : ExitStatus)
    (hf : s'.first = some (t', st)) (hw' : ¬Working s' t') (x : Service) :
    s'.service x = .ended := by
  rcases first_or_later h with ⟨_, _, ⟨st', hf', _⟩, hw, _⟩ | ⟨_, _, hf', _⟩
  · rw [hf'] at hf
    obtain ⟨rfl, -⟩ := Prod.mk.inj (Option.some.inj hf)
    exact absurd hw hw'
  · rw [hf'] at hf
    by_cases hw : Working s t'
    · exact hs.comes_back h hw hw' x
    · exact service_of_ended h (hs.back t' st hf hw x)

theorem setWorker_ne {w : Fin 3} {pc : WorkerPc} (hpc : pc ≠ .wait)
    (hw : ∀ i, s.worker i ≠ .wait) (i : Fin 3) : (s.setWorker w pc).worker i ≠ .wait := by
  by_cases hi : i = w
  · simpa [State.setWorker, hi] using hpc
  · simpa [State.setWorker, Function.update_of_ne hi] using hw i

theorem shut_ne (t : Who) (st : ExitStatus) (i : Fin 3) : (s.shut t st).worker i ≠ .wait := by
  show (if s.worker i = .wait then .run else s.worker i) ≠ .wait
  split
  · simp
  · assumption

theorem Sane.keep_woken (hs : Sane s) (h : Step s t u s') (hc : s'.closed = true)
    (i : Fin 3) : s'.worker i ≠ .wait := by
  cases h with
  | block w _ ho =>
    have hc' : s.closed = true := hc
    simp [ho] at hc'
  | wake | exit | collect => exact setWorker_ne (by simp) (hs.woken hc) i
  | callFirst x st => exact shut_ne (.service x) st i
  | signalFirst => exact shut_ne .killer .interrupted i
  | @mainFirst _ st => exact shut_ne .main st i
  | killerStage _ hg | killerBack _ hg | mainStage _ hg | mainBack _ hg =>
    obtain ⟨c, rfl⟩ := hg.eq
    exact hs.woken hc i
  | _ => exact hs.woken hc i

theorem past_keep (h : Step s t u s') {g : Stage} (hg : g.Past s) : g.Past s' :=
  fun hr => service_of_ended h (hg hr)

theorem past_start : Stage.Past s .cancelReceiver :=
  fun h => by simp at h

theorem Sane.keep_mainPast (hs : Sane s) (h : Step s t u s') (g : Stage) (i : Nat)
    (st : ExitStatus) (hm : s'.main = .shut g i st) : g.Past s' := by
  have hkeep : s'.main = s.main → g.Past s' :=
    fun he => past_keep h (hs.mainPast g i st (he.symm.trans hm))
  cases h with
  | collect | collected =>
    dsimp only at hm
    split at hm <;> cases hm
  | mainAgain | mainBack => exact absurd hm (MainPc.after_ne g i st)
  | mainFirst =>
    cases hm
    exact past_start
  | mainStage hm' hg =>
    have hp := hg.past (hs.mainPast _ _ _ hm')
    obtain ⟨c, rfl⟩ := hg.eq
    cases hm
    exact hp
  | chanClose | chanWait | killerStop | muxClose => cases hm
  | killerStage _ hg | killerBack _ hg =>
    obtain ⟨c, rfl⟩ := hg.eq
    exact hkeep rfl
  | _ => exact hkeep rfl

theorem Sane.keep_killerPast (hs : Sane s) (h : Step s t u s') (g : Stage)
    (hk : s'.killer = .shut g) : g.Past s' := by
  have hkeep : s'.killer = s.killer → g.Past s' :=
    fun he => past_keep h (hs.killerPast g (he.symm.trans hk))
  cases h with
  | signalFirst =>
    cases hk
    exact past_start
  | killerStage hk' hg =>
    have hp := hg.past (hs.killerPast _ hk')
    obtain ⟨c, rfl⟩ := hg.eq
    cases hk
    exact hp
  | killerBack | killerStop => cases hk
  | mainStage _ hg | mainBack _ hg =>
    obtain ⟨c, rfl⟩ := hg.eq
    exact hkeep rfl
  | _ => exact hkeep rfl

theorem Sane.keep_freed (hs : Sane s) (h : Step s t u s') (hf : s'.freed = true) :
    s'.main = .ended := by
  have hne : ∀ {pc}, s.main = pc → pc ≠ .ended → s.freed = true → False :=
    fun h h' hf => h' (h.symm.trans (hs.freed hf))
  cases h with
  | muxClose => rfl
  | collect _ h | collected h | mainAgain h | mainFirst h | chanClose h | chanWait h
  | killerStop h => exact (hne h (by simp) hf).elim
  | mainStage h hg | mainBack h hg =>
    obtain ⟨c, rfl⟩ := hg.eq
    exact (hne h (by simp) hf).elim
  | killerStage _ hg | killerBack _ hg =>
    obtain ⟨c, rfl⟩ := hg.eq
    exact hs.freed hf
  | _ => exact hs.freed hf

theorem Sane.keep_result (hs : Sane s) (h : Step s t u s') (st : ExitStatus)
    (hr : s'.result = some st) : s'.status = some st := by
  have hkeep : s.result = some st → s'.status = some st := by
    intro hr
    have hst : s.status = some st := hs.result st hr
    rcases first_or_later h with ⟨hc, _⟩ | ⟨_, hst', _⟩
    · rw [hs.status] at hst
      obtain ⟨p, hp, _⟩ := Option.map_eq_some_iff.mp hst
      simp [hs.closed_of_first hp] at hc
    · rw [hst', hst]
  cases h with
  | muxClose => exact hr
  | killerStage _ hg | killerBack _ hg | mainStage _ hg | mainBack _ hg =>
    obtain ⟨c, rfl⟩ := hg.eq
    exact hkeep hr
  | _ => exact hkeep hr

theorem Sane.keep_stopped (hs : Sane s) (h : Step s t u s')
    (hm : s'.main = .close ∨ s'.main = .ended) : s'.killer = .ended := by
  have hne : ∀ {pc}, s.killer = pc → pc ≠ .ended → s.main = .close ∨ s.main = .ended → False :=
    fun h h' hm => h' (h.symm.trans (hs.stopped hm))
  cases h with
  | killerStop => rfl
  | muxClose h => exact hs.stopped (.inl h)
  | signalFirst h => exact (hne h (by simp) hm).elim
  | killerStage h hg | killerBack h hg =>
    obtain ⟨c, rfl⟩ := hg.eq
    exact (hne h (by simp) hm).elim
  | collect | collected =>
    dsimp only at hm
    split at hm <;> simp at hm
  | mainAgain | mainBack =>
    simp only [MainPc.after] at hm
    split at hm <;> simp at hm
  | mainFirst | mainStage | chanClose | chanWait => simp at hm
  | _ => exact hs.stopped hm

theorem Sane.keep (hs : Sane s) (h : Step s t u s') : Sane s' where
  first := hs.keep_first (first_or_later h)
  status := hs.keep_status (first_or_later h)
  woken := hs.keep_woken h
  freed := hs.keep_freed h
  result := hs.keep_result h
  working := hs.keep_working (first_or_later h)
  back := hs.keep_back h
  mainPast := hs.keep_mainPast h
  killerPast := hs.keep_killerPast h
  stopped := hs.keep_stopped h

end Keep

theorem sane_run {ok : State → Who → Prop} {s : State} (h : Run ok s) : Sane s := by
  induction h with
  | init => exact sane_init
  | step _ hst _ ih => exact ih.keep hst

/-! ### When the first call came back in time -/

/-- The main thread goes on to stop the killer and to free the multiplexer, and calls `mux_shutdown`
no more. -/
def MainPc.Leaves : MainPc → Prop
  | .collect _ st => st ≠ .success
  | .killerStop | .close | .ended => True
  | _ => False

/-- The first call came back, or it is the killer's, which the main thread waits for. -/
def Settled (s : State) : Prop :=
  ∃ t st, s.first = some (t, st) ∧ (t = .killer ∨ ¬Working s t)

theorem Settled.keep {s s' : State} {t : Who} {u : Bool} (hs : Sane s) (h : Step s t u s')
    (h' : Settled s) : Settled s' := by
  obtain ⟨t', st, hf, ht⟩ := h'
  rcases first_or_later h with ⟨hc, _⟩ | ⟨_, _, hf', hw⟩
  · simp [hs.closed_of_first hf] at hc
  · exact ⟨t', st, hf'.trans hf, ht.imp_right fun hn h => hn (hw _ h)⟩

theorem settled_mainAgain {s : State} {i : Nat} {st : ExitStatus} (hs : Sane s)
    (hm : s.main = .calls i st) (hc : s.closed = true) (hok : CameBack s .main) : Settled s := by
  obtain ⟨t, st', hf⟩ := hs.first_of_closed hc
  refine ⟨t, st', hf, ?_⟩
  cases t with
  | main => exact .inr fun ⟨_, _, _, h⟩ => by simp [hm] at h
  | killer => exact .inl rfl
  | worker i => exact .inr id
  | service x =>
    have hx := hok i st x st' rfl hm hf
    exact .inr fun h => by simp [Working, hx] at h

theorem settled_step {s s' : State} {t : Who} {u : Bool} (hs : Sane s) (h : Step s t u s')
    (hok : CameBack s t) (ih : s.main.Leaves → Settled s) (hm : s'.main.Leaves) : Settled s' := by
  have hkeep : s.main.Leaves → Settled s' := fun hm => (ih hm).keep hs h
  cases h with
  | collect w hc =>
    dsimp only at hm
    split at hm
    · exact hm.elim
    · exact hkeep (by rw [hc]; exact hm)
  | @collected st hc =>
    dsimp only at hm
    split at hm
    · exact hm.elim
    · exact hkeep (by rw [hc]; assumption)
  | mainAgain hc hcl => exact (settled_mainAgain hs hc hcl hok).keep hs (.mainAgain hc hcl)
  | mainFirst | mainStage | chanClose | chanWait => exact hm.elim
  | @mainBack g r i st hg hst =>
    obtain ⟨st', hf⟩ := hs.working .main ⟨_, _, _, hg⟩
    obtain ⟨c, rfl⟩ := hst.eq
    exact ⟨.main, st', hf, .inr fun ⟨_, _, _, h⟩ => MainPc.after_ne _ _ _ h⟩
  | killerStop hc | muxClose hc => exact hkeep (by rw [hc]; trivial)
  | killerStage _ hg | killerBack _ hg =>
    obtain ⟨c, rfl⟩ := hg.eq
    exact hkeep hm
  | _ => exact hkeep hm

theorem settled_run {s : State} (h : Run CameBack s) (hm : s.main.Leaves) : Settled s := by
  induction h with
  | init => exact absurd rfl hm
  | step hr hst hok ih => exact settled_step (sane_run hr) hst hok ih hm

theorem Sane.ended {s : State} (hs : Sane s) (hset : Settled s) (hm : s.main = .ended)
    (x : Service) : s.service x = .ended := by
  obtain ⟨t, st, hf, ht⟩ := hset
  refine hs.back t st hf ?_ x
  rcases ht with rfl | ht
  · rintro ⟨g, hg⟩
    simp [hs.stopped (.inr hm)] at hg
  · exact ht

theorem not_step_of_ended {s s' : State} {x : Service} {u : Bool} (hx : s.service x = .ended) :
    ¬Step s (.service x) u s' := by
  intro h
  cases h <;> simp_all

/-- In a run in which the first call comes back in time, the multiplexer is freed when its threads
have ended, and its status is that of the first call. -/
theorem teardown {s : State} (h : Run CameBack s) : Torn s where
  unused hf x s' := by
    have hs := sane_run h
    have hm : s.main = .ended := hs.freed hf
    have hset : Settled s := settled_run h (by rw [hm]; trivial)
    exact not_step_of_ended (hs.ended hset hm x)
  released hf := by
    have hs := sane_run h
    have hm : s.main = .ended := hs.freed hf
    obtain ⟨t, st, hfirst, _⟩ := settled_run h (by rw [hm]; trivial)
    exact ⟨by simp [hm], hs.woken (hs.closed_of_first hfirst)⟩
  status st hr := by
    have hs := sane_run h
    have hst : s.status = some st := hs.result st hr
    rw [hs.status] at hst
    obtain ⟨⟨t, st'⟩, hp, rfl⟩ := Option.map_eq_some_iff.mp hst
    exact ⟨t, hp⟩

section Path

variable {ok : State → Who → Prop}

/-- The worker `w` fails and is waited for. -/
theorem Run.gather {s : State} (h : Run ok s)
    (hok : ∀ r t, r.first = s.first → r.service = s.service → ok r t) {i : Nat} {st : ExitStatus}
    (hm : s.main = .collect i st) (hi : i < 3) (w : Fin 3) (hw : s.worker w = .run) :
    Run ok { s.setWorker w .collected with
      main := if st = .success then .calls (i + 1) .failure else .collect (i + 1) st } := by
  have h1 := h.step (.exit w .failure hw) (hok _ _ rfl rfl)
  have h2 := h1.step (.collect w hm hi (by simp only [State.setWorker, Function.update_self]; rfl))
    (hok _ _ rfl rfl)
  simpa [State.setWorker] using h2

/-- The workers fail, and the main thread, whose call of `mux_shutdown` is not the first, goes on to
free the multiplexer. -/
theorem Run.leave {s : State} (h : Run ok s)
    (hok : ∀ r t, r.first = s.first → r.service = s.service → ok r t) (hc : s.closed = true)
    (hm : s.main = .collect 0 .success) (hw : ∀ i, s.worker i = .run) (hk : s.killer = .wait) :
    ∃ s', Run ok s' ∧ s'.freed = true ∧ s'.service = s.service ∧ s'.first = s.first := by
  have h1 := h.gather hok hm (by decide) 0 (hw 0)
  have h2 := h1.step (.mainAgain rfl hc) (hok _ _ rfl rfl)
  have h3 := h2.gather hok rfl (by decide) 1 (by simp [State.setWorker, hw])
  have h4 := h3.gather hok rfl (by decide) 2 (by simp [State.setWorker, hw])
  have h5 := h4.step (.collected rfl) (hok _ _ rfl rfl)
  have h6 := h5.step (.killerStop rfl hk) (hok _ _ rfl rfl)
  exact ⟨_, h6.step (.muxClose rfl hc) (hok _ _ rfl rfl), rfl, rfl, rfl⟩

end Path

/-- The sender is the first to call, cancels and joins the receiver and ends; then a worker
fails. -/
theorem teardown_sender :
    ∃ s, s.first = some (.service .sender, .transientFailure) ∧ s.freed = true ∧ Torn s := by
  have hok : ∀ (r : State) x, CameBack r (.service x) := fun _ _ _ _ _ _ h => by cases h
  have h1 := Run.init.step (.fail .sender .transientFailure rfl (.inr rfl)) (hok _ _)
  have h2 := h1.step (.callFirst .sender .transientFailure rfl rfl) (hok _ _)
  have h3 := h2.step (.cancelOther .sender rfl) (hok _ _)
  have h4 := h3.step (.die .receiver rfl rfl) (hok _ _)
  have h5 := h4.step (.joinOther .sender rfl rfl) (hok _ _)
  obtain ⟨s, hr, hf, -, hfirst⟩ := h5.leave (fun r t hf hv i st x st' _ _ hx => by
    rw [hv]
    cases x <;> rfl) rfl rfl (fun _ => rfl) rfl
  exact ⟨s, hfirst, hf, teardown hr⟩

/-- The sender is the first to call, and before it cancels the receiver a worker fails: the main
thread's call returns at once, and the receiver runs on when the multiplexer is freed. -/
theorem not_torn : ∃ s, Run (fun _ _ => True) s ∧ ¬Torn s := by
  have h0 : Run (fun _ _ => True) State.init := .init
  have h1 := h0.step (.fail .sender .transientFailure rfl (.inr rfl)) trivial
  have h2 := h1.step (.callFirst .sender .transientFailure rfl rfl) trivial
  obtain ⟨s, hr, hf, hv, -⟩ := h2.leave (fun _ _ _ _ => trivial) rfl rfl (fun _ => rfl) rfl
  exact ⟨s, hr, fun ht => ht.unused hf .receiver s (.serve .receiver (by rw [hv]; rfl))⟩

end Csup.Mux.Teardown
