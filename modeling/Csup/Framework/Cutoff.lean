import Mathlib.Data.List.Infix

/-!
# Programs that act on what they read, and streams that end too early

A program (`Prog`) reads from a stream of bytes, works on a world and leaves a
log of what it did. It runs on the beginning `p` of a stream and on the whole
stream `p ++ q`. What it does on the beginning is a beginning of what it does
on the whole (`Good.log_starts`), if every part of it is `Good`: the two runs go
the same way until the one on `p` stops with an error, or has read all there is
and does nothing more (`doom`).

`notes` are what a read says about an end of the stream it ran into; `fine` is
what is asked of them.
-/

namespace Csup.Framework

/-! ## What is done without reading -/

/-- What is left by a part of a program that does not read. -/
structure Done (E W A α : Type) where
  val : Except E α
  world : W
  log : List A

def Work (E W A α : Type) := W → Done E W A α

namespace Work

variable {E W A α β : Type}

def pure (a : α) : Work E W A α := fun w => ⟨.ok a, w, []⟩

/-- One part after the other. -/
def bind (m : Work E W A α) (k : α → Work E W A β) : Work E W A β := fun w =>
  match (m w).val with
  | .ok a =>
    let d := k a (m w).world
    ⟨d.val, d.world, (m w).log ++ d.log⟩
  | .error e => ⟨.error e, (m w).world, (m w).log⟩

instance : Monad (Work E W A) where
  pure := pure
  bind := bind

def fail (e : E) : Work E W A α := fun w => ⟨.error e, w, []⟩

/-- Look at the world. -/
def ask (f : W → α) : Work E W A α := fun w => ⟨.ok (f w), w, []⟩

/-- Change the world. -/
def tell (f : W → α × W) : Work E W A α := fun w => ⟨.ok (f w).1, (f w).2, []⟩

/-- Change the world, and log it. -/
def act (a : A) (f : W → α × W) : Work E W A α := fun w => ⟨.ok (f w).1, (f w).2, [a]⟩

/-- The first part's log comes first. -/
theorem log_bind (m : Work E W A α) (k : α → Work E W A β) (w : W) :
    (m w).log <+: ((m >>= k) w).log := by
  show _ <+: (bind m k w).log
  unfold bind
  split
  · exact List.prefix_append _ _
  · exact List.prefix_rfl

theorem log_bind_mono {m : Work E W A α} {k : α → Work E W A β} {β' : Type}
    {k' : α → Work E W A β'} (h : ∀ a w, (k a w).log <+: (k' a w).log) (w : W) :
    ((m >>= k) w).log <+: ((m >>= k') w).log := by
  show (bind m k w).log <+: (bind m k' w).log
  unfold bind
  split
  · exact (List.prefix_append_right_inj _).mpr (h _ _)
  · exact List.prefix_rfl

/-- Nothing is logged. -/
def Quiet (m : Work E W A α) : Prop := ∀ w, (m w).log = []

theorem quiet_pure (a : α) : Quiet (pure a : Work E W A α) := fun _ => rfl

theorem quiet_fail (e : E) : Quiet (fail e : Work E W A α) := fun _ => rfl

theorem quiet_ask (f : W → α) : Quiet (ask f : Work E W A α) := fun _ => rfl

theorem quiet_tell (f : W → α × W) : Quiet (tell f : Work E W A α) := fun _ => rfl

theorem Quiet.bind {m : Work E W A α} {k : α → Work E W A β} (hm : Quiet m)
    (hk : ∀ a, Quiet (k a)) : Quiet (m >>= k) := by
  intro w
  show (Work.bind m k w).log = []
  unfold Work.bind
  split
  · exact List.append_eq_nil_iff.mpr ⟨hm w, hk _ _⟩
  · exact hm w

theorem Quiet.bind_ok {m : Work E W A α} (hm : Quiet m) {k : α → Work E W A β}
    (hk : ∀ w a, (m w).val = .ok a → (k a (m w).world).log = []) : Quiet (m >>= k) := by
  intro w
  show (Work.bind m k w).log = []
  unfold Work.bind
  split
  · rename_i a ha
    exact List.append_eq_nil_iff.mpr ⟨hm w, hk w a ha⟩
  · exact hm w

end Work

/-! ## Programs -/

/-- What a run leaves. -/
structure Result (E W A R α : Type) where
  val : Except E α
  input : List UInt8
  world : W
  log : List A
  notes : List R

def Prog (E W A R α : Type) := List UInt8 → W → Result E W A R α

namespace Prog

variable {E W A R α β : Type}

def pure (a : α) : Prog E W A R α := fun p w => ⟨.ok a, p, w, [], []⟩

/-- One program after the other. -/
def bind (m : Prog E W A R α) (k : α → Prog E W A R β) : Prog E W A R β := fun p w =>
  match (m p w).val with
  | .ok a =>
    let r := k a (m p w).input (m p w).world
    ⟨r.val, r.input, r.world, (m p w).log ++ r.log, (m p w).notes ++ r.notes⟩
  | .error e => ⟨.error e, (m p w).input, (m p w).world, (m p w).log, (m p w).notes⟩

instance : Monad (Prog E W A R) where
  pure := pure
  bind := bind

def fail (e : E) : Prog E W A R α := fun p w => ⟨.error e, p, w, [], []⟩

/-- A part that does not read; `wrap` makes its errors errors of the program. -/
def work {E' : Type} (wrap : E' → E) (m : Work E' W A α) : Prog E W A R α := fun p w =>
  ⟨(m w).val.mapError wrap, p, (m w).world, (m w).log, []⟩

/-- Read with `f`, which returns what it leaves of the stream. -/
def read (mark : List UInt8 → α → List R) (f : List UInt8 → Except E (α × List UInt8)) :
    Prog E W A R α := fun p w =>
  match f p with
  | .ok (a, rest) => ⟨.ok a, rest, w, [], if rest = [] then mark p a else []⟩
  | .error e => ⟨.error e, p, w, [], []⟩

/-- A loop of at most `n` rounds. -/
def iterate (stuck : E) (body : β → Prog E W A R (β ⊕ α)) : Nat → β → Prog E W A R α
  | 0, _ => fail stuck
  | n + 1, b => bind (body b) fun
    | .inl b => iterate stuck body n b
    | .inr a => pure a

/-- A loop that reads something in every round but the last. -/
def loop (stuck : E) (body : β → Prog E W A R (β ⊕ α)) (b : β) : Prog E W A R α := fun p w =>
  iterate stuck body (p.length + 1) b p w

theorem bind_ok {m : Prog E W A R α} {k : α → Prog E W A R β} {p : List UInt8} {w : W} {a : α}
    (h : (m p w).val = .ok a) : bind m k p w =
      ⟨(k a (m p w).input (m p w).world).val, (k a (m p w).input (m p w).world).input,
        (k a (m p w).input (m p w).world).world,
        (m p w).log ++ (k a (m p w).input (m p w).world).log,
        (m p w).notes ++ (k a (m p w).input (m p w).world).notes⟩ := by
  simp only [bind, h]

theorem bind_error {m : Prog E W A R α} {k : α → Prog E W A R β} {p : List UInt8} {w : W} {e : E}
    (h : (m p w).val = .error e) : bind m k p w =
      ⟨.error e, (m p w).input, (m p w).world, (m p w).log, (m p w).notes⟩ := by
  simp only [bind, h]

/-- The first program's log comes first. -/
theorem log_bind (m : Prog E W A R α) (k : α → Prog E W A R β) (p : List UInt8) (w : W) :
    (m p w).log <+: (bind m k p w).log := by
  rcases h : (m p w).val with e | a
  · rw [bind_error h]
  · rw [bind_ok h]
    exact List.prefix_append _ _

theorem notes_bind (m : Prog E W A R α) (k : α → Prog E W A R β) (p : List UInt8) (w : W) :
    ∀ r ∈ (m p w).notes, r ∈ (bind m k p w).notes := by
  intro r hr
  rcases h : (m p w).val with e | a
  · rwa [bind_error h]
  · rw [bind_ok h]
    exact List.mem_append_left _ hr

/-- The log of a part that does not read comes first. -/
theorem log_work_bind {E' : Type} (wrap : E' → E) (m : Work E' W A α) (k : α → Prog E W A R β)
    (p : List UInt8) (w : W) : (m w).log <+: (bind (work wrap m) k p w).log :=
  log_bind (work wrap m) k p w

/-! ## Two runs -/

/-- The run `x` on the beginning of a stream and the run `y` on all of it. -/
inductive Outcome (q : List UInt8) (doom : Bool) (x y : Result E W A R α) : Prop
  /-- Both do the same and have as much behind them. -/
  | same (rest : List UInt8) (hval : y.val = x.val) (hworld : y.world = x.world)
      (hlog : y.log = x.log) (hinput : y.input = x.input ++ rest)
      (hrest : x.input = [] ∨ rest = q)
  /-- The shorter run stops. -/
  | ahead (e : E) (hval : x.val = .error e) (hlog : x.log <+: y.log)
  /-- The shorter run is at the end of the stream. -/
  | doomed (hdoom : doom = true) (hinput : x.input = []) (hlog : x.log <+: y.log)

/-- The two runs of a program agree, wherever the stream breaks off. -/
structure Good (fine : R → Prop) (q : List UInt8) (stuck : E) (doom : Bool)
    (m : Prog E W A R α) : Prop where
  short : ∀ p w, (m p w).input.length ≤ p.length
  moves : ∀ p w, (m p w).val ≠ .error stuck
  outcome : ∀ p w rest, p = [] ∨ rest = q → (∀ r ∈ (m p w).notes, fine r) →
    Outcome q doom (m p w) (m (p ++ rest) w)

/-- Nothing is done at the end of a stream. -/
def Silent (m : Prog E W A R α) : Prop := ∀ w, (m [] w).log = []

/-- It is an error to come to the end of a stream. -/
def Quits (m : Prog E W A R α) : Prop := ∀ w, (m [] w).log = [] ∧ ∃ e, (m [] w).val = .error e

theorem Quits.silent {m : Prog E W A R α} (h : Quits m) : Silent m := fun w => (h w).1

theorem Quits.bind {m : Prog E W A R α} (h : Quits m) (k : α → Prog E W A R β) :
    Quits (bind m k) := by
  intro w
  obtain ⟨hlog, e, he⟩ := h w
  rw [bind_error he]
  exact ⟨hlog, e, rfl⟩

/-- At the end of a stream, a part that does not read is all that is logged. -/
theorem log_work_silent {E' : Type} (wrap : E' → E) {m : Work E' W A α} {k : α → Prog E W A R β}
    (hk : ∀ a, Silent (k a)) (w : W) : (Prog.bind (work wrap m) k [] w).log = (m w).log := by
  rcases h : (work wrap m [] w : Result E W A R α).val with e | a
  · rw [bind_error h]
    rfl
  · rw [bind_ok h]
    show (m w).log ++ (k a [] (m w).world).log = (m w).log
    rw [hk, List.append_nil]

section Rules

variable {fine : R → Prop} {q : List UInt8} {stuck : E} {doom : Bool}

theorem Outcome.log_starts {x y : Result E W A R α} (h : Outcome q doom x y) : x.log <+: y.log := by
  rcases h with ⟨rest, -, -, hlog, -, -⟩ | ⟨e, -, hlog⟩ | ⟨-, -, hlog⟩
  · rw [hlog]
  · exact hlog
  · exact hlog

/-- What is done on the beginning of a stream is a beginning of what is done on
all of it. -/
theorem Good.log_starts {m : Prog E W A R α} (h : Good fine q stuck doom m) {p : List UInt8} {w : W}
    (hf : ∀ r ∈ (m p w).notes, fine r) : (m p w).log <+: (m (p ++ q) w).log :=
  (h.outcome p w q (.inr rfl) hf).log_starts

/-- What does not read. -/
theorem good_still {m : Prog E W A R α} (hinput : ∀ p w, (m p w).input = p)
    (hsame : ∀ p p' w, (m p' w).val = (m p w).val ∧ (m p' w).world = (m p w).world ∧
      (m p' w).log = (m p w).log)
    (hstuck : ∀ p w, (m p w).val ≠ .error stuck) : Good fine q stuck doom m where
  short := fun p w => by rw [hinput]
  moves := hstuck
  outcome := by
    intro p w rest hrest _
    obtain ⟨hval, hworld, hlog⟩ := hsame p (p ++ rest) w
    refine .same rest hval hworld hlog ?_ ?_
    · rw [hinput, hinput]
    · rwa [hinput]

theorem good_pure (a : α) : Good fine q stuck doom (pure a : Prog E W A R α) :=
  good_still (fun _ _ => rfl) (fun _ _ _ => ⟨rfl, rfl, rfl⟩) fun _ _ => by simp [pure]

theorem good_work {E' : Type} {wrap : E' → E} (h : ∀ e, wrap e ≠ stuck) (m : Work E' W A α) :
    Good fine q stuck doom (work wrap m : Prog E W A R α) :=
  good_still (fun _ _ => rfl) (fun _ _ _ => ⟨rfl, rfl, rfl⟩) fun p w => by
    rcases hm : (m w).val with e | a
    · simpa [work, hm, Except.mapError] using h e
    · simp [work, hm, Except.mapError]

/-- What is at the end of a stream stays there. -/
theorem Good.input_nil {m : Prog E W A R α} (h : Good fine q stuck doom m) (w : W) :
    (m [] w).input = [] := by
  have := h.short [] w
  exact List.length_eq_zero_iff.mp (by simpa using this)

/-- The runs of two programs one after the other. -/
theorem Outcome.andThen {b : Bool} {m : Prog E W A R α} {k k' : α → Prog E W A R β}
    {p p' : List UInt8} {w : W} (hm : Outcome q b (m p w) (m p' w))
    (hk : ∀ a rest, (m p w).val = .ok a → (m p w).input = [] ∨ rest = q →
      Outcome q doom (k a (m p w).input (m p w).world) (k' a ((m p w).input ++ rest) (m p w).world))
    (hend : b = true → ∀ a w, (k a [] w).log = [] ∧
      if doom then (k a [] w).input = [] else ∃ e, (k a [] w).val = .error e) :
    Outcome q doom (Prog.bind m k p w) (Prog.bind m k' p' w) := by
  rcases hm with ⟨rest, hval, hworld, hlog, hinput, hq⟩ | ⟨e, hval, hlog⟩ | ⟨hb, hinput, hlog⟩
  · rcases h : (m p w).val with e | a
    · rw [bind_error h, bind_error (hval.trans h)]
      exact .ahead e rfl (by rw [hlog])
    · rw [bind_ok h, bind_ok (hval.trans h), hlog, hworld, hinput]
      rcases hk a rest h hq with ⟨rest₂, hval₂, hworld₂, hlog₂, hinput₂, hq₂⟩ | ⟨e, hval₂, hlog₂⟩ |
        ⟨hdoom₂, hinput₂, hlog₂⟩
      · exact .same rest₂ hval₂ hworld₂ (by rw [hlog₂]) hinput₂ hq₂
      · exact .ahead e hval₂ ((List.prefix_append_right_inj _).mpr hlog₂)
      · exact .doomed hdoom₂ hinput₂ ((List.prefix_append_right_inj _).mpr hlog₂)
  · rw [bind_error hval]
    exact .ahead e rfl (hlog.trans (log_bind m k' _ w))
  · -- the shorter run has nothing to read any more
    have hall := hlog.trans (log_bind m k' p' w)
    rcases h : (m p w).val with e | a
    · rw [bind_error h]
      exact .ahead e rfl hall
    · rw [bind_ok h, hinput]
      obtain ⟨hnil, ha⟩ := hend hb a (m p w).world
      cases hd : doom
      · rw [hd, if_neg (by decide)] at ha
        obtain ⟨e, he⟩ := ha
        refine .ahead e he ?_
        simpa [hnil] using hall
      · rw [hd, if_pos rfl] at ha
        refine .doomed rfl ha ?_
        simpa [hnil] using hall

theorem bind_short {m : Prog E W A R α} {k : α → Prog E W A R β} {p : List UInt8} {w : W}
    (hm : (m p w).input.length ≤ p.length)
    (hk : ∀ a, (m p w).val = .ok a →
      (k a (m p w).input (m p w).world).input.length ≤ (m p w).input.length) :
    (Prog.bind m k p w).input.length ≤ p.length := by
  rcases h : (m p w).val with e | a
  · rw [bind_error h]
    exact hm
  · rw [bind_ok h]
    exact Nat.le_trans (hk a h) hm

theorem bind_moves {m : Prog E W A R α} {k : α → Prog E W A R β} {p : List UInt8} {w : W}
    (hm : (m p w).val ≠ .error stuck)
    (hk : ∀ a, (m p w).val = .ok a →
      (k a (m p w).input (m p w).world).val ≠ .error stuck) :
    (Prog.bind m k p w).val ≠ .error stuck := by
  rcases h : (m p w).val with e | a
  · have he : e ≠ stuck := fun he => hm (by rw [h, he])
    rw [bind_error h]
    simpa using he
  · rw [bind_ok h]
    exact hk a h

/-- One program after another, which does nothing more if the first may come to
the end of the stream. -/
theorem Good.andThen {b : Bool} {m : Prog E W A R α} {k : α → Prog E W A R β}
    (hm : Good fine q stuck b m) (hk : ∀ a, Good fine q stuck doom (k a))
    (hend : b = true → ∀ a, if doom then Silent (k a) else Quits (k a)) :
    Good fine q stuck doom (Prog.bind m k) where
  short := fun p w => bind_short (hm.short p w) fun a _ => (hk a).short _ _
  moves := fun p w => bind_moves (hm.moves p w) fun a _ => (hk a).moves _ _
  outcome := by
    intro p w rest hrest hf
    have hf' := fun r hr => hf r (notes_bind m k p w r hr)
    refine (hm.outcome p w rest hrest hf').andThen ?_ ?_
    · intro a rest' ha hq
      rw [bind_ok ha] at hf
      exact (hk a).outcome _ _ rest' hq fun r hr => hf r (List.mem_append_right _ hr)
    · intro hb a w
      have ha := hend hb a
      cases hd : doom
      · rw [hd, if_neg (by decide)] at ha
        exact ha w
      · rw [hd, if_pos rfl] at ha
        exact ⟨ha w, (hk a).input_nil w⟩

/-- One program after another; the first leaves both runs alike or stops the
shorter one. -/
theorem Good.bind {m : Prog E W A R α} {k : α → Prog E W A R β} (hm : Good fine q stuck false m)
    (hk : ∀ a, Good fine q stuck doom (k a)) : Good fine q stuck doom (Prog.bind m k) :=
  hm.andThen hk fun h => by cases h

/-! ## Reading -/

/-- A reader is settled by what it has read, or has run into the end. -/
theorem good_read {mark : List UInt8 → α → List R}
    {f : List UInt8 → Except E (α × List UInt8)}
    (hlen : ∀ p a rest, f p = .ok (a, rest) → rest.length ≤ p.length)
    (hstuck : ∀ p, f p ≠ .error stuck)
    (hread : ∀ p a rest, p ≠ [] → f p = .ok (a, rest) → f (p ++ q) = .ok (a, rest ++ q) ∨
      rest = [] ∧ ((∀ r ∈ mark p a, fine r) → doom = true ∨ ∃ t, f (p ++ q) = .ok (a, t)))
    (hnil : ∀ a rest, f [] = .ok (a, rest) → (∀ r ∈ mark [] a, fine r) → doom = true) :
    Good fine q stuck doom (read mark f : Prog E W A R α) where
  short := by
    intro p w
    unfold read
    split
    · rename_i a rest h
      exact hlen p a rest h
    · exact Nat.le_refl _
  moves := by
    intro p w
    have hp := hstuck p
    unfold read
    split
    · simp
    · rename_i e h
      rw [h] at hp
      simpa using hp
  outcome := by
    intro p w t ht hf
    have hlog (p : List UInt8) : (read mark f p w : Result E W A R α).log = [] := by
      unfold read
      split <;> rfl
    rcases h : f p with e | ⟨a, rest⟩
    · have hx : (read mark f p w : Result E W A R α) = ⟨.error e, p, w, [], []⟩ := by
        simp only [read, h]
      refine .ahead e (by rw [hx]) ?_
      rw [hlog, hlog]
    · have hx : (read mark f p w : Result E W A R α) =
          ⟨.ok a, rest, w, [], if rest = [] then mark p a else []⟩ := by
        simp only [read, h]
      have hdoomed (hd : doom = true) (hr : rest = []) :
          Outcome q doom (read mark f p w : Result E W A R α) (read mark f (p ++ t) w) := by
        refine .doomed hd (by rw [hx]; exact hr) ?_
        rw [hlog, hlog]
      have hsame (t' : List UInt8) (hft : f (p ++ t) = .ok (a, rest ++ t'))
          (hq : rest = [] ∨ t' = q) :
          Outcome q doom (read mark f p w : Result E W A R α) (read mark f (p ++ t) w) := by
        have hy : (read mark f (p ++ t) w : Result E W A R α) =
            ⟨.ok a, rest ++ t', w, [], if rest ++ t' = [] then mark (p ++ t) a else []⟩ := by
          simp only [read, hft]
        rw [hx, hy]
        exact .same t' rfl rfl rfl rfl hq
      by_cases hp : p = []
      · subst hp
        have hr : rest = [] := List.length_eq_zero_iff.mp (by simpa using hlen [] a rest h)
        rw [hx, if_pos hr] at hf
        exact hdoomed (hnil a rest h hf) hr
      · obtain rfl := ht.resolve_left hp
        rcases hread p a rest hp h with hset | ⟨hr, hcut⟩
        · exact hsame _ hset (.inr rfl)
        · rw [hx, if_pos hr] at hf
          rcases hcut hf with hd | ⟨t', ht'⟩
          · exact hdoomed hd hr
          · exact hsame t' (by rw [hr]; exact ht') (.inl hr)

/-- A reader and what is done with what it read. Where it ran into the end, the
shorter run may do a part of what the other does, and no more. -/
theorem good_read_bind {mark : List UInt8 → α → List R}
    {f : List UInt8 → Except E (α × List UInt8)} {k : α → Prog E W A R β}
    (hk : ∀ a, Good fine q stuck true (k a))
    (hlen : ∀ p a rest, f p = .ok (a, rest) → rest.length ≤ p.length)
    (hstuck : ∀ p, f p ≠ .error stuck) (hnil : ∃ e, f [] = .error e)
    (hread : ∀ p a rest, p ≠ [] → f p = .ok (a, rest) → f (p ++ q) = .ok (a, rest ++ q) ∨
      rest = [] ∧ ((∀ r ∈ mark p a, fine r) → (∃ t, f (p ++ q) = .ok (a, t)) ∨
        ∀ w, (k a [] w).log <+: (Prog.bind (read mark f) k (p ++ q) w).log)) :
    Good fine q stuck true (Prog.bind (read mark f) k) := by
  have hval {p : List UInt8} {a : α} {rest : List UInt8} (h : f p = .ok (a, rest)) (w : W) :
      (read mark f p w : Result E W A R α) =
        ⟨.ok a, rest, w, [], if rest = [] then mark p a else []⟩ := by
    simp only [read, h]
  have hbad {p : List UInt8} {e : E} (h : f p = .error e) (w : W) :
      (read mark f p w : Result E W A R α) = ⟨.error e, p, w, [], []⟩ := by
    simp only [read, h]
  refine ⟨?_, ?_, ?_⟩
  · intro p w
    refine bind_short ?_ fun a _ => (hk a).short _ _
    rcases h : f p with e | ⟨a, rest⟩
    · rw [hbad h]
    · rw [hval h]
      exact hlen p a rest h
  · intro p w
    refine bind_moves ?_ fun a _ => (hk a).moves _ _
    rcases h : f p with e | ⟨a, rest⟩
    · have := hstuck p
      rw [h] at this
      rw [hbad h]
      simpa using this
    · rw [hval h]
      simp
  · intro p w t ht hf
    rcases h : f p with e | ⟨a, rest⟩
    · have hv := hbad h w
      rw [bind_error (show (read mark f p w : Result E W A R α).val = .error e by rw [hv]), hv]
      exact .ahead e rfl List.nil_prefix
    · by_cases hp : p = []
      · subst hp
        obtain ⟨e, he⟩ := hnil
        rw [he] at h
        cases h
      obtain rfl := ht.resolve_left hp
      have hv := hval h w
      have hvala : (read mark f p w : Result E W A R α).val = .ok a := by rw [hv]
      rw [bind_ok hvala] at hf
      have hfa := fun r hr => hf r (List.mem_append_right _ hr)
      -- what was read is the same
      have hsame (t' : List UInt8) (hft : f (p ++ t) = .ok (a, rest ++ t'))
          (hq : rest = [] ∨ t' = t) : Outcome t true (Prog.bind (read mark f) k p w)
            (Prog.bind (read mark f) k (p ++ t) w) := by
        have hv' := hval hft w
        rw [bind_ok hvala, bind_ok (show (read mark f (p ++ t) w : Result E W A R α).val = .ok a by
          rw [hv'])]
        rw [hv] at hfa
        have h2 := (hk a).outcome rest w t' hq hfa
        rw [hv, hv']
        rcases h2 with ⟨rest₂, hval₂, hworld₂, hlog₂, hinput₂, hq₂⟩ | ⟨e, hval₂, hlog₂⟩ |
          ⟨hdoom₂, hinput₂, hlog₂⟩
        · exact .same rest₂ hval₂ hworld₂ (by rw [hlog₂]) hinput₂ hq₂
        · exact .ahead e hval₂ hlog₂
        · exact .doomed hdoom₂ hinput₂ hlog₂
      rcases hread p a rest hp h with hset | ⟨hr, hcut⟩
      · exact hsame _ hset (.inr rfl)
      · subst hr
        have hmark : ∀ r ∈ mark p a, fine r := by
          intro r hr
          refine hf r (List.mem_append_left _ ?_)
          rw [hv]
          exact hr
        rcases hcut hmark with ⟨t', ht'⟩ | hlog
        · exact hsame t' ht' (.inl rfl)
        · rw [bind_ok hvala, hv]
          exact .doomed rfl ((hk a).input_nil w) (by simpa using hlog w)

/-! ## The loop -/

section Loop

variable {body : β → Prog E W A R (β ⊕ α)}

theorem iterate_short (stuck : E) (hb : ∀ b p w, (body b p w).input.length ≤ p.length) (n : Nat) (b : β)
    (p : List UInt8) (w : W) : (iterate stuck body n b p w).input.length ≤ p.length := by
  induction n generalizing b p w with
  | zero => exact Nat.le_refl _
  | succ n ih =>
    refine bind_short (hb b p w) ?_
    intro a _
    rcases a with b' | a
    · exact ih b' _ _
    · exact Nat.le_refl _

theorem iterate_moves (hb : ∀ b p w, (body b p w).val ≠ .error stuck)
    (heat : ∀ b p w b', (body b p w).val = .ok (.inl b') → (body b p w).input.length < p.length)
    (n : Nat) (b : β) (p : List UInt8) (w : W) (hn : p.length < n) :
    (iterate stuck body n b p w).val ≠ .error stuck := by
  induction n generalizing b p w with
  | zero => omega
  | succ n ih =>
    refine bind_moves (hb b p w) ?_
    intro a ha
    rcases a with b' | a
    · have := heat b p w b' ha
      exact ih b' _ _ (by omega)
    · simp [pure]

theorem iterate_quits (hq : ∀ b, Quits (body b)) (n : Nat) (b : β) :
    Quits (iterate stuck body n b) := by
  match n with
  | 0 => exact fun w => ⟨rfl, stuck, rfl⟩
  | n + 1 => exact (hq b).bind _

theorem iterate_outcome (hb : ∀ b, Good fine q stuck true (body b)) (hq : ∀ b, Quits (body b))
    {n n' : Nat} (hn : n ≤ n') (b : β) (p : List UInt8) (w : W) (rest : List UInt8)
    (hrest : p = [] ∨ rest = q) (hf : ∀ r ∈ (iterate stuck body n b p w).notes, fine r) :
    Outcome q true (iterate stuck body n b p w) (iterate stuck body n' b (p ++ rest) w) := by
  induction n generalizing n' b p w rest with
  | zero => exact .ahead stuck rfl List.nil_prefix
  | succ n ih =>
    obtain ⟨n', rfl⟩ : ∃ m, n' = m + 1 := ⟨n' - 1, by omega⟩
    have hf' := fun r hr => hf r (notes_bind _ _ p w r hr)
    refine ((hb b).outcome p w rest hrest hf').andThen ?_ ?_
    · intro a rest' ha hq'
      rw [iterate, bind_ok ha] at hf
      have hfa := fun r hr => hf r (List.mem_append_right _ hr)
      rcases a with b' | a
      · exact ih (by omega) b' _ _ rest' hq' hfa
      · exact .same rest' rfl rfl rfl rfl hq'
    · intro _ a w
      rw [if_pos rfl]
      rcases a with b' | a
      · have := iterate_short stuck (fun b => (hb b).short) n b' [] w
        exact ⟨(iterate_quits hq n b' w).1, List.length_eq_zero_iff.mp (by simpa using this)⟩
      · exact ⟨rfl, rfl⟩

theorem good_loop (hb : ∀ b, Good fine q stuck true (body b)) (hq : ∀ b, Quits (body b))
    (heat : ∀ b p w b', (body b p w).val = .ok (.inl b') → (body b p w).input.length < p.length)
    (b : β) : Good fine q stuck true (loop stuck body b) where
  short := fun p w => iterate_short stuck (fun b => (hb b).short) _ b p w
  moves := fun p w => iterate_moves (fun b => (hb b).moves) heat _ b p w (Nat.lt_succ_self _)
  outcome := by
    intro p w rest hrest hf
    exact iterate_outcome hb hq (by simp) b p w rest hrest hf

end Loop

end Rules

end Prog

end Csup.Framework
