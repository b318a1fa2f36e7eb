import Mathlib.Data.List.Basic
import Mathlib.Logic.Function.Basic

/-!
# Threads that take locks

A thread takes locks, releases them and acts on what the threads share; a loop of its
code is a jump to a label. An action is only taken where a guard lets it: `Reach` is about
the runs in which all of them are.

Locks have ranks. When the code behind every label takes locks in the order of their
ranks, and holds at every jump what the label says (`Keeps`), every thread does, in every state
(`Reach.tidy`). So no thread waits for a lock that it holds (`Tidy.lt_of_wants`), and where a
lock is held, some thread that holds one does not wait (`Tidy.exists_awake`).
-/

namespace Csup.Framework.Locks

/-- What a thread is to do. -/
inductive Code (σ A L P : Type) : Type 1
  | done
  | lock (l : L) (k : Code σ A L P)
  | unlock (l : L) (k : Code σ A L P)
  | act {β : Type} (a : A) (r : σ → β → σ → Prop) (k : β → Code σ A L P)
  | jump (p : P)

variable {σ A L P T : Type}

/-- The lock that is taken next. -/
def Code.wants : Code σ A L P → Option L
  | lock l _ => some l
  | _ => none

/-- The action that is next. -/
def Code.next : Code σ A L P → Option A
  | act a _ _ => some a
  | _ => none

structure State (σ A L P T : Type) where
  shared : σ
  owner : L → Option T
  code : T → Code σ A L P

/-- No thread has begun. -/
def State.start (s : σ) : State σ A L P T := ⟨s, fun _ => none, fun _ => .done⟩

/-- How code is run: what is behind a label, which labels a thread may begin with, and where
an action is taken. -/
structure Rules (σ A L P : Type) where
  body : P → Code σ A L P
  entry : P → Prop
  Guard : A → σ → Prop

section
variable [DecidableEq L] [DecidableEq T]

def State.goto (s : State σ A L P T) (t : T) (k : Code σ A L P) : State σ A L P T :=
  { s with code := Function.update s.code t k }

def State.give (s : State σ A L P T) (l : L) (t : Option T) : State σ A L P T :=
  { s with owner := Function.update s.owner l t }

/-- A step of the thread `t`. -/
inductive Step (R : Rules σ A L P) (s : State σ A L P T) (t : T) : State σ A L P T → Prop
  | call {p : P} : s.code t = .done → R.entry p → Step R s t (s.goto t (R.body p))
  | jump {p : P} : s.code t = .jump p → Step R s t (s.goto t (R.body p))
  | lock {l : L} {k : Code σ A L P} : s.code t = .lock l k → s.owner l = none →
    Step R s t ((s.give l (some t)).goto t k)
  | unlock {l : L} {k : Code σ A L P} : s.code t = .unlock l k → s.owner l = some t →
    Step R s t ((s.give l none).goto t k)
  | act {β : Type} {a : A} {r : σ → β → σ → Prop} {k : β → Code σ A L P} {b : β} {x : σ} :
    s.code t = .act a r k → R.Guard a s.shared → r s.shared b x →
    Step R s t (({ s with shared := x } : State σ A L P T).goto t (k b))

/-- The states of the runs from `init`. -/
inductive Reach (R : Rules σ A L P) (init : State σ A L P T) : State σ A L P T → Prop
  | init : Reach R init init
  | step {s s' : State σ A L P T} (t : T) : Reach R init s → Step R s t s' → Reach R init s'

end

/-! ## Code that keeps the order -/

/-- What is to be known of locks: their order, the actions at which a thread has none, and
those that it has at a label. -/
structure Order (A L P : Type) where
  rank : L → Nat
  Quiet : A → Prop
  pre : P → List L

variable [DecidableEq L]

/-- The code keeps to the order, for a thread that holds `held`. -/
def Keeps (O : Order A L P) (Guard : A → σ → Prop) : List L → Code σ A L P → Prop
  | held, .done => held = []
  | held, .lock l k => (∀ l' ∈ held, O.rank l' < O.rank l) ∧ Keeps O Guard (l :: held) k
  | held, .unlock l k => l ∈ held ∧ Keeps O Guard (held.erase l) k
  | held, .act a r k =>
    (O.Quiet a → held = []) ∧ ∀ s b s', Guard a s → r s b s' → Keeps O Guard held (k b)
  | held, .jump p => held = O.pre p

/-- The code behind every label keeps to the order. -/
structure Rules.Ordered (R : Rules σ A L P) (O : Order A L P) : Prop where
  body : ∀ p, Keeps O R.Guard (O.pre p) (R.body p)
  entry : ∀ p, R.entry p → O.pre p = []

/-- The thread `t` holds the locks `held`. -/
def State.Holds (s : State σ A L P T) (t : T) (held : List L) : Prop :=
  held.Nodup ∧ ∀ l, s.owner l = some t ↔ l ∈ held

/-- Every thread has code that keeps to the order. -/
def Tidy (O : Order A L P) (Guard : A → σ → Prop) (s : State σ A L P T) : Prop :=
  ∀ t, ∃ held, s.Holds t held ∧ Keeps O Guard held (s.code t)

variable {O : Order A L P} {Guard : A → σ → Prop} {R : Rules σ A L P} {s s' : State σ A L P T}
  {t u : T} {l : L} {a : A} {held : List L} {k : Code σ A L P}

theorem tidy_start (x : σ) : Tidy (T := T) O Guard (.start x) :=
  fun _ => ⟨[], ⟨List.nodup_nil, fun _ => by simp [State.start]⟩, rfl⟩

omit [DecidableEq L] in
theorem State.Holds.nil (h : s.Holds t []) (l : L) : s.owner l ≠ some t :=
  fun ho => List.not_mem_nil ((h.2 l).mp ho)

theorem State.Holds.lock (h : s.Holds t held) (hl : l ∉ held) :
    (s.give l (some t)).Holds t (l :: held) := by
  refine ⟨List.nodup_cons.mpr ⟨hl, h.1⟩, fun l' => ?_⟩
  by_cases he : l' = l
  · subst he
    simp [give]
  · simp [give, he, h.2]

theorem State.Holds.unlock (h : s.Holds t held) :
    (s.give l none).Holds t (held.erase l) := by
  refine ⟨h.1.erase l, fun l' => ?_⟩
  rw [h.1.mem_erase_iff]
  by_cases he : l' = l
  · subst he
    simp [give]
  · simp [give, he, h.2]

/-- Another thread keeps its locks while `l` changes hands. -/
theorem State.Holds.give {o : Option T} (h : s.Holds u held) (hs : s.owner l ≠ some u)
    (ho : o ≠ some u) : (s.give l o).Holds u held := by
  refine ⟨h.1, fun l' => ?_⟩
  by_cases he : l' = l
  · subst he
    simp [State.give, ho, ← h.2, hs]
  · simp [State.give, he, h.2]

/-! ## What the order is for -/

theorem Tidy.of_done (h : Tidy O Guard s) (hc : s.code t = .done) (l : L) : s.owner l ≠ some t := by
  obtain ⟨held, hheld, hk⟩ := h t
  rw [hc] at hk
  obtain rfl : held = [] := hk
  exact hheld.nil l

theorem Tidy.of_quiet (h : Tidy O Guard s) (hc : (s.code t).next = some a) (ha : O.Quiet a) (l : L) :
    s.owner l ≠ some t := by
  obtain ⟨held, hheld, hk⟩ := h t
  cases hcode : s.code t with
  | act a' r k =>
    rw [hcode] at hc hk
    obtain rfl : a' = a := Option.some.inj hc
    obtain rfl : held = [] := hk.1 ha
    exact hheld.nil l
  | _ => simp [hcode, Code.next] at hc

/-- What a thread holds when it takes a lock is of a lower rank. -/
theorem Tidy.lt_of_wants (h : Tidy O Guard s) (hw : (s.code t).wants = some l) {l' : L}
    (ho : s.owner l' = some t) : O.rank l' < O.rank l := by
  obtain ⟨held, hheld, hk⟩ := h t
  cases hcode : s.code t with
  | lock l₁ k =>
    rw [hcode] at hw hk
    obtain rfl : l₁ = l := Option.some.inj hw
    exact hk.1 l' ((hheld.2 l').mp ho)
  | _ => simp [hcode, Code.wants] at hw

theorem Tidy.not_self (h : Tidy O Guard s) (hw : (s.code t).wants = some l) :
    s.owner l ≠ some t := fun ho => Nat.lt_irrefl _ (h.lt_of_wants hw ho)

/-- Of the threads that hold locks, one does not wait for a lock that is held. -/
theorem Tidy.exists_awake {N : Nat} (hN : ∀ l, O.rank l ≤ N) (h : Tidy O Guard s)
    (ho : s.owner l = some t) :
    ∃ u l', s.owner l' = some u ∧ ∀ l'', (s.code u).wants = some l'' → s.owner l'' = none := by
  -- along the locks that are waited for the ranks grow
  induction hn : N - O.rank l using Nat.strongRecOn generalizing l t with
  | ind n ih =>
    by_cases hw : ∃ l₁ u, (s.code t).wants = some l₁ ∧ s.owner l₁ = some u
    · obtain ⟨l₁, u, hw, hu⟩ := hw
      have hlt : O.rank l < O.rank l₁ := h.lt_of_wants hw ho
      have hle : O.rank l₁ ≤ N := hN l₁
      exact ih (N - O.rank l₁) (by omega) hu rfl
    · refine ⟨t, l, ho, fun l₁ hl₁ => ?_⟩
      cases hu : s.owner l₁ with
      | none => rfl
      | some u => exact absurd ⟨l₁, u, hl₁, hu⟩ hw

/-! ## Runs -/

variable [DecidableEq T]

/-- A step of `t`, by what becomes of `t` and of the locks of the others. -/
theorem tidy_goto {x : State σ A L P T} (ht : ∃ held, x.Holds t held ∧ Keeps O Guard held k)
    (hother : ∀ u ≠ t, ∃ held, x.Holds u held ∧ Keeps O Guard held (x.code u)) :
    Tidy O Guard (x.goto t k) := by
  intro u
  show ∃ held, x.Holds u held ∧ Keeps O Guard held (Function.update x.code t k u)
  by_cases hu : u = t
  · subst hu
    rw [Function.update_self]
    exact ht
  · rw [Function.update_of_ne hu]
    exact hother u hu

theorem Step.tidy (hR : R.Ordered O) (h : Tidy O R.Guard s) (hs : Step R s t s') :
    Tidy O R.Guard s' := by
  obtain ⟨held, hheld, hk⟩ := h t
  cases hs with
  | @call p hc hp =>
    rw [hc] at hk
    obtain rfl : held = [] := hk
    exact tidy_goto ⟨[], hheld, hR.entry p hp ▸ hR.body p⟩ fun u _ => h u
  | @jump p hc =>
    rw [hc] at hk
    obtain rfl : held = O.pre p := hk
    exact tidy_goto ⟨_, hheld, hR.body p⟩ fun u _ => h u
  | @lock l k hc hl =>
    rw [hc] at hk
    have hnot : l ∉ held := fun hm => (Nat.lt_irrefl _ (hk.1 l hm))
    refine tidy_goto ⟨_, hheld.lock hnot, hk.2⟩ fun u hu => ?_
    obtain ⟨held', hheld', hk'⟩ := h u
    exact ⟨held', hheld'.give (by simp [hl]) (by simpa using hu.symm), hk'⟩
  | @unlock l k hc hl =>
    rw [hc] at hk
    refine tidy_goto ⟨_, hheld.unlock, hk.2⟩ fun u hu => ?_
    obtain ⟨held', hheld', hk'⟩ := h u
    exact ⟨held', hheld'.give (by simpa [hl] using hu.symm) (by simp), hk'⟩
  | act hc hg hr =>
    rw [hc] at hk
    exact tidy_goto ⟨held, hheld, hk.2 _ _ _ hg hr⟩ fun u _ => h u

theorem Reach.tidy {x : σ} (hR : R.Ordered O) (h : Reach (T := T) R (.start x) s) :
    Tidy O R.Guard s := by
  induction h with
  | init => exact tidy_start x
  | step t _ hs ih => exact hs.tidy hR ih

end Csup.Framework.Locks
