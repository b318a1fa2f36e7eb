import Mathlib.Order.Basic

/-!
# Programs that read their state and may fail

`Ends fine m s Q`: from the state `s`, the program `m` ends with a value and a state for
which `Q` holds, or with an error that is `fine`.

`rounds` is a loop that counts its rounds, and fails with `spent` when there are none left.
Where each round leaves less of a measure, and there is a round for all that is left
(`ends_rounds`), that error does not occur.
-/

namespace Csup.Framework

variable {σ ε α β γ : Type}

abbrev Scan (σ ε α : Type) := StateT σ (Except ε) α

namespace Scan

def Ends (fine : ε → Prop) (m : Scan σ ε α) (s : σ) (Q : α → σ → Prop) : Prop :=
  match m s with
  | .ok (a, s') => Q a s'
  | .error e => fine e

/-- A loop, with the rounds it may do. -/
def rounds (spent : ε) (body : β → Scan σ ε (β ⊕ γ)) : Nat → β → Scan σ ε γ
  | 0, _ => throw spent
  | n + 1, b => do
    match ← body b with
    | .inl b => rounds spent body n b
    | .inr c => return c

theorem bind_ok {m : Scan σ ε α} {k : α → Scan σ ε β} {s s' : σ} {a : α} (h : m s = .ok (a, s')) :
    (m >>= k) s = k a s' := by
  show (m s).bind _ = _
  rw [h]
  rfl

theorem bind_error {m : Scan σ ε α} {k : α → Scan σ ε β} {s : σ} {e : ε} (h : m s = .error e) :
    (m >>= k) s = .error e := by
  show (m s).bind _ = _
  rw [h]
  rfl

theorem rounds_succ (spent : ε) (body : β → Scan σ ε (β ⊕ γ)) (n : Nat) (b : β) (s : σ) :
    rounds spent body (n + 1) b s =
      match body b s with
      | .error e => .error e
      | .ok (.inl b, s) => rounds spent body n b s
      | .ok (.inr c, s) => .ok (c, s) := by
  show (body b s).bind _ = _
  match body b s with
  | .error e => rfl
  | .ok (.inl b, s) => rfl
  | .ok (.inr c, s) => rfl

variable {fine : ε → Prop} {m : Scan σ ε α} {s : σ} {P Q : α → σ → Prop}

theorem Ends.ok (h : Ends fine m s Q) {a : α} {s' : σ} (hm : m s = .ok (a, s')) : Q a s' := by
  unfold Ends at h
  rwa [hm] at h

theorem Ends.error (h : Ends fine m s Q) {e : ε} (hm : m s = .error e) : fine e := by
  unfold Ends at h
  rwa [hm] at h

theorem ends_of_ok {a : α} {s' : σ} (hm : m s = .ok (a, s')) (h : Q a s') : Ends fine m s Q := by
  unfold Ends
  rwa [hm]

theorem ends_pure {a : α} (h : Q a s) : Ends fine (pure a) s Q := h

theorem ends_throw {e : ε} (h : fine e) : Ends fine (throw e) s Q := h

theorem Ends.mono (h : Ends fine m s P) (hPQ : ∀ a s', P a s' → Q a s') : Ends fine m s Q := by
  unfold Ends at h ⊢
  split
  · rename_i hm
    rw [hm] at h
    exact hPQ _ _ h
  · rename_i hm
    rw [hm] at h
    exact h

/-- The state and the value that the program ends with. -/
theorem Ends.and_ok (h : Ends fine m s Q) :
    Ends fine m s fun a s' => Q a s' ∧ m s = .ok (a, s') := by
  cases hm : m s with
  | ok r => exact ends_of_ok hm ⟨h.ok hm, rfl⟩
  | error e =>
    have he := h.error hm
    unfold Ends
    rwa [hm]

theorem Ends.bind {k : α → Scan σ ε β} {Q : β → σ → Prop} (h : Ends fine m s P)
    (hk : ∀ a s', P a s' → Ends fine (k a) s' Q) : Ends fine (m >>= k) s Q := by
  cases hm : m s with
  | ok r =>
    show match (m >>= k) s with | .ok (a, s') => Q a s' | .error e => fine e
    rw [bind_ok hm]
    exact hk _ _ (h.ok hm)
  | error e =>
    show match (m >>= k) s with | .ok (a, s') => Q a s' | .error e => fine e
    rw [bind_error hm]
    exact h.error hm

/-- `I` holds before every round. -/
theorem ends_rounds {spent : ε} {body : β → Scan σ ε (β ⊕ γ)} {Q : γ → σ → Prop}
    (left : β → σ → Nat) (I : β → σ → Prop)
    (hbody : ∀ b s, I b s → Ends fine (body b) s fun r s' =>
      (∀ b', r = .inl b' → I b' s' ∧ left b' s' < left b s) ∧ ∀ c, r = .inr c → Q c s')
    {n : Nat} {b : β} {s : σ} (hI : I b s) (hn : left b s < n) :
    Ends fine (rounds spent body n b) s Q := by
  induction n generalizing b s with
  | zero => omega
  | succ n ih =>
    refine (hbody b s hI).bind fun r s' hr => ?_
    match r, hr with
    | .inl b', hr =>
      obtain ⟨hI', hlt⟩ := hr.1 b' rfl
      exact ih hI' (by omega)
    | .inr c, hr => exact ends_pure (hr.2 c rfl)

/-! ## What is returned -/

/-- Every value the program ends with satisfies `Q`. -/
def Returns (m : Scan σ ε α) (Q : α → Prop) : Prop := ∀ s a s', m s = .ok (a, s') → Q a

theorem returns_pure {a : α} {Q : α → Prop} (h : Q a) : Returns (pure a : Scan σ ε α) Q :=
  fun _ _ _ hm => by
    obtain ⟨rfl, -⟩ := Prod.mk.inj (Except.ok.inj hm)
    exact h

theorem returns_throw {e : ε} {Q : α → Prop} : Returns (throw e : Scan σ ε α) Q :=
  fun _ _ _ hm => by cases hm

theorem Returns.bind {P : α → Prop} {Q : β → Prop} {k : α → Scan σ ε β} (hm : Returns m P)
    (hk : ∀ a, P a → Returns (k a) Q) : Returns (m >>= k) Q := by
  intro s b s' h
  cases hs : m s with
  | ok r =>
    rw [bind_ok hs] at h
    exact hk r.1 (hm s r.1 r.2 hs) r.2 b s' h
  | error e =>
    rw [bind_error hs] at h
    cases h

/-- What the first part returns does not matter. -/
theorem returns_bind {Q : β → Prop} (m : Scan σ ε α) {k : α → Scan σ ε β}
    (hk : ∀ a, Returns (k a) Q) : Returns (m >>= k) Q :=
  Returns.bind (P := fun _ => True) (fun _ _ _ _ => trivial) fun a _ => hk a

theorem returns_ite {c : Prop} [Decidable c] {m m' : Scan σ ε α} {Q : α → Prop}
    (hm : Returns m Q) (hm' : Returns m' Q) : Returns (if c then m else m') Q := by
  split <;> assumption

theorem returns_rounds {spent : ε} {body : β → Scan σ ε (β ⊕ γ)} {I : β → Prop} {Q : γ → Prop}
    (hbody : ∀ b, I b → Returns (body b) (Sum.elim I Q)) (n : Nat) {b : β} (hI : I b) :
    Returns (rounds spent body n b) Q := by
  induction n generalizing b with
  | zero => exact returns_throw
  | succ n ih =>
    refine (hbody b hI).bind fun r hr => ?_
    match r, hr with
    | .inl b', hr => exact ih hr
    | .inr c, hr => exact returns_pure hr

/-! ## What a program does -/

/-- From every state with `P`, the program ends with `a` and a state with `Q`. -/
def Runs (P : σ → Prop) (m : Scan σ ε α) (a : α) (Q : σ → Prop) : Prop :=
  ∀ s, P s → ∃ s', m s = .ok (a, s') ∧ Q s'

section

variable {P Q R : σ → Prop} {a : α} {b : β} {c : γ}

theorem runs_pure (h : ∀ s, P s → Q s) : Runs P (pure a : Scan σ ε α) a Q :=
  fun s hs => ⟨s, rfl, h s hs⟩

theorem Runs.bind {k : α → Scan σ ε β} (hm : Runs P m a Q) (hk : Runs Q (k a) b R) :
    Runs P (m >>= k) b R := fun s hs => by
  obtain ⟨s₁, h₁, hq⟩ := hm s hs
  obtain ⟨s₂, h₂, hr⟩ := hk s₁ hq
  exact ⟨s₂, (bind_ok h₁).trans h₂, hr⟩

theorem Runs.weaken (h : Runs P m a Q) (hP : ∀ s, R s → P s) : Runs R m a Q := fun s hs => h s (hP s hs)

/-- The last round. -/
theorem Runs.last {spent : ε} {body : β → Scan σ ε (β ⊕ γ)} {n : Nat}
    (h : Runs P (body b) (.inr c) Q) : Runs P (rounds spent body (n + 1) b) c Q := fun s hs => by
  obtain ⟨s', hs', hq⟩ := h s hs
  exact ⟨s', by rw [rounds_succ, hs'], hq⟩

/-- One round, and the others. -/
theorem Runs.round {spent : ε} {body : β → Scan σ ε (β ⊕ γ)} {n : Nat} {b' : β}
    (h : Runs P (body b) (.inl b') Q) (hn : Runs Q (rounds spent body n b') c R) :
    Runs P (rounds spent body (n + 1) b) c R := fun s hs => by
  obtain ⟨s₁, h₁, hq⟩ := h s hs
  obtain ⟨s₂, h₂, hr⟩ := hn s₁ hq
  exact ⟨s₂, by rw [rounds_succ, h₁]; exact h₂, hr⟩

end

end Scan

end Csup.Framework
