import Csup.Framework.Cutoff

/-!
# What a run that ends well leaves

`Post Q m w`: if `m`, started in the world `w`, comes to a value, then that value, the world
and the log behind it are `Q`. A postcondition goes backwards through a program, one part at a
time; the log of the parts in front is the beginning of the log (`post_bind`).
-/

namespace Csup.Framework

variable {E E' W A R α β : Type}

/-! ## What is done without reading -/

namespace Work

def Post (Q : α → W → List A → Prop) (m : Work E W A α) (w : W) : Prop :=
  ∀ v, (m w).val = .ok v → Q v (m w).world (m w).log

variable {Q : α → W → List A → Prop} {w : W}

theorem Post.mono {Q' : α → W → List A → Prop} {m : Work E W A α} (h : m.Post Q w)
    (hq : ∀ v w' l, Q v w' l → Q' v w' l) : m.Post Q' w :=
  fun v hv => hq _ _ _ (h v hv)

@[simp] theorem post_pure {a : α} : Post Q (Pure.pure a : Work E W A α) w ↔ Q a w [] := by
  show (∀ v, Except.ok a = (.ok v : Except E α) → Q v w []) ↔ _
  simp

@[simp] theorem post_fail {e : E} : Post Q (fail e : Work E W A α) w ↔ True := by
  simp [Post, fail]

@[simp] theorem post_ask {f : W → α} : Post Q (ask f : Work E W A α) w ↔ Q (f w) w [] := by
  simp [Post, ask]

@[simp] theorem post_tell {f : W → α × W} :
    Post Q (tell f : Work E W A α) w ↔ Q (f w).1 (f w).2 [] := by
  simp [Post, tell]

@[simp] theorem post_act {a : A} {f : W → α × W} :
    Post Q (act a f : Work E W A α) w ↔ Q (f w).1 (f w).2 [a] := by
  simp [Post, act]

theorem post_bind {Q : β → W → List A → Prop} {m : Work E W A α} {k : α → Work E W A β} :
    (m >>= k).Post Q w ↔
      m.Post (fun a w' l => (k a).Post (fun b w'' l' => Q b w'' (l ++ l')) w') w := by
  show (∀ v, (Work.bind m k w).val = .ok v → _) ↔ ∀ a, (m w).val = .ok a → _
  cases h : (m w).val with
  | ok a =>
    have hb : Work.bind m k w = ⟨(k a (m w).world).val, (k a (m w).world).world,
        (m w).log ++ (k a (m w).world).log⟩ := by
      simp only [Work.bind, h]
    show (∀ v, (Work.bind m k w).val = .ok v →
      Q v (Work.bind m k w).world (Work.bind m k w).log) ↔ _
    simp only [hb, Except.ok.injEq, forall_eq']
    rfl
  | error e => simp [Work.bind, h]

/-- Where it does not matter what the first part does. -/
theorem post_bind_of {Q : β → W → List A → Prop} {m : Work E W A α} {k : α → Work E W A β}
    (h : ∀ a w' l, (k a).Post (fun b w'' l' => Q b w'' (l ++ l')) w') : (m >>= k).Post Q w :=
  post_bind.mpr fun a _ => h a _ _

end Work

/-! ## Programs -/

namespace Prog

def Post (Q : α → W → List A → Prop) (m : Prog E W A R α) (p : List UInt8) (w : W) : Prop :=
  ∀ v, (m p w).val = .ok v → Q v (m p w).world (m p w).log

variable {Q : α → W → List A → Prop} {p : List UInt8} {w : W}

theorem post_work {wrap : E' → E} {m : Work E' W A α} (h : m.Post Q w) :
    (work wrap m : Prog E W A R α).Post Q p w := by
  intro v hv
  apply h v
  cases hm : (m w).val <;> simp_all [work, Except.mapError]

theorem post_read {mark : List UInt8 → α → List R}
    {f : List UInt8 → Except E (α × List UInt8)} (h : ∀ a, Q a w []) :
    (read mark f : Prog E W A R α).Post Q p w := by
  unfold Post read
  split
  · intro v _
    exact h v
  · intro v hv
    cases hv

theorem post_bind {Q : β → W → List A → Prop} {m : Prog E W A R α} {k : α → Prog E W A R β}
    (h : m.Post (fun a w' l => ∀ p', (k a).Post (fun b w'' l' => Q b w'' (l ++ l')) p' w') p w) :
    (bind m k).Post Q p w := by
  unfold Post
  cases hm : (m p w).val with
  | ok a =>
    rw [bind_ok hm]
    exact h a hm _
  | error e =>
    rw [bind_error hm]
    intro v hv
    cases hv

theorem post_map {Q : β → W → List A → Prop} {m : Prog E W A R α} {f : α → β}
    (h : m.Post (fun v w' l => Q (f v) w' l) p w) : (f <$> m : Prog E W A R β).Post Q p w := by
  apply post_bind
  intro v hv p' u hu
  obtain rfl : f v = u := by simpa [Function.comp, pure] using hu
  show Q (f v) (m p w).world ((m p w).log ++ [])
  rw [List.append_nil]
  exact h v hv

end Prog

end Csup.Framework
