import Mathlib.Logic.Basic

/-!
# Runs that may fail

A machine takes actions one after another; an action may fail. When an action leads
from a safe state to a safe state, without failing, exactly where a guard lets it, a
run is safe all along exactly when the guard let all of its actions
(`safely_iff_within`).
-/

namespace Csup.Framework

variable {S A F : Type*}

/-- The run is safe in every state, and no action of it fails. -/
def Safely (step : S → A → Option (Except F S)) (Safe : S → Prop) : S → List A → Prop
  | s, [] => Safe s
  | s, a :: as => Safe s ∧ ∀ r, step s a = some r → ∃ s', r = .ok s' ∧ Safely step Safe s' as

/-- The guard lets every action that the run takes. -/
def Within (step : S → A → Option (Except F S)) (Guard : S → A → Prop) : S → List A → Prop
  | _, [] => True
  | s, a :: as =>
    ∀ r, step s a = some r → Guard s a ∧ ∀ s', r = .ok s' → Within step Guard s' as

variable {step : S → A → Option (Except F S)} {Inv Safe : S → Prop} {Guard : S → A → Prop}

theorem Safely.safe {s : S} {as : List A} (h : Safely step Safe s as) : Safe s := by
  cases as with
  | nil => exact h
  | cons a as => exact h.1

theorem safely_iff_within
    (hinv : ∀ s a s', Inv s → Safe s → step s a = some (.ok s') → Inv s')
    (hstep : ∀ s a r, Inv s → Safe s → step s a = some r →
      ((∃ s', r = .ok s' ∧ Safe s') ↔ Guard s a))
    {s : S} (hi : Inv s) (hs : Safe s) (as : List A) :
    Safely step Safe s as ↔ Within step Guard s as := by
  induction as generalizing s with
  | nil => exact iff_of_true hs trivial
  | cons a as ih =>
    show (Safe s ∧ _) ↔ _
    rw [and_iff_right hs]
    refine forall_congr' fun r => forall_congr' fun hr => ?_
    rw [← hstep s a r hi hs hr]
    constructor
    · rintro ⟨s', rfl, h⟩
      refine ⟨⟨s', rfl, h.safe⟩, fun t ht => ?_⟩
      obtain rfl : s' = t := Except.ok.inj ht
      exact (ih (hinv s a s' hi hs hr) h.safe).mp h
    · rintro ⟨⟨s', rfl, hs'⟩, h⟩
      exact ⟨s', rfl, (ih (hinv s a s' hi hs hr) hs').mpr (h s' rfl)⟩

end Csup.Framework
