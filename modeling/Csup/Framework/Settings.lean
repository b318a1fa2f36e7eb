import Mathlib.Data.Option.Basic

/-!
# Settings, one after the other

A list of settings is carried out on a state, or one of them fails.

* `foldlM_last`: a field that each setting gives a value or leaves alone has the value of the last one
  that gives it one;
* `foldlM_gathered`: a field to which each setting adds something;
* `foldlM_ok_iff`: when none of them fails.
-/

namespace Csup.Framework

variable {σ ι ε V : Type*} {step : σ → ι → Except ε σ} {s s' : σ} {l : List ι}

theorem foldlM_cons_ok {i : ι} (h : (i :: l).foldlM step s = .ok s') :
    ∃ s1, step s i = .ok s1 ∧ l.foldlM step s1 = .ok s' := by
  rw [List.foldlM_cons] at h
  cases hs : step s i with
  | error e =>
    rw [hs] at h
    cases h
  | ok s1 =>
    rw [hs] at h
    exact ⟨s1, rfl, h⟩

/-- What every setting keeps. -/
theorem foldlM_keeps {P : σ → Prop} (hstep : ∀ s i s', step s i = .ok s' → P s → P s')
    (h : l.foldlM step s = .ok s') (hs : P s) : P s' := by
  induction l generalizing s with
  | nil =>
    obtain rfl := Except.ok.inj h
    exact hs
  | cons i l ih =>
    obtain ⟨s1, h1, hrest⟩ := foldlM_cons_ok h
    exact ih hrest (hstep s i s1 h1 hs)

/-- The last value that is given. -/
def lastValue (value : ι → Option V) (l : List ι) : Option V := l.reverse.findSome? value

theorem lastValue_cons (value : ι → Option V) (i : ι) (l : List ι) :
    lastValue value (i :: l) = (lastValue value l).or (value i) := by
  rw [lastValue, List.reverse_cons, List.findSome?_append]
  cases hv : value i <;> simp [lastValue, hv]

theorem foldlM_last {get : σ → Option V} {value : ι → Option V}
    (hstep : ∀ s i s', step s i = .ok s' → get s' = (value i).or (get s))
    (h : l.foldlM step s = .ok s') : get s' = (lastValue value l).or (get s) := by
  induction l generalizing s with
  | nil =>
    obtain rfl := Except.ok.inj h
    rfl
  | cons i l ih =>
    obtain ⟨s1, h1, hrest⟩ := foldlM_cons_ok h
    rw [ih hrest, hstep s i s1 h1, lastValue_cons, Option.or_assoc]

theorem foldlM_gathered {get : σ → V} {value : ι → V} {add : V → V → V} {zero : V}
    (hassoc : ∀ a b c, add (add a b) c = add a (add b c)) (hzero : ∀ a, add a zero = a)
    (hstep : ∀ s i s', step s i = .ok s' → get s' = add (get s) (value i))
    (h : l.foldlM step s = .ok s') : get s' = add (get s) ((l.map value).foldr add zero) := by
  induction l generalizing s with
  | nil =>
    obtain rfl := Except.ok.inj h
    exact (hzero _).symm
  | cons i l ih =>
    obtain ⟨s1, h1, hrest⟩ := foldlM_cons_ok h
    rw [ih hrest, hstep s i s1 h1, hassoc]
    rfl

/-- Whether a setting fails does not depend on the state. -/
theorem foldlM_ok_iff {valid : ι → Prop} (hstep : ∀ s i, (∃ s', step s i = .ok s') ↔ valid i) :
    (∃ s', l.foldlM step s = .ok s') ↔ ∀ i ∈ l, valid i := by
  induction l generalizing s with
  | nil => exact ⟨fun _ i hi => absurd hi List.not_mem_nil, fun _ => ⟨s, rfl⟩⟩
  | cons i l ih =>
    rw [List.forall_mem_cons]
    constructor
    · rintro ⟨s', h⟩
      obtain ⟨s1, h1, hrest⟩ := foldlM_cons_ok h
      exact ⟨(hstep s i).mp ⟨s1, h1⟩, ih.mp ⟨s', hrest⟩⟩
    · rintro ⟨hi, hl⟩
      obtain ⟨s1, h1⟩ := (hstep s i).mpr hi
      obtain ⟨s', hrest⟩ := ih.mpr hl
      refine ⟨s', ?_⟩
      rw [List.foldlM_cons, h1]
      exact hrest

end Csup.Framework
