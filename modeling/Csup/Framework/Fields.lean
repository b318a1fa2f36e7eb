import Mathlib.Data.List.Basic

/-!
# Fields between separators, replaced

A list is scanned for fields, the symbols between two separators `d` that
follow each other. A field that a function `f` knows is replaced together with
its two separators, and the scan goes on behind it; at another field it goes on
with the separator behind the field, which may be the first of the next one.

* `substFields`: the list with its fields replaced; `tried`: the fields the scan
  comes to;
* `substFields_substFields`: where the fields put in are known again, replaced
  alike, a second replacement undoes the first.
-/

namespace Csup.Framework

variable {α : Type*} [DecidableEq α]

/-- The symbols in front of the first separator and those behind it. -/
def cut (d : α) : List α → Option (List α × List α)
  | [] => none
  | a :: as => if a = d then some ([], as) else (cut d as).map fun r => (a :: r.1, r.2)

theorem cut_eq_some {d : α} {as w r : List α} :
    cut d as = some (w, r) ↔ as = w ++ d :: r ∧ d ∉ w := by
  induction as generalizing w with
  | nil => simp [cut]
  | cons a as ih =>
    rw [cut]
    by_cases ha : a = d
    · subst ha
      rw [if_pos rfl]
      constructor
      · rintro h
        cases h
        simp
      · rintro ⟨h, hw⟩
        cases w with
        | nil => cases h; rfl
        | cons b w =>
          cases h
          simp at hw
    · rw [if_neg ha]
      simp only [Option.map_eq_some_iff, Prod.exists, Prod.mk.injEq]
      constructor
      · rintro ⟨w', r', h, rfl, rfl⟩
        obtain ⟨rfl, hw⟩ := ih.mp h
        exact ⟨rfl, by simpa using ⟨fun h => ha h.symm, hw⟩⟩
      · rintro ⟨h, hw⟩
        cases w with
        | nil =>
          cases h
          exact absurd rfl ha
        | cons b w =>
          cases h
          exact ⟨w, r, ih.mpr ⟨rfl, by simp_all⟩, rfl, rfl⟩

@[simp] theorem cut_append {d : α} {w : List α} (hw : d ∉ w) (r : List α) :
    cut d (w ++ d :: r) = some (w, r) := cut_eq_some.mpr ⟨rfl, hw⟩

theorem cut_eq_none {d : α} {as : List α} : cut d as = none ↔ d ∉ as := by
  induction as with
  | nil => simp [cut]
  | cons a as ih =>
    rw [cut]
    by_cases ha : a = d
    · simp [ha]
    · simp [ha, ih, Ne.symm ha]

theorem length_of_cut {d : α} {as w r : List α} (h : cut d as = some (w, r)) :
    r.length < as.length := by
  rw [(cut_eq_some.mp h).1]
  simp only [List.length_append, List.length_cons]
  omega

theorem idxOf?_eq_cut (d : α) (as : List α) : as.idxOf? d = (cut d as).map fun p => p.1.length := by
  induction as with
  | nil => rfl
  | cons a as ih =>
    rw [List.idxOf?_cons, cut, ih]
    by_cases ha : a = d
    · simp [ha]
    · cases cut d as <;> simp [ha]

/-- A list with its fields replaced. -/
def substFields (d : α) (f : List α → Option (List α)) (as : List α) : List α :=
  match _h : cut d as with
  | none => as
  | some (w, r) => match _h' : cut d r with
    | none => as
    | some (field, rest) => match f field with
      | none => w ++ d :: substFields d f r
      | some new => w ++ new ++ substFields d f rest
  termination_by as.length
  decreasing_by
    · exact length_of_cut _h
    · exact Nat.lt_trans (length_of_cut _h') (length_of_cut _h)

section

variable {d : α} {f g : List α → Option (List α)} {w field rest : List α}

theorem substFields_notMem (hw : d ∉ w) : substFields d f w = w := by
  rw [substFields]
  split
  · rfl
  · rename_i h
    rw [cut_eq_none.mpr hw] at h
    cases h

theorem substFields_single (hw : d ∉ w) (hr : d ∉ rest) :
    substFields d f (w ++ d :: rest) = w ++ d :: rest := by
  rw [substFields]
  split
  · rfl
  · rename_i h
    rw [cut_append hw] at h
    cases h
    split
    · rfl
    · rename_i h
      rw [cut_eq_none.mpr hr] at h
      cases h

theorem substFields_field (rest : List α) (hw : d ∉ w) (hf : d ∉ field) :
    substFields d f (w ++ d :: (field ++ d :: rest)) =
      match f field with
      | none => w ++ d :: substFields d f (field ++ d :: rest)
      | some new => w ++ new ++ substFields d f rest := by
  rw [substFields]
  split
  · rename_i h
    rw [cut_append hw] at h
    cases h
  · rename_i h
    rw [cut_append hw] at h
    cases h
    split
    · rename_i h
      rw [cut_append hf] at h
      cases h
    · rename_i h
      rw [cut_append hf] at h
      cases h
      rfl

theorem substFields_none (hw : d ∉ w) (hf : d ∉ field) (h : f field = none) :
    substFields d f (w ++ d :: (field ++ d :: rest)) =
      w ++ d :: substFields d f (field ++ d :: rest) := by
  rw [substFields_field _ hw hf, h]

theorem substFields_some (hw : d ∉ w) (hf : d ∉ field) {new : List α} (h : f field = some new) :
    substFields d f (w ++ d :: (field ++ d :: rest)) = w ++ new ++ substFields d f rest := by
  rw [substFields_field _ hw hf, h]

/-- What lies in front of the first separator stays. -/
theorem substFields_append (hw : d ∉ w) (rest : List α) :
    substFields d f (w ++ d :: rest) = w ++ substFields d f (d :: rest) := by
  have hnil : d ∉ ([] : List α) := List.not_mem_nil
  cases h : cut d rest with
  | none =>
    have hr := cut_eq_none.mp h
    have := substFields_single (f := f) hnil hr
    simp only [List.nil_append] at this
    rw [substFields_single hw hr, this]
  | some p =>
    obtain ⟨field, r⟩ := p
    obtain ⟨rfl, hf⟩ := cut_eq_some.mp h
    have := substFields_field (f := f) r hnil hf
    simp only [List.nil_append] at this
    rw [substFields_field _ hw hf, this]
    cases f field <;> simp

/-- Every list has fewer than two separators, or begins with a field. -/
theorem fields_cases (d : α) (as : List α) :
    (d ∉ as ∨ ∃ w r, d ∉ w ∧ d ∉ r ∧ as = w ++ d :: r) ∨
      ∃ w field rest, d ∉ w ∧ d ∉ field ∧ as = w ++ d :: (field ++ d :: rest) := by
  cases h : cut d as with
  | none => exact .inl (.inl (cut_eq_none.mp h))
  | some p =>
    obtain ⟨w, r⟩ := p
    obtain ⟨rfl, hw⟩ := cut_eq_some.mp h
    cases h' : cut d r with
    | none => exact .inl (.inr ⟨w, r, hw, cut_eq_none.mp h', rfl⟩)
    | some p =>
      obtain ⟨field, rest⟩ := p
      obtain ⟨rfl, hf⟩ := cut_eq_some.mp h'
      exact .inr ⟨w, field, rest, hw, hf, rfl⟩

/-- What a field is replaced by is a field. -/
def PutsFields (d : α) (f : List α → Option (List α)) : Prop :=
  ∀ field new, d ∉ field → f field = some new → ∃ field', d ∉ field' ∧ new = d :: (field' ++ [d])

/-- What a first separator and what follows become begins with a separator. -/
theorem substFields_cons (hf : PutsFields d f) (rest : List α) :
    ∃ r, substFields d f (d :: rest) = d :: r := by
  have hnil : d ∉ ([] : List α) := List.not_mem_nil
  cases h : cut d rest with
  | none => exact ⟨rest, substFields_single (w := []) hnil (cut_eq_none.mp h)⟩
  | some p =>
    obtain ⟨field, r⟩ := p
    obtain ⟨rfl, hfield⟩ := cut_eq_some.mp h
    have heq := substFields_field (f := f) r hnil hfield
    simp only [List.nil_append] at heq
    rw [heq]
    cases h' : f field with
    | none => exact ⟨_, rfl⟩
    | some new =>
      obtain ⟨field', -, rfl⟩ := hf field new hfield h'
      exact ⟨_, rfl⟩

/-- Replacing by `g` behind `f` is replacing by `g`, where `g` knows the fields
that `f` knows, and sees no difference in those that `f` puts in. -/
theorem substFields_substFields (hf : PutsFields d f)
    (hnone : ∀ field, f field = none → g field = none)
    (hsome : ∀ field field', d ∉ field → f field = some (d :: (field' ++ [d])) →
      g field' = g field ∧ (g field).isSome)
    (as : List α) : substFields d g (substFields d f as) = substFields d g as := by
  induction hn : as.length using Nat.strongRecOn generalizing as with
  | _ n ih =>
    rcases fields_cases d as with (h | ⟨w, r, hw, hr, rfl⟩) | ⟨w, field, rest, hw, hfield, rfl⟩
    · rw [substFields_notMem (f := f) h]
    · rw [substFields_single (f := f) hw hr]
    · simp only [List.length_append, List.length_cons] at hn
      cases h : f field with
      | none =>
        -- the separator behind the field comes first in the rest, before and after
        rw [substFields_none hw hfield h, substFields_none hw hfield (hnone field h)]
        obtain ⟨r, hr⟩ := substFields_cons hf rest
        rw [← ih (field.length + (rest.length + 1)) (by omega) (field ++ d :: rest)
          (by simp), substFields_append hfield, hr, substFields_none hw hfield (hnone field h)]
      | some new =>
        obtain ⟨field', hfield', rfl⟩ := hf field new hfield h
        obtain ⟨heq, hg⟩ := hsome field field' hfield h
        obtain ⟨new', hnew⟩ := Option.isSome_iff_exists.mp hg
        rw [substFields_some hw hfield h, substFields_some hw hfield hnew,
          ← ih rest.length (by omega) rest rfl]
        rw [show w ++ d :: (field' ++ [d]) ++ substFields d f rest =
            w ++ d :: (field' ++ d :: substFields d f rest) by simp,
          substFields_some hw hfield' (heq.trans hnew)]

/-- A symbol that is no separator stays at the end. -/
theorem substFields_concat {x : α} (hx : x ≠ d) (as : List α) :
    substFields d f (as ++ [x]) = substFields d f as ++ [x] := by
  have hd : d ∉ [x] := by simpa using hx.symm
  induction hn : as.length using Nat.strongRecOn generalizing as with
  | _ n ih =>
    rcases fields_cases d as with (h | ⟨w, r, hw, hr, rfl⟩) | ⟨w, field, rest, hw, hf, rfl⟩
    · rw [substFields_notMem h, substFields_notMem (by simp [h, hx.symm])]
    · rw [substFields_single hw hr, List.append_assoc, List.cons_append,
        substFields_single hw (by simp [hr, hx.symm])]
    · simp only [List.length_append, List.length_cons] at hn
      have hsplit : w ++ d :: (field ++ d :: rest) ++ [x] =
          w ++ d :: (field ++ d :: (rest ++ [x])) := by simp
      rw [hsplit]
      cases h : f field with
      | none =>
        have := ih (field.length + (rest.length + 1)) (by omega) (field ++ d :: rest) (by simp)
        rw [substFields_none hw hf h, substFields_none hw hf h]
        simpa using this
      | some new =>
        have := ih rest.length (by omega) rest rfl
        rw [substFields_some hw hf h, substFields_some hw hf h, this]
        simp

/-- A symbol that the replacement does not put in does not come in. -/
theorem notMem_substFields {x : α}
    (hf : ∀ field new, x ∉ field → f field = some new → x ∉ new) {as : List α} (hx : x ∉ as) :
    x ∉ substFields d f as := by
  induction hn : as.length using Nat.strongRecOn generalizing as with
  | _ n ih =>
    rcases fields_cases d as with (h | ⟨w, r, hw, hr, rfl⟩) | ⟨w, field, rest, hw, hfield, rfl⟩
    · rwa [substFields_notMem h]
    · rwa [substFields_single hw hr]
    · simp only [List.length_append, List.length_cons] at hn
      simp only [List.mem_append, List.mem_cons, not_or] at hx
      obtain ⟨hxw, hxd, hxf, -, hxr⟩ := hx
      cases h : f field with
      | none =>
        have : x ∉ substFields d f (field ++ d :: rest) :=
          ih (field.length + (rest.length + 1)) (by omega) (by simp [hxf, hxd, hxr]) (by simp)
        rw [substFields_none hw hfield h]
        simp [hxw, hxd, this]
      | some new =>
        have := ih rest.length (by omega) hxr rfl
        rw [substFields_some hw hfield h]
        simp [hxw, hf field new hxf h, this]

theorem substFields_ne_nil (hf : PutsFields d f) {as : List α} (h : as ≠ []) :
    substFields d f as ≠ [] := by
  cases hc : cut d as with
  | none => rwa [substFields_notMem (cut_eq_none.mp hc)]
  | some p =>
    obtain ⟨w, r⟩ := p
    obtain ⟨rfl, hw⟩ := cut_eq_some.mp hc
    obtain ⟨r', hr⟩ := substFields_cons hf r
    rw [substFields_append hw, hr]
    simp

/-! ## The fields the scan comes to -/

def tried (d : α) (f : List α → Option (List α)) (as : List α) : List (List α) :=
  match _h : cut d as with
  | none => []
  | some (_, r) => match _h' : cut d r with
    | none => []
    | some (field, rest) => field :: match f field with
      | none => tried d f r
      | some _ => tried d f rest
  termination_by as.length
  decreasing_by
    · exact length_of_cut _h
    · exact Nat.lt_trans (length_of_cut _h') (length_of_cut _h)

theorem tried_eq_nil (h : d ∉ w ∨ ∃ v r, d ∉ v ∧ d ∉ r ∧ w = v ++ d :: r) :
    tried d f w = [] := by
  rw [tried]
  rcases h with h | ⟨v, r, hv, hr, rfl⟩
  · split
    · rfl
    · rename_i hc
      rw [cut_eq_none.mpr h] at hc
      cases hc
  · split
    · rfl
    · rename_i hc
      rw [cut_append hv] at hc
      cases hc
      split
      · rfl
      · rename_i hc
        rw [cut_eq_none.mpr hr] at hc
        cases hc

theorem tried_field (rest : List α) (hw : d ∉ w) (hf : d ∉ field) :
    tried d f (w ++ d :: (field ++ d :: rest)) = field ::
      match f field with
      | none => tried d f (field ++ d :: rest)
      | some _ => tried d f rest := by
  rw [tried]
  split
  · rename_i h
    rw [cut_append hw] at h
    cases h
  · rename_i h
    rw [cut_append hw] at h
    cases h
    split
    · rename_i h
      rw [cut_append hf] at h
      cases h
    · rename_i h
      rw [cut_append hf] at h
      cases h
      rfl

theorem tried_append (hw : d ∉ w) (rest : List α) :
    tried d f (w ++ d :: rest) = tried d f (d :: rest) := by
  have hnil : d ∉ ([] : List α) := List.not_mem_nil
  cases h : cut d rest with
  | none =>
    have hr := cut_eq_none.mp h
    have hrest : tried d f (d :: rest) = [] := tried_eq_nil (.inr ⟨[], rest, hnil, hr, rfl⟩)
    rw [tried_eq_nil (.inr ⟨w, rest, hw, hr, rfl⟩), hrest]
  | some p =>
    obtain ⟨field, r⟩ := p
    obtain ⟨rfl, hf⟩ := cut_eq_some.mp h
    have := tried_field (f := f) r hnil hf
    simp only [List.nil_append] at this
    rw [tried_field r hw hf, this]

theorem tried_subset {as field : List α} (h : field ∈ tried d f as) : field ⊆ as := by
  induction hn : as.length using Nat.strongRecOn generalizing as with
  | _ n ih =>
    rw [tried] at h
    split at h
    · cases h
    · rename_i w r hc
      obtain ⟨rfl, -⟩ := cut_eq_some.mp hc
      simp only [List.length_append, List.length_cons] at hn
      split at h
      · cases h
      · rename_i g rest hc'
        obtain ⟨rfl, -⟩ := cut_eq_some.mp hc'
        simp only [List.length_append, List.length_cons] at hn
        rcases List.mem_cons.mp h with rfl | h
        · exact fun b hb => by simp [hb]
        · split at h
          · have hlen : (g ++ d :: rest).length < n := by
              rw [List.length_append, List.length_cons]
              omega
            have hsub := ih _ hlen h rfl
            exact fun b hb => List.mem_append_right _ (.tail _ (hsub hb))
          · have hsub := ih _ (by omega) h rfl
            exact fun b hb => by simp [hsub hb]

/-- Only the fields the scan comes to matter. -/
theorem substFields_congr {as : List α} (h : ∀ field ∈ tried d f as, g field = f field) :
    substFields d g as = substFields d f as := by
  induction hn : as.length using Nat.strongRecOn generalizing as with
  | _ n ih =>
    rcases fields_cases d as with (h' | ⟨w, r, hw, hr, rfl⟩) | ⟨w, field, rest, hw, hf, rfl⟩
    · rw [substFields_notMem h', substFields_notMem h']
    · rw [substFields_single hw hr, substFields_single hw hr]
    · simp only [List.length_append, List.length_cons] at hn
      rw [tried_field rest hw hf, List.forall_mem_cons] at h
      obtain ⟨hfield, hrest⟩ := h
      cases hc : f field with
      | none =>
        rw [hc] at hrest
        rw [substFields_none hw hf hc, substFields_none hw hf (hfield.trans hc),
          ih (field.length + (rest.length + 1)) (by omega) hrest (by simp)]
      | some new =>
        rw [hc] at hrest
        rw [substFields_some hw hf hc, substFields_some hw hf (hfield.trans hc),
          ih rest.length (by omega) hrest rfl]

end

end Csup.Framework
