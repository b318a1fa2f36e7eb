import Mathlib.Data.List.Basic
import Mathlib.Data.List.Nodup
import Mathlib.Data.List.Perm.Subperm
import Mathlib.Logic.Function.Iterate

/-!
# Heaps of cells, and machines that run on them

A heap maps locations to cells; the location that is allocated next and those
behind it are not in use. `Keeps ls` relates heaps that differ in the cells `ls`
only. `Reach` is the run of a machine with a step function, for some number of
steps.
-/

namespace Csup.Framework

abbrev Loc := Nat

structure Heap (α : Type*) where
  cell : Loc → Option α
  next : Nat
  fresh : ∀ l, next ≤ l → cell l = none

namespace Heap

variable {α : Type*}

def empty : Heap α := ⟨fun _ => none, 0, fun _ _ => rfl⟩

/-- `malloc` of a cell, and what is put into it. -/
def alloc (h : Heap α) (a : α) : Loc × Heap α :=
  (h.next, {
    cell := fun l => if l = h.next then some a else h.cell l
    next := h.next + 1
    fresh := fun l hl => by
      rw [if_neg (Nat.ne_of_gt hl)]
      exact h.fresh l (Nat.le_of_succ_le hl) })

/-- A cell in use is overwritten. -/
def set (h : Heap α) (l : Loc) (a : α) : Heap α where
  cell := fun l' => if l' = l ∧ h.cell l ≠ none then some a else h.cell l'
  next := h.next
  fresh := fun l' hl => by
    rw [if_neg]
    · exact h.fresh l' hl
    · rintro ⟨rfl, hne⟩
      exact hne (h.fresh l' hl)

/-- `free` -/
def free (h : Heap α) (l : Loc) : Heap α where
  cell := fun l' => if l' = l then none else h.cell l'
  next := h.next
  fresh := fun l' hl => by
    split
    · rfl
    · exact h.fresh l' hl

/-- The heaps differ in the cells `ls` only. -/
def Keeps (ls : List Loc) (h h' : Heap α) : Prop := ∀ l, l ∉ ls → h'.cell l = h.cell l

variable {h h' h'' : Heap α} {l l' : Loc} {a : α} {ls ls' : List Loc}

theorem Keeps.refl (h : Heap α) (ls : List Loc) : Keeps ls h h := fun _ _ => rfl

theorem Keeps.trans (h₁ : Keeps ls h h') (h₂ : Keeps ls h' h'') : Keeps ls h h'' :=
  fun l hl => (h₂ l hl).trans (h₁ l hl)

theorem Keeps.mono (hk : Keeps ls h h') (hs : ls ⊆ ls') : Keeps ls' h h' :=
  fun l hl => hk l fun hm => hl (hs hm)

@[simp] theorem cell_set_self (hl : h.cell l ≠ none) : (h.set l a).cell l = some a :=
  if_pos ⟨rfl, hl⟩

@[simp] theorem cell_set_of_ne (hl : l' ≠ l) : (h.set l a).cell l' = h.cell l' :=
  if_neg fun h => hl h.1

@[simp] theorem cell_free_self : (h.free l).cell l = none := if_pos rfl

@[simp] theorem cell_free_of_ne (hl : l' ≠ l) : (h.free l).cell l' = h.cell l' := if_neg hl

@[simp] theorem next_set : (h.set l a).next = h.next := rfl

@[simp] theorem next_free : (h.free l).next = h.next := rfl

theorem keeps_set (hl : l ∈ ls) : Keeps ls h (h.set l a) :=
  fun _ hx => cell_set_of_ne fun h => hx (h ▸ hl)

theorem keeps_free (hl : l ∈ ls) : Keeps ls h (h.free l) :=
  fun _ hx => cell_free_of_ne fun h => hx (h ▸ hl)

theorem lt_next (hl : h.cell l ≠ none) : l < h.next := by
  by_contra hge
  exact hl (h.fresh l (Nat.le_of_not_lt hge))

@[simp] theorem alloc_fst : (h.alloc a).1 = h.next := rfl

@[simp] theorem next_alloc : (h.alloc a).2.next = h.next + 1 := rfl

@[simp] theorem cell_alloc_self : (h.alloc a).2.cell h.next = some a := if_pos rfl

theorem cell_alloc_of_lt (hl : l < h.next) : (h.alloc a).2.cell l = h.cell l :=
  if_neg (Nat.ne_of_lt hl)

/-- There are no more cells in use than were ever allocated. -/
theorem length_le_next (hnodup : ls.Nodup) (hls : ∀ l ∈ ls, h.cell l ≠ none) :
    ls.length ≤ h.next := by
  have hsub : ls ⊆ List.range h.next := fun l hl => List.mem_range.mpr (lt_next (hls l hl))
  simpa using (hnodup.subperm hsub).length_le

end Heap

/-! ## Runs -/

section

variable {σ : Type*} {step : σ → σ} {s s' s'' : σ}

/-- The machine comes from one state to the other. -/
def Reach (step : σ → σ) (s s' : σ) : Prop := ∃ n, step^[n] s = s'

theorem Reach.refl (s : σ) : Reach step s s := ⟨0, rfl⟩

theorem Reach.head (h : Reach step (step s) s') : Reach step s s' := by
  obtain ⟨n, hn⟩ := h
  exact ⟨n + 1, hn⟩

theorem Reach.trans (h₁ : Reach step s s') (h₂ : Reach step s' s'') : Reach step s s'' := by
  obtain ⟨n, rfl⟩ := h₁
  obtain ⟨k, rfl⟩ := h₂
  exact ⟨k + n, Function.iterate_add_apply step k n s⟩

/-- A state in which the machine stays is what every longer run comes to. -/
theorem Reach.stay (h : Reach step s s') (hs : step s' = s') :
    ∃ n, ∀ k, n ≤ k → step^[k] s = s' := by
  obtain ⟨n, hn⟩ := h
  refine ⟨n, fun k hk => ?_⟩
  obtain ⟨i, rfl⟩ := Nat.exists_eq_add_of_le' hk
  rw [Function.iterate_add_apply, hn]
  exact Function.iterate_fixed hs i

end

end Csup.Framework
