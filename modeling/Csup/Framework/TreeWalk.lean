import Mathlib.Data.List.Infix

/-!
# Walks in a tree

A node of a tree is the list of the labels on the way to it from the root. A
walk goes down to a child of the node it is at or up to its parent, and each
move names the node that is entered or left. `moves d t` is the shortest walk
from `d` to `t`.

* `walk_moves`: it ends at `t`;
* `up_notMem_moves`: it leaves no node that is above both.
-/

namespace Csup.Framework

variable {α : Type*}

/-! ## The deepest common ancestor -/

section Common

variable [DecidableEq α]

def common : List α → List α → List α
  | a :: p, b :: t => if a = b then a :: common p t else []
  | _, _ => []

theorem common_prefix_left (p t : List α) : common p t <+: p := by
  fun_induction common p t with
  | case1 p a t ih => exact (List.prefix_cons_inj a).mpr ih
  | case2 => exact List.nil_prefix
  | case3 => exact List.nil_prefix

theorem common_prefix_right (p t : List α) : common p t <+: t := by
  fun_induction common p t with
  | case1 p a t ih => exact (List.prefix_cons_inj a).mpr ih
  | case2 => exact List.nil_prefix
  | case3 => exact List.nil_prefix

theorem prefix_common {q p t : List α} (hp : q <+: p) (ht : q <+: t) : q <+: common p t := by
  induction q generalizing p t with
  | nil => exact List.nil_prefix
  | cons a q ih =>
    obtain ⟨p', rfl⟩ := hp
    obtain ⟨t', rfl⟩ := ht
    simp only [List.cons_append, common, if_true]
    exact (List.prefix_cons_inj a).mpr (ih (List.prefix_append q p') (List.prefix_append q t'))

end Common

/-! ## Walks -/

inductive Move (α : Type*)
  | down (node : List α)
  | up (node : List α)

/-- The walks from a node to a node. -/
inductive Walk : List α → List (Move α) → List α → Prop
  | nil (d : List α) : Walk d [] d
  | down {d : List α} {a : α} {ms : List (Move α)} {e : List α} (h : Walk (d ++ [a]) ms e) :
    Walk d (.down (d ++ [a]) :: ms) e
  | up {d : List α} {a : α} {ms : List (Move α)} {e : List α} (h : Walk d ms e) :
    Walk (d ++ [a]) (.up (d ++ [a]) :: ms) e

theorem Walk.append {d m e : List α} {ms ms' : List (Move α)} (h : Walk d ms m)
    (h' : Walk m ms' e) : Walk d (ms ++ ms') e := by
  induction h with
  | nil => exact h'
  | down _ ih => exact .down (ih h')
  | up _ ih => exact .up (ih h')

/-- Up from a node, by as many nodes as there are labels; the last label first. -/
def ups (d : List α) : List α → List (Move α)
  | [] => []
  | a :: s => .up (d ++ (a :: s).reverse) :: ups d s

def downs (d : List α) : List α → List (Move α)
  | [] => []
  | a :: s => .down (d ++ [a]) :: downs (d ++ [a]) s

theorem walk_ups (d s : List α) : Walk (d ++ s.reverse) (ups d s) d := by
  induction s with
  | nil => simpa [ups] using Walk.nil d
  | cons a s ih =>
    rw [ups, List.reverse_cons, ← List.append_assoc]
    exact .up ih

theorem walk_downs (d s : List α) : Walk d (downs d s) (d ++ s) := by
  induction s generalizing d with
  | nil => simpa [downs] using Walk.nil d
  | cons a s ih =>
    have h := ih (d ++ [a])
    rw [List.append_assoc, List.singleton_append] at h
    exact .down h

theorem up_mem_ups {d s u : List α} (h : Move.up u ∈ ups d s) : d <+: u ∧ u ≠ d := by
  induction s with
  | nil => simp [ups] at h
  | cons a s ih =>
    rw [ups, List.mem_cons] at h
    rcases h with h | h
    · obtain rfl := Move.up.inj h
      refine ⟨List.prefix_append _ _, ?_⟩
      intro he
      have := congrArg List.length he
      simp at this
    · exact ih h

theorem up_notMem_downs (d s u : List α) : Move.up u ∉ downs d s := by
  induction s generalizing d with
  | nil => simp [downs]
  | cons a s ih =>
    rw [downs, List.mem_cons, not_or]
    exact ⟨by simp, ih (d ++ [a])⟩

/-! ## From a node to a node -/

variable [DecidableEq α]

def moves (d t : List α) : List (Move α) :=
  ups (common d t) (d.drop (common d t).length).reverse ++
    downs (common d t) (t.drop (common d t).length)

theorem common_append_drop_left (d t : List α) :
    common d t ++ d.drop (common d t).length = d := by
  obtain ⟨s, hs⟩ := common_prefix_left d t
  calc common d t ++ d.drop (common d t).length
      = common d t ++ (common d t ++ s).drop (common d t).length := by rw [hs]
    _ = d := by rw [List.drop_left, hs]

theorem common_append_drop_right (d t : List α) :
    common d t ++ t.drop (common d t).length = t := by
  obtain ⟨s, hs⟩ := common_prefix_right d t
  calc common d t ++ t.drop (common d t).length
      = common d t ++ (common d t ++ s).drop (common d t).length := by rw [hs]
    _ = t := by rw [List.drop_left, hs]

theorem walk_moves (d t : List α) : Walk d (moves d t) t := by
  have hup := walk_ups (common d t) (d.drop (common d t).length).reverse
  have hdown := walk_downs (common d t) (t.drop (common d t).length)
  rw [List.reverse_reverse, common_append_drop_left] at hup
  rw [common_append_drop_right] at hdown
  exact hup.append hdown

/-- The nodes above both ends are not left. -/
theorem up_notMem_moves {d t u : List α} (hd : u <+: d) (ht : u <+: t) :
    Move.up u ∉ moves d t := by
  intro h
  rw [moves, List.mem_append] at h
  rcases h with h | h
  · obtain ⟨hu, hne⟩ := up_mem_ups h
    exact hne ((prefix_common hd ht).eq_of_length_le hu.length_le)
  · exact up_notMem_downs _ _ _ h

/-! ## Neighbours -/

theorem common_append (d s : List α) : common d (d ++ s) = d := by
  induction d with
  | nil => simp [common]
  | cons a d ih => simp [common, ih]

theorem common_append_left (d s : List α) : common (d ++ s) d = d := by
  induction d with
  | nil => rcases s with - | ⟨a, s⟩ <;> simp [common]
  | cons a d ih => simp [common, ih]

theorem moves_below (d s : List α) : moves d (d ++ s) = downs d s := by
  rw [moves, common_append, List.drop_length, List.drop_left]
  rfl

theorem moves_above (d s : List α) : moves (d ++ s) d = ups d s.reverse := by
  rw [moves, common_append_left, List.drop_length, List.drop_left]
  exact List.append_nil _

theorem moves_self (d : List α) : moves d d = [] := by
  have := moves_below d []
  rwa [List.append_nil] at this

theorem moves_child (d : List α) (a : α) : moves d (d ++ [a]) = [.down (d ++ [a])] :=
  moves_below d [a]

theorem moves_parent (d : List α) (a : α) : moves (d ++ [a]) d = [.up (d ++ [a])] :=
  moves_above d [a]

end Csup.Framework
