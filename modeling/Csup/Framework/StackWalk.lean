import Mathlib.Data.List.Basic
import Mathlib.Data.List.Nodup
import Mathlib.Data.List.Perm.Subperm
import Mathlib.Logic.Relation

/-!
# Walks with a stack

A walk pops the first node of a stack, visits it and pushes its children
(`stackWalk`). From a node of a forest (`IsForest`: no node has two parents or
occurs twice among the children of one) it visits what can be reached, each
node once, and it ends after as many steps as there are nodes.

* `mem_stackWalk`: what is visited;
* `nodup_stackWalk`: each node once;
* `exists_stackWalk`: the walk ends.
-/

namespace Csup.Framework

variable {α : Type*} {children : α → List α}

/-- The nodes in the order they are popped; `none` when the fuel runs out. -/
def stackWalk (children : α → List α) : Nat → List α → Option (List α)
  | _, [] => some []
  | 0, _ :: _ => none
  | fuel + 1, a :: stack => (stackWalk children fuel (children a ++ stack)).map (a :: ·)

/-- What can be reached from a node. -/
abbrev Reaches (children : α → List α) : α → α → Prop :=
  Relation.ReflTransGen fun a b => b ∈ children a

theorem stackWalk_cons {fuel : Nat} {a : α} {stack out : List α}
    (h : stackWalk children fuel (a :: stack) = some out) :
    ∃ fuel' out', fuel = fuel' + 1 ∧ out = a :: out' ∧
      stackWalk children fuel' (children a ++ stack) = some out' := by
  cases fuel with
  | zero => cases h
  | succ fuel =>
    simp only [stackWalk, Option.map_eq_some_iff] at h
    obtain ⟨out', hout, rfl⟩ := h
    exact ⟨fuel, out', rfl, rfl, hout⟩

/-- The walk visits what can be reached from the stack. -/
theorem mem_stackWalk {fuel : Nat} {stack out : List α}
    (h : stackWalk children fuel stack = some out) {x : α} :
    x ∈ out ↔ ∃ a ∈ stack, Reaches children a x := by
  induction fuel generalizing stack out with
  | zero =>
    cases stack with
    | nil => obtain rfl := Option.some.inj h; simp
    | cons a stack => cases h
  | succ fuel ih =>
    cases stack with
    | nil => obtain rfl := Option.some.inj h; simp
    | cons a stack =>
      obtain ⟨fuel', out', hf, rfl, hw⟩ := stackWalk_cons h
      obtain rfl : fuel' = fuel := by omega
      rw [List.mem_cons, ih hw]
      constructor
      · rintro (rfl | ⟨b, hb, hbx⟩)
        · exact ⟨x, by simp, .refl⟩
        · rcases List.mem_append.mp hb with hb | hb
          · exact ⟨a, by simp, .head hb hbx⟩
          · exact ⟨b, by simp [hb], hbx⟩
      · rintro ⟨b, hb, hbx⟩
        rcases List.mem_cons.mp hb with rfl | hb
        · rcases hbx.cases_head with rfl | ⟨c, hc, hcx⟩
          · exact .inl rfl
          · exact .inr ⟨c, List.mem_append_left _ hc, hcx⟩
        · exact .inr ⟨b, List.mem_append_right _ hb, hbx⟩

/-- A node was on the stack, or it is a child of one visited before it. -/
theorem parent_stackWalk {fuel : Nat} {stack s t : List α} {a : α}
    (h : stackWalk children fuel stack = some (s ++ a :: t)) :
    a ∈ stack ∨ ∃ b ∈ s, a ∈ children b := by
  induction s generalizing fuel stack with
  | nil =>
    cases stack with
    | nil => cases fuel <;> cases h
    | cons b stack =>
      obtain ⟨fuel', out', -, heq, hw⟩ := stackWalk_cons h
      obtain ⟨rfl, -⟩ := List.cons.inj heq
      exact .inl List.mem_cons_self
  | cons x s ih =>
    cases stack with
    | nil => cases fuel <;> cases h
    | cons b stack =>
      obtain ⟨fuel', out', -, heq, hw⟩ := stackWalk_cons h
      obtain ⟨rfl, rfl⟩ := List.cons.inj heq
      rcases ih hw with hmem | ⟨c, hc, hac⟩
      · rcases List.mem_append.mp hmem with hmem | hmem
        · exact .inr ⟨x, List.mem_cons_self, hmem⟩
        · exact .inl (.tail _ hmem)
      · exact .inr ⟨c, .tail _ hc, hac⟩

/-- A walk over nodes with more data is one over the nodes. -/
theorem stackWalk_map {β : Type*} {children' : β → List β} {f : β → α}
    (hf : ∀ b, (children' b).map f = children (f b)) (fuel : Nat) (stack : List β) :
    stackWalk children fuel (stack.map f) = (stackWalk children' fuel stack).map (List.map f) := by
  induction fuel generalizing stack with
  | zero => cases stack <;> rfl
  | succ fuel ih =>
    cases stack with
    | nil => rfl
    | cons b stack =>
      simp only [List.map_cons, stackWalk, ← hf, ← List.map_append, ih, Option.map_map]
      rfl

/-- A walk over nodes that satisfy `P`, seen through `f`. -/
theorem stackWalk_map_of {β : Type*} {children' : β → List β} {f : β → α} {P : β → Prop}
    (hP : ∀ b, P b → ∀ c ∈ children' b, P c) (hf : ∀ b, P b → (children' b).map f = children (f b))
    (fuel : Nat) {stack : List β} (hs : ∀ b ∈ stack, P b) :
    stackWalk children fuel (stack.map f) = (stackWalk children' fuel stack).map (List.map f) := by
  induction fuel generalizing stack with
  | zero => cases stack <;> rfl
  | succ fuel ih =>
    cases stack with
    | nil => rfl
    | cons b stack =>
      have hb := hs b List.mem_cons_self
      have hs' : ∀ c ∈ children' b ++ stack, P c := fun c hc =>
        (List.mem_append.mp hc).elim (hP b hb c) fun hc => hs c (.tail _ hc)
      simp only [List.map_cons, stackWalk, ← hf b hb, ← List.map_append, ih hs', Option.map_map]
      rfl

/-- The fuel does not matter. -/
theorem stackWalk_unique {fuel fuel' : Nat} {stack out out' : List α}
    (h : stackWalk children fuel stack = some out)
    (h' : stackWalk children fuel' stack = some out') : out = out' := by
  induction fuel generalizing fuel' stack out out' with
  | zero =>
    cases stack with
    | nil => cases fuel' <;> exact Option.some.inj (h.symm.trans h')
    | cons a stack => cases h
  | succ fuel ih =>
    cases stack with
    | nil => cases fuel' <;> exact Option.some.inj (h.symm.trans h')
    | cons a stack =>
      obtain ⟨f, o, hf, rfl, hw⟩ := stackWalk_cons h
      obtain ⟨f', o', -, rfl, hw'⟩ := stackWalk_cons h'
      obtain rfl := Nat.succ.inj hf
      rw [ih hw hw']

/-- On the nodes satisfying `P`, the children make a forest with the root
`root`. -/
structure IsForest (children : α → List α) (P : α → Prop) (root : α) : Prop where
  root_mem : P root
  closed : ∀ a, P a → ∀ b ∈ children a, P b
  nodup : ∀ a, P a → (children a).Nodup
  unique : ∀ a b, P a → P b → ∀ c, c ∈ children a → c ∈ children b → a = b
  root_notMem : ∀ a, P a → root ∉ children a

/-- What holds when the nodes `done` have been visited: no node occurs twice, and
one that is not the root is the child of a visited one. -/
structure WalkInv (children : α → List α) (P : α → Prop) (root : α) (done stack : List α) :
    Prop where
  nodup : (done ++ stack).Nodup
  mem : ∀ x ∈ done ++ stack, P x
  parent : ∀ x ∈ done ++ stack, x = root ∨ ∃ a ∈ done, x ∈ children a

variable {P : α → Prop} {root : α}

theorem WalkInv.start (hf : IsForest children P root) : WalkInv children P root [] [root] :=
  ⟨by simp, fun x hx => by rw [List.mem_singleton.mp hx]; exact hf.root_mem,
    fun x hx => .inl (List.mem_singleton.mp hx)⟩

/-- One step of the walk. -/
theorem WalkInv.step (hf : IsForest children P root) {done stack : List α} {a : α}
    (h : WalkInv children P root done (a :: stack)) :
    WalkInv children P root (done ++ [a]) (children a ++ stack) := by
  obtain ⟨hnodup, hmem, hpar⟩ := h
  have ha : P a := hmem a (by simp)
  have hnew : ∀ c ∈ children a, c ∉ done ++ a :: stack := by
    intro c hc hold
    rcases hpar c hold with rfl | ⟨b, hb, hcb⟩
    · exact hf.root_notMem a ha hc
    · -- the parent of `c` has been visited and is not `a`
      obtain rfl := hf.unique a b ha (hmem b (by simp [hb])) c hc hcb
      exact (List.nodup_append.mp hnodup).2.2 a hb a (by simp) rfl
  have hperm : (done ++ [a] ++ (children a ++ stack)).Perm (children a ++ (done ++ a :: stack)) := by
    rw [← List.append_assoc, List.append_cons done a stack, ← List.append_assoc]
    exact List.perm_append_comm.append_right stack
  refine ⟨hperm.nodup_iff.mpr ?_, fun x hx => ?_, fun x hx => ?_⟩
  · exact List.nodup_append.mpr ⟨hf.nodup a ha, hnodup, fun c hc d hd hcd => hnew c hc (hcd ▸ hd)⟩
  · rcases List.mem_append.mp (hperm.mem_iff.mp hx) with hx | hx
    · exact hf.closed a ha x hx
    · exact hmem x hx
  · rcases List.mem_append.mp (hperm.mem_iff.mp hx) with hx | hx
    · exact .inr ⟨a, by simp, hx⟩
    · rcases hpar x hx with rfl | ⟨b, hb, hxb⟩
      · exact .inl rfl
      · exact .inr ⟨b, by simp [hb], hxb⟩

theorem WalkInv.stackWalk (hf : IsForest children P root) {fuel : Nat} {done stack out : List α}
    (h : WalkInv children P root done stack) (hw : stackWalk children fuel stack = some out) :
    WalkInv children P root (done ++ out) [] := by
  induction fuel generalizing done stack out with
  | zero =>
    cases stack with
    | nil => obtain rfl := Option.some.inj hw; simpa using h
    | cons a stack => cases hw
  | succ fuel ih =>
    cases stack with
    | nil => obtain rfl := Option.some.inj hw; simpa using h
    | cons a stack =>
      obtain ⟨fuel', out', hfuel, rfl, hw'⟩ := stackWalk_cons hw
      obtain rfl : fuel' = fuel := by omega
      simpa using ih (h.step hf) hw'

/-- The walk visits no node twice. -/
theorem nodup_stackWalk (hf : IsForest children P root) {fuel : Nat} {out : List α}
    (hw : stackWalk children fuel [root] = some out) : out.Nodup := by
  have := ((WalkInv.start hf).stackWalk hf hw).nodup
  simpa using this

/-- With fuel for the nodes not yet visited, the walk ends. -/
theorem WalkInv.exists_stackWalk (hf : IsForest children P root) {nodes : List α}
    (hn : ∀ x, P x → x ∈ nodes) {fuel : Nat} {done stack : List α}
    (h : WalkInv children P root done stack) (hfuel : nodes.length ≤ done.length + fuel) :
    ∃ out, Framework.stackWalk children fuel stack = some out := by
  induction fuel generalizing done stack with
  | zero =>
    cases stack with
    | nil => exact ⟨[], rfl⟩
    | cons a stack =>
      have := (List.subperm_of_subset h.nodup fun x hx => hn x (h.mem x hx)).length_le
      simp only [List.length_append, List.length_cons] at this
      omega
  | succ fuel ih =>
    cases stack with
    | nil => exact ⟨[], rfl⟩
    | cons a stack =>
      obtain ⟨out, hout⟩ := ih (h.step hf) (by simp only [List.length_append, List.length_cons]; omega)
      exact ⟨a :: out, by simp [Framework.stackWalk, hout]⟩

theorem exists_stackWalk (hf : IsForest children P root) {nodes : List α}
    (hn : ∀ x, P x → x ∈ nodes) {fuel : Nat} (hfuel : nodes.length ≤ fuel) :
    ∃ out, stackWalk children fuel [root] = some out :=
  (WalkInv.start hf).exists_stackWalk hf hn (by simpa using hfuel)

end Csup.Framework
