import Mathlib.Data.List.Infix

/-!
# Parts of a path, and where they lead

A text is cut at a separator into parts; a part stays in a directory, goes up or goes
down (`Turn`). A walk from a directory never leaves it if and only if there are never
more parts that go up than parts that went down (`below_iff`), unless the directory is
the root, from where nothing goes up.
-/

namespace Csup.Framework.Resolve

/-! ## Parts -/

section Parts

variable {α : Type*} [DecidableEq α] {a : α}

/-- A part stands at the beginning or behind a separator, and in front of one or at the end. -/
theorem mem_splitOn {w u : List α} : w ∈ u.splitOn a ↔ a ∉ w ∧ ∃ x y, u = x ++ w ++ y ∧
    (x = [] ∨ x.getLast? = some a) ∧ (y = [] ∨ y.head? = some a) := by
  constructor
  · intro h
    induction hn : u.length using Nat.strong_induction_on generalizing u with
    | _ n ih =>
      by_cases ha : a ∈ u
      · obtain ⟨x, y, rfl, hx⟩ := List.eq_append_cons_of_mem ha
        rw [List.splitOn_append_cons_self_of_not_mem hx, List.mem_cons] at h
        rcases h with rfl | h
        · exact ⟨hx, [], a :: y, by simp, .inl rfl, .inr rfl⟩
        · obtain ⟨hw, x', y', rfl, hx', hy'⟩ := ih y.length (by simp [← hn]; omega) h rfl
          refine ⟨hw, x ++ a :: x', y', by simp, .inr ?_, hy'⟩
          rcases hx' with rfl | hx'
          · simp
          · rw [List.getLast?_append, List.getLast?_cons, hx']
            rfl
      · rw [List.splitOn_eq_singleton ha, List.mem_singleton] at h
        exact ⟨h ▸ ha, [], [], by simp [h], .inl rfl, .inl rfl⟩
  · rintro ⟨hw, x, y, rfl, hx, hy⟩
    have hwy : w ∈ (w ++ y).splitOn a := by
      rcases hy with rfl | hy
      · simp [List.splitOn_eq_singleton hw]
      · obtain ⟨y', rfl⟩ := List.head?_eq_some_iff.mp hy
        simp [List.splitOn_append_cons_self_of_not_mem hw]
    rcases hx with rfl | hx
    · exact hwy
    · obtain ⟨x', rfl⟩ := List.getLast?_eq_some_iff.mp hx
      rw [show x' ++ [a] ++ w ++ y = x' ++ a :: (w ++ y) by simp,
        List.splitOn_append_cons_self]
      exact List.mem_append_right _ hwy

/-- What is appended goes to the last part. -/
theorem exists_splitOn_append (x : List α) {w : List α} (hw : a ∉ w) : ∃ t,
    x.splitOn a = (x.splitOn a).dropLast ++ [t] ∧
      (x ++ w).splitOn a = (x.splitOn a).dropLast ++ [t ++ w] := by
  induction hn : x.length using Nat.strong_induction_on generalizing x with
  | _ n ih =>
    by_cases ha : a ∈ x
    · obtain ⟨x, y, rfl, hx⟩ := List.eq_append_cons_of_mem ha
      obtain ⟨t, hy, hyw⟩ := ih y.length (by simp [← hn]; omega) y rfl
      refine ⟨t, ?_, ?_⟩
      · rw [List.splitOn_append_cons_self_of_not_mem hx,
          List.dropLast_cons_of_ne_nil (List.splitOn_ne_nil a y), List.cons_append, ← hy]
      · rw [List.append_assoc, List.cons_append, List.splitOn_append_cons_self_of_not_mem hx,
          List.splitOn_append_cons_self_of_not_mem hx,
          List.dropLast_cons_of_ne_nil (List.splitOn_ne_nil a y), List.cons_append, hyw]
    · have haw : a ∉ x ++ w := by simp [ha, hw]
      exact ⟨x, by simp [List.splitOn_eq_singleton ha],
        by simp [List.splitOn_eq_singleton ha, List.splitOn_eq_singleton haw]⟩

end Parts

/-! ## Walks -/

/-- What a part of a path does. -/
inductive Turn
  | stay | up | down
  deriving DecidableEq

section Walks

variable {β : Type*} (kind : β → Turn)

/-- The directory behind a part; a directory is its names, the root's side last. -/
def enter (node : List β) (part : β) : List β :=
  match kind part with
  | .stay => node
  | .up => node.tail
  | .down => part :: node

def walk (node parts : List β) : List β := parts.foldl (enter kind) node

/-- The walk is never outside of `base`. -/
def Below (base parts : List β) : Prop := ∀ p ∈ parts.inits, base <:+ walk kind base p

def ups (parts : List β) : Nat := parts.countP (kind · = .up)

def downs (parts : List β) : Nat := parts.countP (kind · = .down)

/-- There are never more parts that go up than parts that went down. -/
def NoClimb (parts : List β) : Prop := ∀ p ∈ parts.inits, ups kind p ≤ downs kind p

instance (parts : List β) : Decidable (NoClimb kind parts) :=
  inferInstanceAs (Decidable (∀ p ∈ parts.inits, _))

variable {kind} {base parts : List β}

theorem walk_cons (node : List β) (part : β) (parts : List β) :
    walk kind node (part :: parts) = walk kind (enter kind node part) parts := rfl

theorem walk_append (node parts rest : List β) :
    walk kind node (parts ++ rest) = walk kind (walk kind node parts) rest :=
  List.foldl_append

/-- From `extra` below `base`, which is not the root. -/
theorem suffix_walk_iff (hb : base ≠ []) (parts extra : List β) :
    (∀ p ∈ parts.inits, base <:+ walk kind (extra ++ base) p) ↔
      ∀ p ∈ parts.inits, ups kind p ≤ extra.length + downs kind p := by
  induction parts generalizing extra with
  | nil => simp [walk, ups]
  | cons part parts ih =>
    have hnil : base <:+ walk kind (extra ++ base) [] := List.suffix_append ..
    simp only [List.inits_cons, List.mem_cons, List.mem_map, forall_eq_or_imp, hnil, true_and,
      forall_exists_index, and_imp, forall_apply_eq_imp_iff₂, walk_cons]
    have h0 : ups kind ([] : List β) ≤ extra.length + downs kind ([] : List β) := Nat.zero_le _
    simp only [h0, true_and]
    cases hk : kind part with
    | stay => simpa [enter, hk, ups, downs] using ih extra
    | down =>
      have := ih (part :: extra)
      simp only [enter, hk, ups, downs, List.countP_cons, List.cons_append, List.length_cons] at this ⊢
      rw [this]
      refine forall₂_congr fun p _ => ?_
      simp
      omega
    | up =>
      cases extra with
      | nil =>
        -- above `base`, at once
        have hl := (List.mem_inits [] parts).mpr List.nil_prefix
        refine iff_of_false (fun h => ?_) (fun h => ?_)
        · have hle := (h [] hl).length_le
          simp only [enter, hk, walk, List.foldl_nil, List.nil_append, List.length_tail] at hle
          have := List.length_pos_iff.mpr hb
          omega
        · have := h [] hl
          simp [ups, downs, hk] at this
      | cons e extra =>
        have := ih extra
        simp only [enter, hk, ups, downs, List.countP_cons, List.cons_append, List.tail_cons,
          List.length_cons] at this ⊢
        rw [this]
        refine forall₂_congr fun p _ => ?_
        simp
        omega

theorem below_iff : Below kind base parts ↔ base = [] ∨ NoClimb kind parts := by
  by_cases hb : base = []
  · simp [Below, hb]
  · have : _ ↔ ∀ p ∈ parts.inits, ups kind p ≤ _ := suffix_walk_iff hb parts []
    simpa [Below, NoClimb, hb] using this

/-! ## What does not climb -/

theorem noClimb_of_forall (h : ∀ p ∈ parts, kind p ≠ .up) : NoClimb kind parts := by
  intro p hp
  have : ups kind p = 0 := List.countP_eq_zero.mpr fun x hx => by
    simpa using h x (((List.mem_inits _ _).mp hp).subset hx)
  omega

/-- Behind a part that goes down, any part may be the last. -/
theorem noClimb_append_pair {x y : β} (hx : kind x = .down) :
    NoClimb kind (parts ++ [x, y]) ↔ NoClimb kind parts := by
  have hinits : (parts ++ [x, y]).inits = parts.inits ++ [parts ++ [x], parts ++ [x, y]] := by
    simp [List.inits_append]
  unfold NoClimb
  rw [hinits, List.forall_mem_append]
  refine and_iff_left_of_imp fun h => ?_
  have hall := h parts ((List.mem_inits _ _).mpr List.prefix_rfl)
  simp only [List.mem_cons, List.not_mem_nil, or_false, forall_eq_or_imp, forall_eq]
  simp only [ups, downs, List.countP_append, List.countP_cons, List.countP_nil, hx] at hall ⊢
  constructor
  · simp
    omega
  · split <;> simp <;> omega

end Walks

end Csup.Framework.Resolve
