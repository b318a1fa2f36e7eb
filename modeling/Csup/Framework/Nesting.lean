import Mathlib.Data.List.Infix

/-!
# Nesting from an order

A mark opens a node of a tree, closes it, or is for a node that has no inside. In a
nested list of marks (`Nested`) a node is opened, and a node without an inside stands,
directly below the innermost node that is open, and only that one is closed.

Where an order has the inside of a node between its marks (`Nests`), a sorted list of
marks is nested if every mark has the other one and the parent of every node is opened,
wherever these stand.

* `Nested.matched`: what a nested list has;
* `Nests.nested`: what makes a sorted list nested.
-/

namespace Csup.Framework

variable {α : Type*}

/-- A node is the list of the labels on the way to it. -/
inductive Mark (α : Type*)
  | down (node : List α)
  | leaf (node : List α)
  | up (node : List α)

def Mark.node : Mark α → List α
  | .down d | .leaf d | .up d => d

/-- The marks behind a place where the node `d` is the innermost open one. -/
inductive Nested : List α → List (Mark α) → Prop
  | nil : Nested [] []
  | down {d : List α} {a : α} {ms : List (Mark α)} (h : Nested (d ++ [a]) ms) :
    Nested d (.down (d ++ [a]) :: ms)
  | leaf {d : List α} {a : α} {ms : List (Mark α)} (h : Nested d ms) :
    Nested d (.leaf (d ++ [a]) :: ms)
  | up {d : List α} {a : α} {ms : List (Mark α)} (h : Nested d ms) :
    Nested (d ++ [a]) (.up (d ++ [a]) :: ms)

/-- Marks that have their partners and their parents, somewhere. -/
structure Matched (ms : List (Mark α)) : Prop where
  node : ∀ m ∈ ms, m.node ≠ []
  paired : ∀ d, .down d ∈ ms ↔ .up d ∈ ms
  opened : ∀ m ∈ ms, ∀ d a, d ≠ [] → m.node = d ++ [a] → .down d ∈ ms

/-! ## Nested lists -/

theorem Nested.node {d : List α} {ms : List (Mark α)} (h : Nested d ms) : ∀ m ∈ ms, m.node ≠ [] := by
  induction h with
  | nil => simp
  | down _ ih | leaf _ ih | up _ ih => exact List.forall_mem_cons.mpr ⟨by simp [Mark.node], ih⟩

/-- What is open is closed. -/
theorem Nested.up_mem {d : List α} {ms : List (Mark α)} (h : Nested d ms) :
    (∀ e ≠ [], e <+: d → .up e ∈ ms) ∧ ∀ e, .down e ∈ ms → .up e ∈ ms := by
  induction h with
  | nil => exact ⟨fun e hne he => absurd (List.prefix_nil.mp he) hne, by simp⟩
  | @down d a ms _ ih =>
    refine ⟨fun e hne he => .tail _ (ih.1 e hne (he.trans (List.prefix_append ..))), fun e he => ?_⟩
    rcases List.mem_cons.mp he with heq | he
    · cases heq
      exact .tail _ (ih.1 _ (by simp) (List.prefix_refl _))
    · exact .tail _ (ih.2 e he)
  | leaf _ ih =>
    refine ⟨fun e hne he => .tail _ (ih.1 e hne he), fun e he => ?_⟩
    exact .tail _ (ih.2 e (by simpa using he))
  | up _ ih =>
    refine ⟨fun e hne he => ?_, fun e he => .tail _ (ih.2 e (by simpa using he))⟩
    rcases List.prefix_concat_iff.mp he with rfl | he
    · exact .head _
    · exact .tail _ (ih.1 e hne he)

/-- What is closed has been opened, and so has the parent of every node. -/
theorem Nested.down_mem {d : List α} {ms : List (Mark α)} (h : Nested d ms) :
    (∀ e, .up e ∈ ms → .down e ∈ ms ∨ e <+: d) ∧
      ∀ m ∈ ms, ∀ e a, m.node = e ++ [a] → .down e ∈ ms ∨ e <+: d := by
  induction h with
  | nil => simp
  | @down d a ms _ ih =>
    have hstep {e : List α} (he : .down e ∈ ms ∨ e <+: d ++ [a]) :
        .down e ∈ Mark.down (d ++ [a]) :: ms ∨ e <+: d := by
      rcases he with he | he
      · exact .inl (.tail _ he)
      · rcases List.prefix_concat_iff.mp he with rfl | he
        · exact .inl (.head _)
        · exact .inr he
    refine ⟨fun e he => hstep (ih.1 e (by simpa using he)), List.forall_mem_cons.mpr ⟨?_, ?_⟩⟩
    · intro e b heq
      exact .inr ((List.append_inj' heq rfl).1 ▸ List.prefix_refl _)
    · exact fun m hm e b heq => hstep (ih.2 m hm e b heq)
  | @leaf d a ms _ ih =>
    refine ⟨fun e he => (ih.1 e (by simpa using he)).imp_left (.tail _),
      List.forall_mem_cons.mpr ⟨?_, fun m hm e b heq => (ih.2 m hm e b heq).imp_left (.tail _)⟩⟩
    intro e b heq
    exact .inr ((List.append_inj' heq rfl).1 ▸ List.prefix_refl _)
  | @up d a ms _ ih =>
    have hstep {e : List α} (he : .down e ∈ ms ∨ e <+: d) :
        .down e ∈ Mark.up (d ++ [a]) :: ms ∨ e <+: d ++ [a] :=
      he.imp (.tail _) fun he => he.trans (List.prefix_append ..)
    refine ⟨fun e he => ?_, List.forall_mem_cons.mpr ⟨?_, ?_⟩⟩
    · rcases List.mem_cons.mp he with heq | he
      · cases heq
        exact .inr (List.prefix_refl _)
      · exact hstep (ih.1 e he)
    · intro e b heq
      exact .inr ((List.append_inj' heq rfl).1 ▸ List.prefix_append ..)
    · exact fun m hm e b heq => hstep (ih.2 m hm e b heq)

theorem Nested.matched {ms : List (Mark α)} (h : Nested [] ms) : Matched ms where
  node := h.node
  paired := fun d => ⟨h.up_mem.2 d, fun hup =>
    (h.down_mem.1 d hup).resolve_right fun hd => h.node _ hup (List.prefix_nil.mp hd)⟩
  opened := fun m hm d a hne heq =>
    (h.down_mem.2 m hm d a heq).resolve_right fun hd => hne (List.prefix_nil.mp hd)

/-! ## Sorted lists -/

/-- The inside of a node is between its marks. -/
structure Nests (lt : Mark α → Mark α → Prop) : Prop where
  trans : ∀ {x y z}, lt x y → lt y z → lt x z
  irrefl : ∀ x, ¬lt x x
  down_lt : ∀ {d : List α} {m : Mark α}, d ≠ [] → d <+: m.node → d ≠ m.node → lt (.down d) m
  lt_up : ∀ {d : List α} {m : Mark α}, d ≠ [] → d <+: m.node → d ≠ m.node → lt m (.up d)
  down_lt_up : ∀ d, lt (.down d) (.up d)
  between : ∀ {d : List α} {m : Mark α}, d ≠ [] → lt (.down d) m → lt m (.up d) →
    d <+: m.node ∧ d ≠ m.node

section Sorted

variable {lt : Mark α → Mark α → Prop} {ms done rest : List (Mark α)} {x m : Mark α} {d : List α}

theorem Nests.mem_before (h : Nests lt) (hs : (done ++ m :: rest).Pairwise lt)
    (hx : x ∈ done ++ m :: rest) (hlt : lt x m) : x ∈ done := by
  rcases List.mem_append.mp hx with hx | hx
  · exact hx
  · rcases List.mem_cons.mp hx with rfl | hx
    · exact absurd hlt (h.irrefl _)
    · have hgt := List.rel_of_pairwise_cons (List.pairwise_append.mp hs).2.1 hx
      exact absurd (h.trans hlt hgt) (h.irrefl _)

theorem Nests.mem_behind (h : Nests lt) (hs : (done ++ m :: rest).Pairwise lt)
    (hx : x ∈ done ++ m :: rest) (hlt : lt m x) : x ∈ rest := by
  rcases List.mem_append.mp hx with hx | hx
  · have hgt := (List.pairwise_append.mp hs).2.2 x hx m (.head _)
    exact absurd (h.trans hlt hgt) (h.irrefl _)
  · rcases List.mem_cons.mp hx with rfl | hx
    · exact absurd hlt (h.irrefl _)
    · exact hx

/-- The nodes that are open: they have been opened, and are still to be closed. -/
def StillOpen (done rest : List (Mark α)) (d : List α) : Prop :=
  ∀ e ≠ [], e <+: d ↔ .down e ∈ done ∧ .up e ∈ rest

/-- The parent of the next node is open. -/
theorem Nests.parent_open (h : Nests lt) (hs : (done ++ m :: rest).Pairwise lt)
    (hm : Matched (done ++ m :: rest)) (hopen : StillOpen done (m :: rest) d) {e : List α} {a : α}
    (heq : m.node = e ++ [a]) : e <+: d := by
  by_cases hne : e = []
  · exact hne ▸ List.nil_prefix
  · have hbelow : e <+: m.node ∧ e ≠ m.node := by simp [heq]
    have hdown := hm.opened m (by simp) e a hne heq
    refine (hopen e hne).mpr ⟨h.mem_before hs hdown (h.down_lt hne hbelow.1 hbelow.2), ?_⟩
    exact .tail _ (h.mem_behind hs ((hm.paired e).mp hdown) (h.lt_up hne hbelow.1 hbelow.2))

/-- The next node is below the open one, which it does not close. -/
theorem Nests.below_open (h : Nests lt) (hs : (done ++ m :: rest).Pairwise lt)
    (hopen : StillOpen done (m :: rest) d) (hm : m ≠ .up d) (hnode : m.node ≠ []) :
    d <+: m.node ∧ d ≠ m.node := by
  by_cases hne : d = []
  · subst hne
    exact ⟨List.nil_prefix, Ne.symm hnode⟩
  · obtain ⟨hdown, hup⟩ := (hopen d hne).mp (List.prefix_refl d)
    have hup : .up d ∈ rest := (List.mem_cons.mp hup).resolve_left (Ne.symm hm)
    exact h.between hne ((List.pairwise_append.mp hs).2.2 _ hdown m (.head _))
      (List.rel_of_pairwise_cons (List.pairwise_append.mp hs).2.1 hup)

/-- A next node that is not closed is a child of the open one. -/
theorem Nests.child_open (h : Nests lt) (hs : (done ++ m :: rest).Pairwise lt)
    (hm : Matched (done ++ m :: rest)) (hopen : StillOpen done (m :: rest) d) (hno : m ≠ .up d) :
    ∃ a, m.node = d ++ [a] := by
  have hnode := hm.node m (by simp)
  obtain ⟨e, a, heq⟩ := (List.eq_nil_or_concat' m.node).resolve_left hnode
  have hpre := h.parent_open hs hm hopen heq
  obtain ⟨hbelow, hne⟩ := h.below_open hs hopen hno hnode
  rw [heq] at hbelow hne
  have hd := (List.prefix_concat_iff.mp hbelow).resolve_left hne
  exact ⟨a, by rw [heq, List.IsPrefix.eq_of_length_le hpre hd.length_le]⟩

theorem Nests.nested_of_open (h : Nests lt) (hs : (done ++ rest).Pairwise lt)
    (hm : Matched (done ++ rest)) (hopen : StillOpen done rest d) : Nested d rest := by
  induction rest generalizing done d with
  | nil =>
    by_cases hne : d = []
    · exact hne ▸ .nil
    · exact absurd ((hopen d hne).mp (List.prefix_refl d)).2 List.not_mem_nil
  | cons m rest ih =>
    have hrest := @ih (done ++ [m])
    simp only [List.append_assoc, List.singleton_append] at hrest
    cases m with
    | leaf e =>
      obtain ⟨a, rfl⟩ : ∃ a, e = d ++ [a] := h.child_open hs hm hopen (by simp)
      refine .leaf (hrest hs hm fun e hne => (hopen e hne).trans ?_)
      simp
    | down e =>
      obtain ⟨a, rfl⟩ : ∃ a, e = d ++ [a] := h.child_open hs hm hopen (by simp)
      refine .down (hrest hs hm fun e hne => ?_)
      have hup : .up (d ++ [a]) ∈ rest :=
        h.mem_behind hs ((hm.paired _).mp (by simp)) (h.down_lt_up _)
      have hd := hopen e hne
      simp only [List.mem_cons, reduceCtorEq, false_or] at hd
      rw [List.prefix_concat_iff, hd]
      simp only [List.mem_append, List.mem_singleton, Mark.down.injEq]
      constructor
      · rintro (rfl | ⟨hdown, hup⟩)
        · exact ⟨.inr rfl, hup⟩
        · exact ⟨.inl hdown, hup⟩
      · rintro ⟨hdown | rfl, hup⟩
        · exact .inr ⟨hdown, hup⟩
        · exact .inl rfl
    | up e =>
      have hdown : .down e ∈ done :=
        h.mem_before hs ((hm.paired e).mpr (by simp)) (h.down_lt_up e)
      have hnode : e ≠ [] := hm.node (.up e) (by simp)
      have hpre : e <+: d := (hopen e hnode).mpr ⟨hdown, .head _⟩
      obtain rfl : e = d := by
        by_contra hne
        have hbelow := (h.below_open hs hopen (by simpa using hne) hnode).1
        exact hne (List.IsPrefix.eq_of_length_le hpre hbelow.length_le)
      obtain ⟨d, a, rfl⟩ := (List.eq_nil_or_concat' e).resolve_left hnode
      refine .up (hrest hs hm fun e hne => ?_)
      have hd := hopen e hne
      rw [List.prefix_concat_iff] at hd
      have hlast : .up (d ++ [a]) ∉ rest := fun hup =>
        h.irrefl _ (List.rel_of_pairwise_cons (List.pairwise_append.mp hs).2.1 hup)
      simp only [List.mem_append, List.mem_singleton, reduceCtorEq, or_false]
      constructor
      · intro hpre
        obtain ⟨hdown, hup⟩ := hd.mp (.inr hpre)
        refine ⟨hdown, (List.mem_cons.mp hup).resolve_left fun heq => ?_⟩
        cases heq
        have := hpre.length_le
        simp only [List.length_append, List.length_singleton] at this
        omega
      · rintro ⟨hdown, hup⟩
        refine (hd.mpr ⟨hdown, .tail _ hup⟩).resolve_left ?_
        rintro rfl
        exact hlast hup

/-- A sorted list of marks is nested where the marks are matched. -/
theorem Nests.nested (h : Nests lt) (hs : ms.Pairwise lt) (hm : Matched ms) : Nested [] ms :=
  @Nests.nested_of_open _ _ [] ms [] h hs hm fun _ hne =>
    iff_of_false (fun he => hne (List.prefix_nil.mp he)) fun he => List.not_mem_nil he.1

end Sorted

end Csup.Framework
