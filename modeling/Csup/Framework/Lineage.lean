import Mathlib.Data.Set.Insert

/-!
# Lines that branch off

The elements of a set are on lines, each with an order, and a line may branch off at an
element of another one (`Lineage`). The child of an element is the one behind it on its line, or
the first one of a line that branches off there (`Child`).

A set is bonded when each child is based on its parent, or the parent on the child (`Bonded`).

* `Child.unique`: no element has two parents;
* `Child.of_suffix`, `Child.of_head`: the children in a list that is sorted;
* `Bonded.insert`, `Bonded.erase`: what may be added at an end of a line, and what may be taken
  away.
-/

namespace Csup.Framework

/-- Elements on lines. The order is total on each line, and no line branches off at an element of
its own. -/
structure Lineage (K L : Type*) where
  line : K → L
  point : L → Option K
  before : K → K → Prop
  trans : ∀ {a b c : K}, before a b → before b c → before a c
  irrefl : ∀ a, ¬before a a
  total : ∀ {a b : K}, line a = line b → a ≠ b → before a b ∨ before b a
  point_ne : ∀ a, point (line a) ≠ some a

namespace Lineage

variable {K L : Type*} (g : Lineage K L) (dom : Set K)

/-- `r` comes behind `a` on its line. -/
structure NextOf (a r : K) : Prop where
  parent : a ∈ dom
  child : r ∈ dom
  line : g.line r = g.line a
  before : g.before a r
  least : ∀ x ∈ dom, g.line x = g.line a → g.before a x → x = r ∨ g.before r x

/-- `r` is the first one of a line that branches off at `a`. -/
structure FirstOf (a r : K) : Prop where
  parent : a ∈ dom
  child : r ∈ dom
  point : g.point (g.line r) = some a
  least : ∀ x ∈ dom, g.line x = g.line r → x = r ∨ g.before r x

def Child (a r : K) : Prop := g.NextOf dom a r ∨ g.FirstOf dom a r

variable {g dom}

theorem asymm {a b : K} (h : g.before a b) : ¬g.before b a := fun h' => g.irrefl a (g.trans h h')

theorem ne_of_before {a b : K} (h : g.before a b) : a ≠ b := fun heq => g.irrefl b (heq ▸ h)

theorem Child.parent_mem {a r : K} (h : g.Child dom a r) : a ∈ dom := h.elim NextOf.parent FirstOf.parent

theorem Child.child_mem {a r : K} (h : g.Child dom a r) : r ∈ dom := h.elim NextOf.child FirstOf.child

theorem NextOf.unique {a r r' : K} (h : g.NextOf dom a r) (h' : g.NextOf dom a r') : r = r' := by
  rcases h.least r' h'.child h'.line h'.before with heq | hlt
  · exact heq.symm
  · rcases h'.least r h.child h.line h.before with heq | hlt'
    · exact heq
    · exact absurd hlt' (asymm hlt)

theorem NextOf.not_firstOf {a b r : K} (h : g.NextOf dom a r) : ¬g.FirstOf dom b r := by
  intro h'
  rcases h'.least a h.parent h.line.symm with heq | hlt
  · exact ne_of_before h.before heq
  · exact asymm h.before hlt

/-- No element has two parents. -/
theorem Child.unique {a b r : K} (h : g.Child dom a r) (h' : g.Child dom b r) : a = b := by
  rcases h with h | h
  · rcases h' with h' | h'
    · by_contra hne
      have hline : g.line b = g.line a := h'.line.symm.trans h.line
      -- the later one of the two is between the other one and `r`
      rcases g.total hline.symm hne with hab | hba
      · rcases h.least b h'.parent hline hab with heq | hlt
        · exact ne_of_before h'.before heq
        · exact asymm h'.before hlt
      · rcases h'.least a h.parent hline.symm hba with heq | hlt
        · exact ne_of_before h.before heq
        · exact asymm h.before hlt
    · exact absurd h' h.not_firstOf
  · rcases h' with h' | h'
    · exact absurd h h'.not_firstOf
    · exact Option.some.inj (h.point.symm.trans h'.point)

theorem Child.ne {a r : K} (h : g.Child dom a r) : a ≠ r := by
  rintro rfl
  rcases h with h | h
  · exact g.irrefl a h.before
  · exact g.point_ne a h.point

/-! ## Lists -/

section

variable {α : Type*} {f : α → K} {l s t : List α} {a b : α}

/-- What is behind an element of a sorted list is what is before it in the order. -/
theorem mem_of_before (hl : (s ++ a :: t).Pairwise fun x y => g.before (f x) (f y))
    (hb : b ∈ s ++ a :: t) (hab : g.before (f a) (f b)) : b ∈ t := by
  obtain ⟨-, -, hst⟩ := List.pairwise_append.mp hl
  rcases List.mem_append.mp hb with hb | hb
  · exact absurd hab (asymm (hst b hb a List.mem_cons_self))
  · rcases List.mem_cons.mp hb with rfl | hb
    · exact absurd hab (g.irrefl _)
    · exact hb

/-- The list of a line, whose elements are those of the set. -/
structure Lists (g : Lineage K L) (dom : Set K) (f : α → K) (l : List α) (i : L) : Prop where
  sorted : l.Pairwise fun x y => g.before (f x) (f y)
  mem : ∀ x ∈ l, f x ∈ dom ∧ g.line (f x) = i
  all : ∀ x ∈ dom, g.line x = i → ∃ y ∈ l, f y = x

variable {i : L}

theorem Lists.nextOf (h : Lists g dom f l i) (hs : a :: b :: t <:+ l) : g.NextOf dom (f a) (f b) := by
  obtain ⟨s, rfl⟩ := hs
  have ha := h.mem a (by simp)
  have hb := h.mem b (by simp)
  obtain ⟨-, hat, -⟩ := List.pairwise_append.mp h.sorted
  obtain ⟨hab, hbt⟩ := List.pairwise_cons.mp hat
  refine ⟨ha.1, hb.1, hb.2.trans ha.2.symm, hab b List.mem_cons_self, fun x hx hline hax => ?_⟩
  obtain ⟨y, hy, rfl⟩ := h.all x hx (hline.trans ha.2)
  rcases List.mem_cons.mp (mem_of_before h.sorted hy hax) with rfl | hy
  · exact .inl rfl
  · exact .inr ((List.pairwise_cons.mp hbt).1 y hy)

theorem Lists.of_nextOf {r : K} (h : Lists g dom f l i) (hs : a :: t <:+ l)
    (hn : g.NextOf dom (f a) r) : ∃ b t', t = b :: t' ∧ f b = r := by
  have hline := (h.mem a (hs.subset List.mem_cons_self)).2
  obtain ⟨y, hy, rfl⟩ := h.all r hn.child (hn.line.trans hline)
  have hyt : y ∈ t := by
    obtain ⟨s, rfl⟩ := hs
    exact mem_of_before h.sorted hy hn.before
  obtain ⟨b, t', rfl⟩ := List.exists_cons_of_ne_nil (List.ne_nil_of_mem hyt)
  exact ⟨b, t', rfl, (h.nextOf hs).unique hn⟩

theorem Lists.firstOf {p : K} (h : Lists g dom f (b :: t) i) (hp : p ∈ dom)
    (hpoint : g.point i = some p) : g.FirstOf dom p (f b) := by
  have hb := h.mem b List.mem_cons_self
  refine ⟨hp, hb.1, by rw [hb.2, hpoint], fun x hx hline => ?_⟩
  obtain ⟨y, hy, rfl⟩ := h.all x hx (hline.trans hb.2)
  rcases List.mem_cons.mp hy with rfl | hy
  · exact .inl rfl
  · exact .inr ((List.pairwise_cons.mp h.sorted).1 y hy)

theorem Lists.of_firstOf {p r : K} (h : Lists g dom f l i) (hf : g.FirstOf dom p r)
    (hline : g.line r = i) : ∃ b t', l = b :: t' ∧ f b = r := by
  obtain ⟨y, hy, rfl⟩ := h.all r hf.child hline
  obtain ⟨b, t, rfl⟩ := List.exists_cons_of_ne_nil (List.ne_nil_of_mem hy)
  refine ⟨b, t, rfl, ?_⟩
  have hb := h.mem b List.mem_cons_self
  rcases List.mem_cons.mp hy with rfl | hy
  · rfl
  · rcases hf.least (f b) hb.1 (hb.2.trans hline.symm) with heq | hlt
    · exact heq
    · exact absurd hlt (asymm ((List.pairwise_cons.mp h.sorted).1 y hy))

end

/-! ## Finite sets -/

section

variable [DecidableEq K] [DecidableEq L] [DecidableRel g.before] (l : List K) (a r : K)

/-- Membership and permutation are decided by the equality of elements. -/
@[reducible] def decidableMem (a : K) (l : List K) : Decidable (a ∈ l) := inferInstance

@[reducible] def decidablePerm (l l' : List K) : Decidable (l.Perm l') := inferInstance

instance : Decidable (g.NextOf {x | x ∈ l} a r) :=
  decidable_of_iff (a ∈ l ∧ r ∈ l ∧ g.line r = g.line a ∧ g.before a r ∧
      ∀ x ∈ l, g.line x = g.line a → g.before a x → x = r ∨ g.before r x)
    ⟨fun ⟨ha, hr, hline, hbefore, hleast⟩ => ⟨ha, hr, hline, hbefore, hleast⟩,
      fun h => ⟨h.parent, h.child, h.line, h.before, h.least⟩⟩

instance : Decidable (g.FirstOf {x | x ∈ l} a r) :=
  decidable_of_iff (a ∈ l ∧ r ∈ l ∧ g.point (g.line r) = some a ∧
      ∀ x ∈ l, g.line x = g.line r → x = r ∨ g.before r x)
    ⟨fun ⟨ha, hr, hpoint, hleast⟩ => ⟨ha, hr, hpoint, hleast⟩,
      fun h => ⟨h.parent, h.child, h.point, h.least⟩⟩

instance : Decidable (g.Child {x | x ∈ l} a r) := inferInstanceAs (Decidable (_ ∨ _))

end

/-! ## Bases -/

variable {base : K → Option K} {a b r : K}

/-- Each child is based on its parent, or the parent on it. -/
def Bonded (g : Lineage K L) (dom : Set K) (base : K → Option K) : Prop :=
  ∀ a r, g.Child dom a r → base r = some a ∨ base a = some r

/-- The lines of the elements branch off at elements. -/
def Grounded (g : Lineage K L) (dom : Set K) : Prop :=
  ∀ r ∈ dom, ∀ a, g.point (g.line r) = some a → a ∈ dom

/-- A new element at an end of a line, with the one it is to be based on. -/
inductive Follows (g : Lineage K L) (dom : Set K) (b r : K) : Prop
  /-- in front of a line that does not branch off -/
  | above : g.point (g.line r) = none → g.line b = g.line r →
    (∀ x ∈ dom, g.line x = g.line r → g.before r x ∧ (x = b ∨ g.before b x)) → Follows g dom b r
  | below : g.line b = g.line r →
    (∀ x ∈ dom, g.line x = g.line r → g.before x r ∧ (x = b ∨ g.before x b)) → Follows g dom b r
  /-- on a line of its own -/
  | branch : g.point (g.line r) = some b → (∀ x ∈ dom, g.line x ≠ g.line r) → Follows g dom b r

/-- Fewer elements have no fewer children. -/
theorem Child.subset {dom' : Set K} (h : g.Child dom' a r) (hsub : dom ⊆ dom') (ha : a ∈ dom)
    (hr : r ∈ dom) : g.Child dom a r := by
  rcases h with h | h
  · exact .inl ⟨ha, hr, h.line, h.before, fun x hx => h.least x (hsub hx)⟩
  · exact .inr ⟨ha, hr, h.point, fun x hx => h.least x (hsub hx)⟩

/-- The parent of the new element. -/
theorem Follows.child_new (h : g.Follows dom b r) (hb : b ∈ dom) (hc : g.Child (insert r dom) a r) :
    a = b := by
  have ha : a ∈ dom := (Set.mem_insert_iff.mp hc.parent_mem).resolve_left hc.ne
  rcases hc with hc | hc
  · cases h with
    | above _ hline hall => exact absurd hc.before (asymm (hall a ha hc.line.symm).1)
    | below hline hall =>
      obtain ⟨-, heq | hab⟩ := hall a ha hc.line.symm
      · exact heq
      · -- `b` would be between
        have hbr := (hall b hb hline).1
        rcases hc.least b (.inr hb) (hline.trans hc.line) hab with heq | hlt
        · exact absurd hbr (heq ▸ g.irrefl _)
        · exact absurd hbr (asymm hlt)
    | branch _ hall => exact absurd hc.line.symm (hall a ha)
  · cases h with
    | above hpoint _ _ => cases hpoint.symm.trans hc.point
    | below hline hall =>
      have hbr := (hall b hb hline).1
      rcases hc.least b (.inr hb) hline with heq | hlt
      · exact absurd hbr (heq ▸ g.irrefl _)
      · exact absurd hbr (asymm hlt)
    | branch hpoint _ => exact Option.some.inj (hc.point.symm.trans hpoint)

/-- The child of the new element. -/
theorem Follows.new_child (h : g.Follows dom b r) (hg : g.Grounded dom) (hr : r ∉ dom) (hb : b ∈ dom)
    (hc : g.Child (insert r dom) r a) : a = b := by
  have ha : a ∈ dom := (Set.mem_insert_iff.mp hc.child_mem).resolve_left hc.ne.symm
  rcases hc with hc | hc
  · cases h with
    | above _ hline hall =>
      obtain ⟨-, heq | hba⟩ := hall a ha hc.line
      · exact heq
      · rcases hc.least b (.inr hb) hline (hall b hb hline).1 with heq | hlt
        · exact heq.symm
        · exact absurd hba (asymm hlt)
    | below _ hall => exact absurd hc.before (asymm (hall a ha hc.line).1)
    | branch _ hall => exact absurd hc.line (hall a ha)
  · exact absurd (hg a ha r hc.point) hr

theorem Bonded.insert [DecidableEq K] (h : g.Bonded dom base) (hg : g.Grounded dom) (hr : r ∉ dom)
    (hb : b ∈ dom) (hf : g.Follows dom b r) :
    g.Bonded (insert r dom) (Function.update base r (some b)) := by
  intro a x hc
  by_cases hx : x = r
  · subst hx
    rw [hf.child_new hb hc, Function.update_self]
    exact .inl rfl
  by_cases ha : a = r
  · subst ha
    rw [hf.new_child hg hr hb hc, Function.update_self]
    exact .inr rfl
  rw [Function.update_of_ne hx, Function.update_of_ne ha]
  have hmem {y : K} (hy : y ≠ r) (h : y ∈ Insert.insert r dom) : y ∈ dom :=
    (Set.mem_insert_iff.mp h).resolve_left hy
  exact h a x (hc.subset (Set.subset_insert r dom) (hmem ha hc.parent_mem) (hmem hx hc.child_mem))

/-- When an element is taken away, a child is one that was, or the child of its child. -/
theorem Child.of_erase {x : K} (hr : r ∈ dom) (hc : g.Child (dom \ {r}) a x) :
    g.Child dom a x ∨ g.Child dom a r ∧ g.NextOf dom r x := by
  obtain ⟨ha, har⟩ := hc.parent_mem
  obtain ⟨hx, hxr⟩ := hc.child_mem
  have hrest {y : K} (hy : y ∈ dom) (hyr : y ≠ r) : y ∈ dom \ {r} := ⟨hy, hyr⟩
  rcases hc with hc | hc
  · by_cases hbetween : g.line r = g.line a ∧ g.before a r ∧ g.before r x
    · obtain ⟨hline, har', hrx⟩ := hbetween
      refine .inr ⟨.inl ⟨ha, hr, hline, har', fun y hy hyl hay => ?_⟩, hr, hx,
        hc.line.trans hline.symm, hrx, fun y hy hyl hry => ?_⟩
      · by_cases hyr : y = r
        · exact .inl hyr
        · rcases hc.least y (hrest hy hyr) hyl hay with rfl | hlt
          · exact .inr hrx
          · exact .inr (g.trans hrx hlt)
      · exact hc.least y (hrest hy (ne_of_before hry).symm) (hyl.trans hline) (g.trans har' hry)
    · refine .inl (.inl ⟨ha, hx, hc.line, hc.before, fun y hy hyl hay => ?_⟩)
      by_cases hyr : y = r
      · subst hyr
        rcases g.total (hyl.trans hc.line.symm) (Ne.symm hxr) with hlt | hlt
        · exact absurd ⟨hyl, hay, hlt⟩ hbetween
        · exact .inr hlt
      · exact hc.least y (hrest hy hyr) hyl hay
  · by_cases hfront : g.line r = g.line x ∧ g.before r x
    · obtain ⟨hline, hrx⟩ := hfront
      refine .inr ⟨.inr ⟨ha, hr, hline ▸ hc.point, fun y hy hyl => ?_⟩, hr, hx, hline.symm, hrx,
        fun y hy hyl hry => ?_⟩
      · by_cases hyr : y = r
        · exact .inl hyr
        · rcases hc.least y (hrest hy hyr) (hyl.trans hline) with rfl | hlt
          · exact .inr hrx
          · exact .inr (g.trans hrx hlt)
      · exact hc.least y (hrest hy (ne_of_before hry).symm) (hyl.trans hline)
    · refine .inl (.inr ⟨ha, hx, hc.point, fun y hy hyl => ?_⟩)
      by_cases hyr : y = r
      · subst hyr
        rcases g.total hyl (Ne.symm hxr) with hlt | hlt
        · exact absurd ⟨hyl, hlt⟩ hfront
        · exact .inr hlt
      · exact hc.least y (hrest hy hyr) hyl

/-- An element that none is based on may go. -/
theorem Bonded.erase (h : g.Bonded dom base) (hr : r ∈ dom) (hfree : ∀ x ∈ dom, base x ≠ some r) :
    g.Bonded (dom \ {r}) base := by
  intro a x hc
  rcases hc.of_erase hr with hax | ⟨har, hrx⟩
  · exact h a x hax
  · have hbase : base r = some a := (h a r har).resolve_right (hfree a hc.parent_mem.1)
    have hbase' : base r = some x := (h r x (.inl hrx)).resolve_left (hfree x hc.child_mem.1)
    exact absurd (Option.some.inj (hbase.symm.trans hbase')) hc.ne

theorem Grounded.insert (h : g.Grounded dom) (hb : b ∈ dom) (hf : g.Follows dom b r) :
    g.Grounded (insert r dom) := by
  intro x hx a ha
  rcases Set.mem_insert_iff.mp hx with rfl | hx
  · cases hf with
    | above hpoint _ _ => cases hpoint.symm.trans ha
    | below hline _ => exact .inr (h b hb a (hline ▸ ha))
    | branch hpoint _ => exact .inr (Option.some.inj (hpoint.symm.trans ha) ▸ hb)
  · exact .inr (h x hx a ha)

/-- An element where no line branches off may go. -/
theorem Grounded.erase (h : g.Grounded dom) (hno : ∀ x ∈ dom, g.point (g.line x) ≠ some r) :
    g.Grounded (dom \ {r}) :=
  fun x hx a ha => ⟨h x hx.1 a ha, fun har => hno x hx.1 (har ▸ ha)⟩

end Lineage

end Csup.Framework
