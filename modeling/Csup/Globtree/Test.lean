import Csup.Globtree.Expr

/-!
# What `globtree_test` returns

From the root of a tree the walk comes back with the value of its expression, the
stack as it was and nothing written but to the tree's own nodes
(`reach_eval`): so a node on the stack is still as it was pushed. The shape of
the tree stays, so that the next test finds the tree again.
-/

namespace Csup.Globtree

open Csup.Framework

variable {R : Type*} {m : Matchers R} {path : List Byte} {h : Heap (Node R)} {l : Loc} {e : Expr m}
  {ls : List Loc} {n : Node R} {stack : Option Loc}

theorem globtreeEval_eq (hl : e.isLeaf = true) (hn : n.erase = e.node none none) :
    globtreeEval m n path = .ok (e.eval path) := by
  have htype : n.type = e.type := congrArg Node.type hn
  have hdata : n.data = e.data := congrArg Node.data hn
  have hflags : n.flags = e.flags := congrArg Node.flags hn
  cases e with
  | true => simp only [globtreeEval, htype, Expr.type, Expr.eval]
  | false => simp only [globtreeEval, htype, Expr.type, Expr.eval]
  | matching p f =>
    simp only [globtreeEval, htype, Expr.type, hdata, Expr.data, hflags, Expr.flags, Expr.eval]
    rcases m.fnmatch_returns p path f with h0 | h1
    · simp [h0]
    · simp [h1, FNM_NOMATCH]
  | regex p =>
    simp only [globtreeEval, htype, Expr.type, hdata, Expr.data, Expr.eval]
    rcases m.regexec_returns p.regex path with h0 | h1
    · simp [h0]
    · simp [h1, REG_NOMATCH]
  | not e => cases hl
  | binary op a b => cases hl

@[simp] theorem erase_onStack (n : Node R) (state : Walkstate) (next : Option Loc) :
    (n.onStack state next).erase = n.erase := rfl

@[simp] theorem type_onStack (n : Node R) (state : Walkstate) (next : Option Loc) :
    (n.onStack state next).type = n.type := rfl

@[simp] theorem right_onStack (n : Node R) (state : Walkstate) (next : Option Loc) :
    (n.onStack state next).right = n.right := rfl

/-- The shapes of all nodes are the same. -/
def SameShape (h h' : Heap (Node R)) : Prop := ∀ x, shape h' x = shape h x

theorem SameShape.trans {h h' h'' : Heap (Node R)} (h₁ : SameShape h h') (h₂ : SameShape h' h'') :
    SameShape h h'' := fun x => (h₂ x).trans (h₁ x)

theorem sameShape_set (hc : h.cell l = some n) (state : Walkstate) (next : Option Loc) :
    SameShape h (h.set l (n.onStack state next)) := by
  intro x
  by_cases hx : x = l
  · rw [hx, shape, shape, Heap.cell_set_self (by rw [hc]; simp), hc, Option.map_some,
      Option.map_some, erase_onStack]
  · exact shape_of_cell (Heap.cell_set_of_ne hx)

/-! ## Steps -/

theorem step_down_leaf (hc : h.cell l = some n) (hl : e.isLeaf = true)
    (hn : n.erase = e.node none none) :
    Walk.step m path ⟨h, stack, .down l⟩ = ⟨h, stack, .up (e.eval path)⟩ := by
  have hleft : n.left = none := congrArg Node.left hn
  simp only [Walk.step, deref, hc, hleft, globtreeEval_eq hl hn]

theorem step_down_left {c : Loc} (hc : h.cell l = some n) (hleft : n.left = some c) :
    Walk.step m path ⟨h, stack, .down l⟩ =
      ⟨h.set l (n.onStack .doingleft stack), some l, .down c⟩ := by
  simp only [Walk.step, deref, hc, hleft, Walk.push]

theorem step_up {val : Bool} (hc : h.cell l = some n) :
    Walk.step m path ⟨h, some l, .up val⟩ = Walk.pop ⟨h, some l, .up val⟩ l n val := by
  simp only [Walk.step, deref, hc]

theorem pop_not {val : Bool} (ht : n.type = .not) :
    Walk.pop ⟨h, some l, .up val⟩ l n val = ⟨h, n.stackNext, .up (!val)⟩ := by
  simp only [Walk.pop, ht]

/-- The left operand decides, or the right one has been evaluated. -/
theorem pop_binary {op : Op} {val : Bool} (ht : n.type = op.type)
    (hs : n.state = some .doingright ∨ op.goesOn val = false) :
    Walk.pop ⟨h, some l, .up val⟩ l n val = ⟨h, n.stackNext, .up val⟩ := by
  have hno : ¬ (n.state = some .doingleft ∧ op.goesOn val = true) := by
    rintro ⟨hstate, hgo⟩
    rcases hs with hs | hs
    · rw [hs] at hstate
      cases hstate
    · rw [hs] at hgo
      cases hgo
  cases op <;> simp only [Walk.pop, ht, Op.type, if_neg hno]

theorem pop_right {op : Op} {val : Bool} {r : Loc} (ht : n.type = op.type)
    (hs : n.state = some .doingleft) (hgo : op.goesOn val = true) (hr : n.right = some r) :
    Walk.pop ⟨h, some l, .up val⟩ l n val =
      ⟨h.set l (n.onStack .doingright n.stackNext), some l, .down r⟩ := by
  cases op <;> simp only [Walk.pop, ht, Op.type, hs, hgo, and_self, if_true, hr, Walk.push]

/-! ## Walks -/

/-- From the root of a tree the walk comes back with the value. `h₁` is a heap in
which the tree has been walked before. -/
theorem reach_eval (hr : Rep h l e ls) (path : List Byte) (stack : Option Loc)
    {h₁ : Heap (Node R)} (hs₁ : SameShape h h₁) :
    ∃ h', Reach (Walk.step m path) ⟨h₁, stack, .down l⟩ ⟨h', stack, .up (e.eval path)⟩ ∧
      Heap.Keeps ls h₁ h' ∧ SameShape h₁ h' := by
  induction hr generalizing stack h₁ with
  | @leaf l e hl hs =>
    obtain ⟨n, hc, he⟩ := shape_eq_some ((hs₁ l).trans hs)
    refine ⟨h₁, .head ?_, Heap.Keeps.refl _ _, fun _ => rfl⟩
    rw [step_down_leaf hc hl he]
    exact .refl _
  | @not l c e ls hs _ hl ih =>
    obtain ⟨n, hc, he⟩ := shape_eq_some ((hs₁ l).trans hs)
    -- down, with the node on the stack
    have hset := sameShape_set hc .doingleft stack
    obtain ⟨h₂, hrun, hk, hs₂⟩ := ih (some l) (hs₁.trans hset)
    have hc₂ := (hk l hl).trans (Heap.cell_set_self (by rw [hc]; simp))
    refine ⟨h₂, .head ?_, ?_, hset.trans hs₂⟩
    · rw [step_down_left hc (congrArg Node.left he)]
      refine hrun.trans (.head ?_)
      rw [step_up hc₂, pop_not (n := n.onStack .doingleft stack) (congrArg Node.type he)]
      exact .refl _
    · exact (Heap.keeps_set (List.mem_cons_self ..)).trans (hk.mono (List.subset_cons_self ..))
  | @binary op l x y a b ls rs hs _ _ hl hlr hd iha ihb =>
    obtain ⟨n, hc, he⟩ := shape_eq_some ((hs₁ l).trans hs)
    have htype : n.type = op.type := congrArg Node.type he
    have hright : n.right = some y := congrArg Node.right he
    have hset₁ := sameShape_set hc .doingleft stack
    obtain ⟨h₂, hrun, hk, hs₂⟩ := iha (some l) (hs₁.trans hset₁)
    have hc₂ := (hk l hl).trans (Heap.cell_set_self (by rw [hc]; simp))
    have hsub : ls ⊆ l :: (ls ++ rs) := fun z hz => List.mem_cons_of_mem _ (List.mem_append_left _ hz)
    have hk' : Heap.Keeps (l :: (ls ++ rs)) h₁ h₂ :=
      (Heap.keeps_set (List.mem_cons_self ..)).trans (hk.mono hsub)
    have hdown : Reach (Walk.step m path) ⟨h₁, stack, .down l⟩ ⟨h₂, some l, .up (a.eval path)⟩ := by
      refine .head ?_
      rw [step_down_left hc (congrArg Node.left he)]
      exact hrun
    rw [Expr.eval, Op.apply_eq]
    by_cases hgo : op.goesOn (a.eval path) = true
    · -- the right operand
      have hset₂ := sameShape_set hc₂ .doingright stack
      obtain ⟨h₃, hrun', hk₃, hs₃⟩ := ihb (some l) (((hs₁.trans hset₁).trans hs₂).trans hset₂)
      have hc₃ := (hk₃ l hlr).trans (Heap.cell_set_self (by rw [hc₂]; simp))
      have hsub' : rs ⊆ l :: (ls ++ rs) :=
        fun z hz => List.mem_cons_of_mem _ (List.mem_append_right _ hz)
      refine ⟨h₃, hdown.trans (.head ?_), (hk'.trans (Heap.keeps_set (List.mem_cons_self ..))).trans
        (hk₃.mono hsub'), ((hset₁.trans hs₂).trans hset₂).trans hs₃⟩
      rw [step_up hc₂, pop_right (n := n.onStack .doingleft stack) htype rfl hgo hright, if_pos hgo]
      refine hrun'.trans (.head ?_)
      rw [step_up hc₃, pop_binary (n := (n.onStack .doingleft stack).onStack .doingright stack) htype (.inl rfl)]
      exact .refl _
    · refine ⟨h₂, hdown.trans (.head ?_), hk', hset₁.trans hs₂⟩
      rw [step_up hc₂, pop_binary (n := n.onStack .doingleft stack) htype (.inr (by simpa using hgo)), if_neg hgo]
      exact .refl _

/-- A test returns the value of the expression, and leaves the tree. -/
theorem globtreeTest_eq (hr : Rep h l e ls) (path : List Byte) {h₁ : Heap (Node R)}
    (hs₁ : SameShape h h₁) :
    ∃ h' n, SameShape h h' ∧ ∀ fuel, n ≤ fuel →
      globtreeTest m fuel (l, h₁) path = some (e.eval path, h') := by
  obtain ⟨h', hrun, -, hs'⟩ := reach_eval hr path none hs₁
  have hdone : Reach (Walk.step m path) ⟨h₁, none, .down l⟩ ⟨h', none, .done (e.eval path)⟩ :=
    hrun.trans (.head (.refl _))
  obtain ⟨n, hn⟩ := hdone.stay rfl
  refine ⟨h', n, hs₁.trans hs', fun fuel hf => ?_⟩
  simp only [globtreeTest, hn fuel hf]

theorem globtreeTests_eq (hr : Rep h l e ls) (paths : List (List Byte)) {h₁ : Heap (Node R)}
    (hs₁ : SameShape h h₁) :
    ∃ n, ∀ fuel, n ≤ fuel →
      globtreeTests m fuel (l, h₁) paths = some (paths.map fun path => e.eval path) := by
  induction paths generalizing h₁ with
  | nil => exact ⟨0, fun _ _ => rfl⟩
  | cons path paths ih =>
    obtain ⟨h', n, hs', htest⟩ := globtreeTest_eq hr path hs₁
    obtain ⟨k, htests⟩ := ih hs'
    refine ⟨n + k, fun fuel hf => ?_⟩
    simp only [globtreeTests, htest fuel (by omega), htests fuel (by omega), Option.map_some,
      List.map_cons]

/-- The tree of an expression can be made in every heap, and tests of any paths, one
after the other, return its values: they end, and no assertion fails. -/
theorem globtreeTests_build (m : Matchers R) (h : Heap (Node R)) (e : Expr m)
    (paths : List (List Byte)) :
    ∃ t n, build h e = .ok t ∧ ∀ fuel, n ≤ fuel →
      globtreeTests m fuel t paths = some (paths.map fun path => e.eval path) := by
  obtain ⟨t, hb, ls, hr, -⟩ := build_makes h e
  have hs : SameShape t.2 t.2 := fun _ => rfl
  obtain ⟨n, hn⟩ := globtreeTests_eq hr paths hs
  refine ⟨t, n, hb, fun fuel hf => ?_⟩
  rw [show t = (t.1, t.2) from rfl, hn fuel hf]
  simp only [Expr.eval_simplified]

end Csup.Globtree
