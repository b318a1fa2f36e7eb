import Csup.Globtree.Defs

/-!
# Boolean expressions and the trees that hold them

`Expr` are the expressions over primitive matches, `build` makes the tree of one
with the constructors of `globtree.c`. The constructors simplify, so the tree is
that of another expression with the same values (`Expr.simplified`); `Rep` says
that nodes of the heap are the tree of an expression.

* `Rep.congr`: a tree does not depend on what `globtree_test` writes;
* `freeTree_rep`: a tree is freed with all its nodes and no others;
* `build_rep`: what the constructors make.
-/

namespace Csup.Globtree

open Csup.Framework

variable {R : Type*} {m : Matchers R}

/-- A pattern that `regcomp` accepts. -/
structure RegexPattern (m : Matchers R) where
  text : List Byte
  regex : R
  compiles : m.regcomp text = some regex

/-- The expressions that can be written with the constructors. -/
inductive Expr (m : Matchers R)
  | true
  | false
  | matching (pattern : List Byte) (flags : Nat)
  | regex (pattern : RegexPattern m)
  | not (e : Expr m)
  | binary (op : Op) (left right : Expr m)

/-- The value of an operator. -/
def Op.apply : Op → Bool → Bool → Bool
  | and, a, b => a && b
  | or, a, b => a || b

theorem Op.apply_eq (op : Op) (a b : Bool) : op.apply a b = if op.goesOn a then b else a := by
  cases op <;> cases a <;> rfl

namespace Expr

def eval (path : List Byte) : Expr m → Bool
  | true => Bool.true
  | false => Bool.false
  | matching pattern flags => m.fnmatch pattern path flags = 0
  | regex pattern => m.regexec pattern.regex path = 0
  | not e => !e.eval path
  | binary op left right => op.apply (left.eval path) (right.eval path)

def type : Expr m → NodeType
  | true => .true
  | false => .false
  | matching .. => .matching
  | regex _ => .regex
  | not _ => .not
  | binary op .. => op.type

def data : Expr m → Option (Data R)
  | matching pattern _ => some (.pattern pattern)
  | regex pattern => some (.regex pattern.regex)
  | _ => none

def flags : Expr m → Nat
  | matching _ flags => flags
  | _ => 0

/-- Whether there are no operands. -/
def isLeaf : Expr m → Bool
  | not _ => Bool.false
  | binary .. => Bool.false
  | _ => Bool.true

def ofZero : Op → Expr m
  | .and => false
  | .or => true

/-- What `globtree_and` and `globtree_or` make of two expressions. -/
def simplify (op : Op) (a b : Expr m) : Expr m :=
  if a.type = op.zero ∨ b.type = op.zero then ofZero op
  else if a.type = op.unit then b
  else if b.type = op.unit then a
  else binary op a b

/-- What `globtree_not` makes of an expression. -/
def negate (e : Expr m) : Expr m :=
  if e.type = .true then false else if e.type = .false then true else not e

/-- The expression whose tree the constructors make. -/
def simplified : Expr m → Expr m
  | not e => e.simplified.negate
  | binary op a b => simplify op a.simplified b.simplified
  | e => e

theorem eq_true_of_type {e : Expr m} (h : e.type = .true) : e = true := by
  cases e with
  | binary op => cases op <;> cases h
  | true => rfl
  | _ => cases h

theorem eq_false_of_type {e : Expr m} (h : e.type = .false) : e = false := by
  cases e with
  | binary op => cases op <;> cases h
  | false => rfl
  | _ => cases h

theorem type_ofZero (op : Op) : (ofZero op : Expr m).type = op.zero := by cases op <;> rfl

theorem eval_negate (e : Expr m) (path : List Byte) : e.negate.eval path = !e.eval path := by
  simp only [negate]
  split
  · rename_i h
    rw [eq_true_of_type h]
    rfl
  · split
    · rename_i h
      rw [eq_false_of_type h]
      rfl
    · rfl

theorem eval_simplify (op : Op) (a b : Expr m) (path : List Byte) :
    (simplify op a b).eval path = op.apply (a.eval path) (b.eval path) := by
  simp only [simplify]
  cases op with
  | and =>
    split
    · rename_i h
      rcases h with h | h <;> rw [eq_false_of_type h] <;> simp [ofZero, eval, Op.apply]
    · split
      · rename_i h
        rw [eq_true_of_type h]
        simp [eval, Op.apply]
      · split
        · rename_i h
          rw [eq_true_of_type (e := b) h]
          simp [eval, Op.apply]
        · rfl
  | or =>
    split
    · rename_i h
      rcases h with h | h <;> rw [eq_true_of_type h] <;> simp [ofZero, eval, Op.apply]
    · split
      · rename_i h
        rw [eq_false_of_type (e := a) h]
        simp [eval, Op.apply]
      · split
        · rename_i h
          rw [eq_false_of_type (e := b) h]
          simp [eval, Op.apply]
        · rfl

theorem eval_simplified (e : Expr m) (path : List Byte) :
    e.simplified.eval path = e.eval path := by
  induction e with
  | not e ih => rw [simplified, eval_negate, ih, eval]
  | binary op a b iha ihb => rw [simplified, eval_simplify, iha, ihb, eval]
  | _ => rfl

/-- The node of an expression, as it is made. -/
def node (e : Expr m) (left right : Option Loc) : Node R :=
  ⟨e.type, left, right, e.data, e.flags, none, none⟩

end Expr

/-! ## Trees -/

/-- A node without what `globtree_test` writes. -/
def Node.erase (n : Node R) : Node R := { n with state := none, stackNext := none }

/-- What is at `l`, but for what `globtree_test` writes. -/
def shape (h : Heap (Node R)) (l : Loc) : Option (Node R) := (h.cell l).map Node.erase

/-- The nodes `ls` are the tree of the expression, with its root at `l`. -/
inductive Rep (h : Heap (Node R)) : Loc → Expr m → List Loc → Prop
  | leaf {l : Loc} {e : Expr m} : e.isLeaf = true → shape h l = some (e.node none none) →
    Rep h l e [l]
  | not {l c : Loc} {e : Expr m} {ls : List Loc} :
    shape h l = some ((Expr.not e).node (some c) none) → Rep h c e ls → l ∉ ls →
    Rep h l (.not e) (l :: ls)
  | binary {op : Op} {l x y : Loc} {a b : Expr m} {ls rs : List Loc} :
    shape h l = some ((Expr.binary op a b).node (some x) (some y)) → Rep h x a ls → Rep h y b rs →
    l ∉ ls → l ∉ rs → ls.Disjoint rs → Rep h l (.binary op a b) (l :: (ls ++ rs))

variable {h h' : Heap (Node R)} {l r : Loc} {e a b : Expr m} {ls rs : List Loc} {n : Node R}

theorem shape_eq_some (hs : shape h l = some n) : ∃ n', h.cell l = some n' ∧ n'.erase = n :=
  Option.map_eq_some_iff.mp hs

theorem shape_of_cell (hc : h'.cell l = h.cell l) : shape h' l = shape h l := by
  rw [shape, shape, hc]

theorem Rep.congr (hr : Rep h l e ls) (hs : ∀ x ∈ ls, shape h' x = shape h x) :
    Rep h' l e ls := by
  induction hr with
  | leaf hl hsh => exact .leaf hl (by rw [hs _ (List.mem_singleton_self _), hsh])
  | not hsh _ hl ih =>
    refine .not ?_ (ih fun x hx => hs x (List.mem_cons_of_mem _ hx)) hl
    rw [hs _ (List.mem_cons_self ..), hsh]
  | binary hsh _ _ hl hr' hd iha ihb =>
    refine .binary ?_ (iha fun x hx => hs x ?_) (ihb fun x hx => hs x ?_) hl hr' hd
    · rw [hs _ (List.mem_cons_self ..), hsh]
    · exact List.mem_cons_of_mem _ (List.mem_append_left _ hx)
    · exact List.mem_cons_of_mem _ (List.mem_append_right _ hx)

theorem Rep.keeps {ks : List Loc} (hr : Rep h l e ls) (hk : Heap.Keeps ks h h')
    (hd : ls.Disjoint ks) : Rep h' l e ls :=
  hr.congr fun _ hx => shape_of_cell (hk _ fun hm => hd hx hm)

theorem Rep.root_mem (hr : Rep h l e ls) : l ∈ ls := by
  cases hr with
  | leaf => exact List.mem_singleton_self _
  | not => exact List.mem_cons_self ..
  | binary => exact List.mem_cons_self ..

theorem Rep.mem_shape (hr : Rep h l e ls) : ∀ x ∈ ls, h.cell x ≠ none := by
  have hne : ∀ {l : Loc} {n : Node R}, shape h l = some n → h.cell l ≠ none := by
    intro l n hs hc
    rw [shape, hc] at hs
    cases hs
  induction hr with
  | leaf _ hs => exact fun x hx => List.mem_singleton.mp hx ▸ hne hs
  | not hs _ _ ih =>
    intro x hx
    rcases List.mem_cons.mp hx with rfl | hx
    · exact hne hs
    · exact ih x hx
  | binary hs _ _ _ _ _ iha ihb =>
    intro x hx
    rcases List.mem_cons.mp hx with rfl | hx
    · exact hne hs
    · rcases List.mem_append.mp hx with hx | hx
      · exact iha x hx
      · exact ihb x hx

theorem Rep.nodup (hr : Rep h l e ls) : ls.Nodup := by
  induction hr with
  | leaf => exact List.nodup_singleton _
  | not _ _ hl ih => exact List.nodup_cons.mpr ⟨hl, ih⟩
  | binary _ _ _ hl hr hd iha ihb =>
    refine List.nodup_cons.mpr ⟨?_, List.Nodup.append iha ihb hd⟩
    exact fun hm => (List.mem_append.mp hm).elim hl hr

/-- The root, as the constructors look at it. -/
theorem Rep.deref (hr : Rep h l e ls) : ∃ n, deref h l = .ok n ∧ n.type = e.type := by
  have hroot : ∃ left right, shape h l = some (e.node left right) := by
    cases hr with
    | leaf _ hs => exact ⟨_, _, hs⟩
    | not hs => exact ⟨_, _, hs⟩
    | binary hs => exact ⟨_, _, hs⟩
  obtain ⟨left, right, hs⟩ := hroot
  obtain ⟨n, hc, he⟩ := shape_eq_some hs
  refine ⟨n, by rw [Globtree.deref, hc], ?_⟩
  exact congrArg Node.type he

/-! ## Freed trees -/

theorem keeps_free_of_keeps {ks : List Loc} (hk : Heap.Keeps ls h h') (hs : ls ⊆ ks)
    (hl : l ∈ ks) : Heap.Keeps ks h (h'.free l) :=
  (hk.mono hs).trans (Heap.keeps_free hl)

theorem cell_free_none {x : Loc} (hx : x = l ∨ h.cell x = none) : (h.free l).cell x = none := by
  by_cases hxl : x = l
  · rw [hxl, Heap.cell_free_self]
  · rw [Heap.cell_free_of_ne hxl]
    exact hx.resolve_left hxl

/-- A tree is freed with all its nodes and no others. -/
theorem freeTree_rep {fuel : Nat} (hr : Rep h l e ls) (hf : ls.length ≤ fuel) :
    ∃ h', freeTree fuel h l = .ok h' ∧ Heap.Keeps ls h h' ∧ (∀ x ∈ ls, h'.cell x = none) ∧
      h'.next = h.next := by
  induction fuel generalizing h l e ls with
  | zero =>
    have := List.length_pos_of_mem hr.root_mem
    omega
  | succ fuel ih =>
    cases hr with
    | leaf hl hs =>
      obtain ⟨n, hc, he⟩ := shape_eq_some hs
      have hleft : n.left = none := congrArg Node.left he
      have hright : n.right = none := congrArg Node.right he
      refine ⟨h.free l, ?_, Heap.keeps_free (List.mem_singleton_self _), ?_, rfl⟩
      · simp [freeTree, deref, hc, hleft, hright, bind, Except.bind]
      · intro x hx
        rw [List.mem_singleton.mp hx, Heap.cell_free_self]
    | @not l c e ls hs hr hl =>
      obtain ⟨h₁, hfree, hk, hnone, hnext⟩ := ih hr (by rw [List.length_cons] at hf; omega)
      obtain ⟨n, hc, he⟩ := shape_eq_some hs
      have hleft : n.left = some c := congrArg Node.left he
      have hright : n.right = none := congrArg Node.right he
      refine ⟨h₁.free l, ?_, keeps_free_of_keeps hk (List.subset_cons_self ..)
        (List.mem_cons_self ..), ?_, hnext⟩
      · simp [freeTree, deref, hc, hleft, hright, hfree, bind, Except.bind]
      · exact fun x hx => cell_free_none ((List.mem_cons.mp hx).imp_right (hnone x))
    | @binary op l x y a b ls rs hs hra hrb hl hlr hd =>
      rw [List.length_cons, List.length_append] at hf
      obtain ⟨h₁, hfree₁, hk₁, hnone₁, hnext₁⟩ := ih hra (by omega)
      -- the right operand has no node in common with the left one
      obtain ⟨h₂, hfree₂, hk₂, hnone₂, hnext₂⟩ := ih (hrb.keeps hk₁ fun _ h h' => hd h' h)
        (by omega)
      obtain ⟨n, hc, he⟩ := shape_eq_some hs
      have hleft : n.left = some x := congrArg Node.left he
      have hright : n.right = some y := congrArg Node.right he
      have hk : Heap.Keeps (ls ++ rs) h h₂ :=
        (hk₁.mono (List.subset_append_left ..)).trans (hk₂.mono (List.subset_append_right ..))
      refine ⟨h₂.free l, ?_, keeps_free_of_keeps hk (List.subset_cons_self ..)
        (List.mem_cons_self ..), ?_, hnext₂.trans hnext₁⟩
      · simp [freeTree, deref, hc, hleft, hright, hfree₁, hfree₂, bind, Except.bind]
      · intro z hz
        refine cell_free_none ((List.mem_cons.mp hz).imp_right fun hz => ?_)
        by_cases hzr : z ∈ rs
        · exact hnone₂ z hzr
        · rw [hk₂ z hzr]
          exact hnone₁ z ((List.mem_append.mp hz).resolve_right hzr)

theorem globtreeFree_rep (hr : Rep h l e ls) :
    ∃ h', globtreeFree h l = .ok h' ∧ Heap.Keeps ls h h' ∧ h'.next = h.next := by
  obtain ⟨h', hfree, hk, -, hnext⟩ :=
    freeTree_rep hr (Heap.length_le_next hr.nodup hr.mem_shape)
  exact ⟨h', hfree, hk, hnext⟩

/-! ## Constructors -/

/-- A tree made from those with the nodes `ks`: its other nodes are new, and no
other node is touched. -/
def Makes (h : Heap (Node R)) (ks : List Loc) (e : Expr m) (t : Tree R) : Prop :=
  ∃ us, Rep t.2 t.1 e us ∧ (∀ x ∈ us, x ∈ ks ∨ h.next ≤ x) ∧
    (∀ x < h.next, x ∉ ks → t.2.cell x = h.cell x) ∧ h.next ≤ t.2.next

theorem Makes.of_keeps {ks : List Loc} {t : Tree R} (hk : Heap.Keeps ks h h')
    (hn : h'.next = h.next) (ht : Makes h' ks e t) : Makes h ks e t := by
  obtain ⟨us, hr, hus, hcell, hnext⟩ := ht
  rw [hn] at hus hcell hnext
  exact ⟨us, hr, hus, fun x hx hxk => (hcell x hx hxk).trans (hk x hxk), hnext⟩

/-- A new leaf. -/
theorem alloc_makes (h : Heap (Node R)) (ks : List Loc) (hl : e.isLeaf = true)
    (hn : n.erase = e.node none none) : Makes h ks e (h.alloc n) := by
  refine ⟨[h.next], .leaf hl ?_, ?_, ?_, Nat.le_succ _⟩
  · rw [shape, Heap.alloc_fst, Heap.cell_alloc_self, Option.map_some, hn]
  · intro x hx
    exact .inr (Nat.le_of_eq (List.mem_singleton.mp hx).symm)
  · exact fun x hx _ => Heap.cell_alloc_of_lt hx

theorem alloc_leaf_makes (h : Heap (Node R)) (ks : List Loc) {type : NodeType}
    (ht : type = .true ∨ type = .false) (he : e.type = type) :
    Makes h ks e (h.alloc (globtreeNew type)) := by
  rcases ht with rfl | rfl
  · rw [Expr.eq_true_of_type he]
    exact alloc_makes h ks rfl rfl
  · rw [Expr.eq_false_of_type he]
    exact alloc_makes h ks rfl rfl

theorem globtreeBinary_makes (op : Op) (ha : Rep h l a ls) (hb : Rep h r b rs)
    (hd : ls.Disjoint rs) :
    ∃ t, globtreeBinary op h l r = .ok t ∧ Makes h (ls ++ rs) (Expr.simplify op a b) t := by
  obtain ⟨nl, hnl, htl⟩ := ha.deref
  obtain ⟨nr, hnr, htr⟩ := hb.deref
  have hsub : ∀ {x : Loc}, x ∉ ls ++ rs → x ∉ ls ∧ x ∉ rs := fun hx =>
    not_or.mp (mt List.mem_append.mpr hx)
  simp only [globtreeBinary, hnl, hnr, htl, htr, bind, Except.bind, Expr.simplify]
  split
  · obtain ⟨h₁, hf₁, hk₁, hn₁⟩ := globtreeFree_rep ha
    obtain ⟨h₂, hf₂, hk₂, hn₂⟩ := globtreeFree_rep (hb.keeps hk₁ fun _ h h' => hd h' h)
    have hk : Heap.Keeps (ls ++ rs) h h₂ :=
      (hk₁.mono (List.subset_append_left ..)).trans (hk₂.mono (List.subset_append_right ..))
    refine ⟨h₂.alloc (globtreeNew op.zero), by simp only [hf₁, hf₂], ?_⟩
    refine .of_keeps hk (hn₂.trans hn₁) (alloc_leaf_makes _ _ ?_ (Expr.type_ofZero op))
    cases op
    · exact .inr rfl
    · exact .inl rfl
  · split
    · -- the right operand alone
      obtain ⟨h₁, hf₁, hk₁, hn₁⟩ := globtreeFree_rep ha
      refine ⟨(r, h₁), by simp only [hf₁], rs, hb.keeps hk₁ fun _ h h' => hd h' h, ?_, ?_,
        Nat.le_of_eq hn₁.symm⟩
      · exact fun x hx => .inl (List.mem_append_right _ hx)
      · exact fun x _ hx => hk₁ x (hsub hx).1
    · split
      · -- the left operand alone
        obtain ⟨h₁, hf₁, hk₁, hn₁⟩ := globtreeFree_rep hb
        refine ⟨(l, h₁), by simp only [hf₁], ls, ha.keeps hk₁ hd, ?_, ?_,
          Nat.le_of_eq hn₁.symm⟩
        · exact fun x hx => .inl (List.mem_append_left _ hx)
        · exact fun x _ hx => hk₁ x (hsub hx).2
      · -- a new node over both
        have hold : ∀ {x : Loc} {e : Expr m} {us : List Loc}, Rep h x e us →
            h.next ∉ us ∧ ∀ n, Rep (h.alloc n).2 x e us := by
          intro x e us hu
          have hlt : ∀ z ∈ us, z < h.next := fun z hz => Heap.lt_next (hu.mem_shape z hz)
          refine ⟨fun hm => Nat.lt_irrefl _ (hlt _ hm), fun n => ?_⟩
          exact hu.congr fun z hz => shape_of_cell (Heap.cell_alloc_of_lt (hlt z hz))
        refine ⟨_, rfl, h.next :: (ls ++ rs), .binary ?_ ((hold ha).2 _) ((hold hb).2 _)
          (hold ha).1 (hold hb).1 hd, ?_, ?_, Nat.le_succ _⟩
        · rw [shape, Heap.alloc_fst, Heap.cell_alloc_self, Option.map_some]
          rfl
        · intro x hx
          rcases List.mem_cons.mp hx with rfl | hx
          · exact .inr (Nat.le_refl _)
          · exact .inl hx
        · exact fun x hx _ => Heap.cell_alloc_of_lt hx

theorem globtreeNot_makes (hr : Rep h l e ls) :
    ∃ t, globtreeNot h l = .ok t ∧ Makes h ls e.negate t := by
  obtain ⟨n, hn, ht⟩ := hr.deref
  simp only [globtreeNot, hn, ht, bind, Except.bind, Expr.negate]
  split
  · obtain ⟨h₁, hf₁, hk₁, hn₁⟩ := globtreeFree_rep hr
    exact ⟨_, by simp only [hf₁], .of_keeps hk₁ hn₁ (alloc_leaf_makes _ _ (.inr rfl) rfl)⟩
  · split
    · obtain ⟨h₁, hf₁, hk₁, hn₁⟩ := globtreeFree_rep hr
      exact ⟨_, by simp only [hf₁], .of_keeps hk₁ hn₁ (alloc_leaf_makes _ _ (.inl rfl) rfl)⟩
    · have hlt : ∀ z ∈ ls, z < h.next := fun z hz => Heap.lt_next (hr.mem_shape z hz)
      refine ⟨_, rfl, h.next :: ls, .not ?_ (hr.congr fun z hz =>
        shape_of_cell (Heap.cell_alloc_of_lt (hlt z hz))) (fun hm => Nat.lt_irrefl _ (hlt _ hm)),
        ?_, ?_, Nat.le_succ _⟩
      · rw [shape, Heap.alloc_fst, Heap.cell_alloc_self, Option.map_some]
        rfl
      · intro x hx
        rcases List.mem_cons.mp hx with rfl | hx
        · exact .inr (Nat.le_refl _)
        · exact .inl hx
      · exact fun x hx _ => Heap.cell_alloc_of_lt hx

/-- The tree of an expression, made by the constructors. -/
def build (h : Heap (Node R)) : Expr m → Except Fault (Tree R)
  | .true => .ok (globtreeTrue h)
  | .false => .ok (globtreeFalse h)
  | .matching pattern flags => .ok (globtreeMatch h pattern flags)
  | .regex pattern => globtreeRegex m h pattern.text
  | .not e => do
    let t ← build h e
    globtreeNot t.2 t.1
  | .binary op a b => do
    let left ← build h a
    let right ← build left.2 b
    match op with
    | .and => globtreeAnd right.2 left.1 right.1
    | .or => globtreeOr right.2 left.1 right.1

/-- The constructors make the tree of the simplified expression, of new nodes. -/
theorem build_makes (h : Heap (Node R)) (e : Expr m) :
    ∃ t, build h e = .ok t ∧ Makes h [] e.simplified t := by
  induction e generalizing h with
  | true => exact ⟨_, rfl, alloc_makes h [] rfl rfl⟩
  | false => exact ⟨_, rfl, alloc_makes h [] rfl rfl⟩
  | matching pattern flags => exact ⟨_, rfl, alloc_makes h [] rfl rfl⟩
  | regex pattern =>
    refine ⟨_, by rw [build, globtreeRegex, pattern.compiles], alloc_makes h [] rfl rfl⟩
  | not e ih =>
    obtain ⟨t, hb, us, hr, hus, hcell, hnext⟩ := ih h
    obtain ⟨t', hn, vs, hr', hvs, hcell', hnext'⟩ := globtreeNot_makes hr
    refine ⟨t', by simp only [build, hb, bind, Except.bind, hn], vs, hr', ?_, ?_, Nat.le_trans hnext hnext'⟩
    · intro x hx
      rcases hvs x hx with hx | hx
      · exact hus x hx
      · exact .inr (Nat.le_trans hnext hx)
    · intro x hx hno
      rw [hcell' x (Nat.lt_of_lt_of_le hx hnext) fun hm => ?_, hcell x hx hno]
      have := (hus x hm).resolve_left (List.not_mem_nil)
      omega
  | binary op a b iha ihb =>
    obtain ⟨tl, hbl, ls, hrl, hls, hcl, hnl⟩ := iha h
    obtain ⟨tr, hbr, rs, hrr, hrs, hcr, hnr⟩ := ihb tl.2
    have hlt : ∀ z ∈ ls, z < tl.2.next := fun z hz => Heap.lt_next (hrl.mem_shape z hz)
    have hge : ∀ z ∈ rs, tl.2.next ≤ z := fun z hz => (hrs z hz).resolve_left List.not_mem_nil
    have hd : ls.Disjoint rs := fun z hz hz' =>
      Nat.lt_irrefl z (Nat.lt_of_lt_of_le (hlt z hz) (hge z hz'))
    have hrl' : Rep tr.2 tl.1 a.simplified ls :=
      hrl.congr fun z hz => shape_of_cell (hcr z (hlt z hz) List.not_mem_nil)
    obtain ⟨t, ht, us, hr, hus, hcell, hnext⟩ := globtreeBinary_makes op hrl' hrr hd
    refine ⟨t, ?_, us, hr, ?_, ?_, Nat.le_trans hnl (Nat.le_trans hnr hnext)⟩
    · cases op
      · simpa only [build, hbl, hbr, bind, Except.bind, globtreeAnd] using ht
      · simpa only [build, hbl, hbr, bind, Except.bind, globtreeOr] using ht
    · intro x hx
      refine .inr ?_
      rcases hus x hx with hx | hx
      · rcases List.mem_append.mp hx with hx | hx
        · exact (hls x hx).resolve_left List.not_mem_nil
        · exact Nat.le_trans hnl (hge x hx)
      · exact Nat.le_trans hnl (Nat.le_trans hnr hx)
    · intro x hx hno
      have hxl : x ∉ ls := fun hm => by
        have := (hls x hm).resolve_left List.not_mem_nil
        omega
      have hxr : x ∉ rs := fun hm => by
        have := hge x hm
        omega
      rw [hcell x (by omega) fun hm => (List.mem_append.mp hm).elim hxl hxr,
        hcr x (by omega) List.not_mem_nil, hcl x hx hno]

end Csup.Globtree
