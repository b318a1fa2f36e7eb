import Csup.Framework.Lineage
import Csup.Rcs.Order
import Csup.Rcs.Walk

/-!
# Revisions

What an RCS file is for: it has a text for each of some revisions (`Repo`), which are on the
trunk or on branches as their numbers say (`revisions`). A revision is based on another one when
what is kept of it is the difference to that one.

* `Repo.Sound.commit`, `Repo.Sound.remove`: the changes that leave each revision based on the one
  it comes behind, or the other way round;
* `child_of_headerChildren`, `next_of_nextOf`, `branch_of_firstOf`: the children of a delta in
  memory are those that the numbers say.
-/

namespace Csup.Rcs

open Csup.Framework

/-! ## Numbers -/

/-- The number of the list of a revision, none for the trunk. A number without a dot has a list of
its own, and is in no file. -/
def revLine (r : Revnum) : Option Revnum :=
  if r.count dot = 1 then none else some ((rcsrevPrefix r).getD r)

/-- The trunk goes down, a branch goes up. -/
def Behind (r r' : Revnum) : Prop :=
  revLine r = revLine r' ∧
    if revLine r = none then rcsnumCmp r r' = .gt else rcsnumCmp r r' = .lt

theorem revLine_eq_none {r : Revnum} : revLine r = none ↔ r.count dot = 1 := by
  unfold revLine
  split <;> simp [*]

theorem revLine_eq_some {r brev : Revnum} (hr : 0 < r.count dot) :
    revLine r = some brev ↔ r.count dot ≠ 1 ∧ rcsrevPrefix r = some brev := by
  unfold revLine
  cases hp : rcsrevPrefix r with
  | none => have := rcsrevPrefix_eq_none.mp hp; omega
  | some p => by_cases h1 : r.count dot = 1 <;> simp [h1]

/-- The numbers of a list have as many dots. -/
theorem count_of_revLine {r r' : Revnum} (h : revLine r = revLine r') :
    r.count dot = r'.count dot := by
  cases hl : revLine r with
  | none => rw [revLine_eq_none.mp hl, revLine_eq_none.mp (h ▸ hl)]
  | some p =>
    have hl' : revLine r' = some p := h ▸ hl
    rcases Nat.eq_zero_or_pos (r.count dot) with h0 | h0
    · rcases Nat.eq_zero_or_pos (r'.count dot) with h0' | h0'
      · rw [h0, h0']
      · obtain ⟨h1, hp⟩ := (revLine_eq_some h0').mp hl'
        have hpr : p = r := by simpa [revLine, h0, rcsrevPrefix_eq_none.mpr h0] using hl.symm
        have := count_of_rcsrevPrefix hp
        rw [hpr, h0] at this
        omega
    · obtain ⟨h1, hp⟩ := (revLine_eq_some h0).mp hl
      rcases Nat.eq_zero_or_pos (r'.count dot) with h0' | h0'
      · have hpr : p = r' := by simpa [revLine, h0', rcsrevPrefix_eq_none.mpr h0'] using hl'.symm
        have := count_of_rcsrevPrefix hp
        rw [hpr, h0'] at this
        omega
      · exact count_eq_of_rcsrevPrefix hp ((revLine_eq_some h0').mp hl').2

theorem Behind.trans {a b c : Revnum} (h : Behind a b) (h' : Behind b c) : Behind a c := by
  obtain ⟨hl, hc⟩ := h
  obtain ⟨hl', hc'⟩ := h'
  rw [← hl] at hc'
  refine ⟨hl.trans hl', ?_⟩
  split
  · rename_i hn
    rw [if_pos hn] at hc hc'
    exact rcsnumCmp_gt_trans hc hc'
  · rename_i hn
    rw [if_neg hn] at hc hc'
    exact rcsnumCmp_lt_trans hc hc'

theorem Behind.total {a b : Revnum} (hl : revLine a = revLine b) (hne : a ≠ b) :
    Behind a b ∨ Behind b a := by
  have heq := rcsnumCmp_ne_eq hne (count_of_revLine hl)
  unfold Behind
  rw [← hl]
  cases hc : rcsnumCmp a b with
  | eq => exact absurd hc heq
  | lt => by_cases hn : revLine a = none <;> simp [hn, swap_gt hc]
  | gt => by_cases hn : revLine a = none <;> simp [hn, swap_lt hc]

/-- The lists of revisions, and where branches are. -/
def revisions : Lineage Revnum (Option Revnum) where
  line := revLine
  point l := l.bind rcsrevPrefix
  before := Behind
  trans := Behind.trans
  irrefl a h := by
    have := h.2
    rw [rcsnumCmp_self] at this
    split at this <;> cases this
  total := Behind.total
  point_ne a h := by
    obtain ⟨p, hl, hp⟩ := Option.bind_eq_some_iff.mp h
    have hcount := count_of_rcsrevPrefix hp
    rcases Nat.eq_zero_or_pos (a.count dot) with h0 | h0
    · have hpa : p = a := by simpa [revLine, h0, rcsrevPrefix_eq_none.mpr h0] using hl.symm
      rw [hpa] at hcount
      omega
    · have := count_of_rcsrevPrefix ((revLine_eq_some h0).mp hl).2
      omega

/-! ## Repositories -/

/-- The text of a revision, and the revision it is based on. -/
structure Rev where
  text : List Byte
  base : Option Revnum

abbrev Repo := Revnum → Option Rev

namespace Repo

variable (s : Repo)

def dom : Set Revnum := {r | (s r).isSome}

def base (r : Revnum) : Option Revnum := (s r).bind Rev.base

/-- A new revision, based on `b`. -/
def commit (r b : Revnum) (text : List Byte) : Repo := Function.update s r (some ⟨text, some b⟩)

def remove (r : Revnum) : Repo := Function.update s r none

/-- The revisions have numbers, and the ones their branches are at; of a revision and the one
behind it one is based on the other. -/
structure Sound : Prop where
  numbered : ∀ r ∈ s.dom, 0 < r.count dot
  grounded : revisions.Grounded s.dom
  bonded : revisions.Bonded s.dom s.base

variable {s} {r b : Revnum} {text : List Byte}

theorem commit_self : s.commit r b text r = some ⟨text, some b⟩ := Function.update_self ..

theorem commit_of_ne {x : Revnum} (hx : x ≠ r) : s.commit r b text x = s x :=
  Function.update_of_ne hx _ _

theorem remove_self : s.remove r r = none := Function.update_self ..

theorem remove_of_ne {x : Revnum} (hx : x ≠ r) : s.remove r x = s x := Function.update_of_ne hx _ _

theorem dom_commit : (s.commit r b text).dom = insert r s.dom := by
  ext x
  by_cases hx : x = r <;> simp [dom, commit, hx]

theorem base_commit : (s.commit r b text).base = Function.update s.base r (some b) := by
  funext x
  by_cases hx : x = r <;> simp [base, commit, hx]

theorem dom_remove : (s.remove r).dom = s.dom \ {r} := by
  ext x
  by_cases hx : x = r <;> simp [dom, remove, hx]

theorem base_remove {x : Revnum} (hx : x ≠ r) : (s.remove r).base x = s.base x := by
  rw [base, remove, Function.update_of_ne hx, base]

/-- A revision that may be added: its number is new, and at an end of its list. -/
structure Extends (s : Repo) (b r : Revnum) : Prop where
  numbered : 0 < r.count dot
  new : r ∉ s.dom
  base : b ∈ s.dom
  follows : revisions.Follows s.dom b r

/-- A revision that may be deleted: it is not the only one of its list, none is based on it, and
it has no branches. -/
structure Spares (s : Repo) (r : Revnum) : Prop where
  mem : r ∈ s.dom
  other : ∃ x ∈ s.dom, x ≠ r ∧ revLine x = revLine r
  free : ∀ x ∈ s.dom, s.base x ≠ some r
  branchless : ∀ x ∈ s.dom, revisions.point (revLine x) ≠ some r

theorem Sound.commit (h : s.Sound) (hx : s.Extends b r) : (s.commit r b text).Sound := by
  refine ⟨fun x hxd => ?_, ?_, ?_⟩
  · rw [dom_commit] at hxd
    rcases Set.mem_insert_iff.mp hxd with rfl | hxd
    · exact hx.numbered
    · exact h.numbered x hxd
  · rw [dom_commit]
    exact h.grounded.insert hx.base hx.follows
  · rw [dom_commit, base_commit]
    exact h.bonded.insert h.grounded hx.new hx.base hx.follows

theorem Sound.remove (h : s.Sound) (hx : s.Spares r) : (s.remove r).Sound := by
  refine ⟨fun x hxd => ?_, ?_, fun a x hc => ?_⟩
  · rw [dom_remove] at hxd
    exact h.numbered x hxd.1
  · rw [dom_remove]
    exact h.grounded.erase hx.branchless
  · rw [dom_remove] at hc
    rw [base_remove hc.child_mem.2, base_remove hc.parent_mem.2]
    exact h.bonded.erase hx.mem hx.free a x hc

end Repo

/-! ## The tree of deltas -/

variable {rf : RcsFile}

/-- The revisions of the deltas of the tree. -/
def RcsFile.revs (rf : RcsFile) : Set Revnum := {r | ∃ p ∈ rf.members, rf.revnum p = r}

theorem mem_revs {p : Ptr} (hp : p ∈ rf.members) : rf.revnum p ∈ rf.revs := ⟨p, hp, rfl⟩

theorem IsNode.mem_revs {n : Node} (hn : IsNode rf n) : rf.revnum n.1 ∈ rf.revs :=
  Rcs.mem_revs hn.mem

section

variable (h : Sorted rf) (hi : Inv rf [])

include h

theorem Sorted.count_branch {p : Ptr} (hp : p ∈ rf.deltatable) {b : Branch} (hb : b ∈ rf.branches p)
    {x : Ptr} (hx : x ∈ b.deltalist) : (rf.revnum x).count dot = (rf.revnum p).count dot + 2 := by
  rw [count_of_rcsrevPrefix ((h.branches p hp).deltaNum b hb x hx),
    count_of_rcsrevPrefix ((h.branches p hp).branchNum b hb)]

theorem Sorted.revLine_branch {p : Ptr} (hp : p ∈ rf.deltatable) {b : Branch}
    (hb : b ∈ rf.branches p) {x : Ptr} (hx : x ∈ b.deltalist) :
    revLine (rf.revnum x) = some b.revnum := by
  have := h.count_branch hp hb hx
  exact (revLine_eq_some (by omega)).mpr ⟨by omega, (h.branches p hp).deltaNum b hb x hx⟩

theorem Sorted.revLine_trunk {x : Ptr} (hx : x ∈ rf.trunk) : revLine (rf.revnum x) = none :=
  revLine_eq_none.mpr (rcsrevIstrunk_eq_true.mp (h.trunkNum x hx))

/-- A number is in the table once. -/
theorem Sorted.revnum_inj {p q : Ptr} (hp : p ∈ rf.deltatable) (hq : q ∈ rf.deltatable)
    (heq : rf.revnum p = rf.revnum q) : p = q := by
  have hsymm : Std.Symm fun a b => rf.revnum a ≠ rf.revnum b := ⟨fun _ _ => Ne.symm⟩
  by_contra hne
  exact h.distinct.forall hp hq hne heq

theorem Sorted.branch_unique {p q : Ptr} (hp : p ∈ rf.deltatable) (hq : q ∈ rf.deltatable)
    {b b' : Branch} (hb : b ∈ rf.branches p) (hb' : b' ∈ rf.branches q)
    (heq : b.revnum = b'.revnum) : p = q ∧ b = b' := by
  have hnum := (h.branches p hp).branchNum b hb
  rw [heq, (h.branches q hq).branchNum b' hb'] at hnum
  obtain rfl := h.revnum_inj hp hq (Option.some.inj hnum).symm
  refine ⟨rfl, ?_⟩
  by_contra hne
  have hdistinct : (rf.branches p).Pairwise fun b b' => b.revnum ≠ b'.revnum :=
    (h.branches p hp).branches.imp fun {b b'} hgt heq => by
      rw [heq, rcsnumCmp_self] at hgt
      cases hgt
  have hsymm : Std.Symm fun b b' : Branch => b.revnum ≠ b'.revnum := ⟨fun _ _ => Ne.symm⟩
  exact hdistinct.forall hb hb' hne heq

/-- The list that a revision is in. -/
theorem Sorted.exists_list {r : Revnum} (hr : r ∈ rf.revs) : ∃ x, rf.revnum x = r ∧
    (x ∈ rf.trunk ∧ revLine r = none ∨
      ∃ p ∈ rf.deltatable, ∃ b ∈ rf.branches p, x ∈ b.deltalist ∧ revLine r = some b.revnum) := by
  obtain ⟨x, hx, rfl⟩ := hr
  refine ⟨x, rfl, ?_⟩
  rcases List.mem_append.mp hx with hx | hx
  · exact .inl ⟨hx, h.revLine_trunk hx⟩
  · obtain ⟨p, hp, hx⟩ := List.mem_flatMap.mp hx
    obtain ⟨b, hb, hx⟩ := List.mem_flatMap.mp hx
    exact .inr ⟨p, hp, b, hb, hx, h.revLine_branch hp hb hx⟩

theorem Sorted.lists_trunk : revisions.Lists rf.revs rf.revnum rf.trunk none := by
  refine ⟨h.trunk.imp_of_mem fun {x y} hx hy hxy => ?_, fun x hx => ?_, fun r hr hline => ?_⟩
  · exact ⟨(h.revLine_trunk hx).trans (h.revLine_trunk hy).symm, by
      rw [if_pos (h.revLine_trunk hx)]
      exact hxy⟩
  · exact ⟨mem_revs (mem_members_of_trunk hx), h.revLine_trunk hx⟩
  · obtain ⟨x, rfl, ⟨hx, -⟩ | ⟨p, hp, b, hb, hx, hsome⟩⟩ := h.exists_list hr
    · exact ⟨x, hx, rfl⟩
    · exact absurd (hline.symm.trans hsome) (by simp)

theorem Sorted.lists_branch {p : Ptr} (hp : p ∈ rf.deltatable) {b : Branch}
    (hb : b ∈ rf.branches p) :
    revisions.Lists rf.revs rf.revnum b.deltalist (some b.revnum) := by
  refine ⟨((h.branches p hp).deltas b hb).imp_of_mem fun {x y} hx hy hxy => ?_, fun x hx => ?_,
    fun r hr hline => ?_⟩
  · refine ⟨(h.revLine_branch hp hb hx).trans (h.revLine_branch hp hb hy).symm, ?_⟩
    rw [if_neg (by rw [h.revLine_branch hp hb hx]; simp)]
    exact hxy
  · exact ⟨mem_revs (mem_members_of_branch hp hb hx), h.revLine_branch hp hb hx⟩
  · obtain ⟨x, rfl, ⟨-, hnone⟩ | ⟨q, hq, b', hb', hx, hsome⟩⟩ := h.exists_list hr
    · exact absurd (hline.symm.trans hnone) (by simp)
    · obtain ⟨rfl, rfl⟩ := h.branch_unique hp hq hb hb' (Option.some.inj (hline.symm.trans hsome))
      exact ⟨x, hx, rfl⟩

theorem Sorted.exists_lists {n : Node} (hn : IsNode rf n) :
    ∃ l i, revisions.Lists rf.revs rf.revnum l i ∧ n.1 :: n.2 <:+ l := by
  obtain ⟨l, hl, hsuf⟩ := hn
  rcases List.mem_cons.mp hl with rfl | hl
  · exact ⟨_, _, h.lists_trunk, hsuf⟩
  · obtain ⟨p, hp, hl⟩ := List.mem_flatMap.mp hl
    obtain ⟨b, hb, rfl⟩ := List.mem_map.mp hl
    exact ⟨_, _, h.lists_branch hp hb, hsuf⟩

theorem Sorted.nextOf {n c : Node} (hn : IsNode rf n) (hc : n.2 = c.1 :: c.2) :
    revisions.NextOf rf.revs (rf.revnum n.1) (rf.revnum c.1) := by
  obtain ⟨l, i, hl, hsuf⟩ := h.exists_lists hn
  exact hl.nextOf (hc ▸ hsuf)

/-- What comes behind a delta in its list. -/
theorem Sorted.next_of_nextOf {n : Node} (hn : IsNode rf n) {r : Revnum}
    (hr : revisions.NextOf rf.revs (rf.revnum n.1) r) :
    ∃ c : Node, n.2 = c.1 :: c.2 ∧ rf.revnum c.1 = r := by
  obtain ⟨l, i, hl, hsuf⟩ := h.exists_lists hn
  obtain ⟨c, cs, heq, hrev⟩ := hl.of_nextOf hsuf hr
  exact ⟨(c, cs), heq, hrev⟩

include hi

theorem Sorted.firstOf {n c : Node} (hn : IsNode rf n) {b : Branch} (hb : b ∈ rf.branches n.1)
    (hc : b.deltalist = c.1 :: c.2) :
    revisions.FirstOf rf.revs (rf.revnum n.1) (rf.revnum c.1) := by
  have hp := (hi.isNode_real hn).1
  exact (hc ▸ h.lists_branch hp hb).firstOf hn.mem_revs ((h.branches n.1 hp).branchNum b hb)

/-- The first delta of a branch. -/
theorem Sorted.branch_of_firstOf {n : Node} (hn : IsNode rf n) {r : Revnum}
    (hr : revisions.FirstOf rf.revs (rf.revnum n.1) r) :
    ∃ b ∈ rf.branches n.1, ∃ c : Node, b.deltalist = c.1 :: c.2 ∧ rf.revnum c.1 = r := by
  have hpoint : (revLine r).bind rcsrevPrefix = some (rf.revnum n.1) := hr.point
  obtain ⟨x, hx, ⟨-, hnone⟩ | ⟨p, hp, b, hb, hxb, hsome⟩⟩ := h.exists_list hr.child
  · rw [hnone] at hpoint
    cases hpoint
  · rw [hsome] at hpoint
    have hrev := Option.some.inj (hpoint.symm.trans ((h.branches p hp).branchNum b hb))
    obtain rfl := h.revnum_inj (hi.isNode_real hn).1 hp hrev
    obtain ⟨c, cs, heq, hc⟩ := (h.lists_branch hp hb).of_firstOf hr hsome
    exact ⟨b, hb, (c, cs), heq, hc⟩

/-- The children of a delta are those that the numbers say. -/
theorem Sorted.child_of_headerChildren {n c : Node} (hn : IsNode rf n)
    (hc : c ∈ headerChildren rf n) : revisions.Child rf.revs (rf.revnum n.1) (rf.revnum c.1) := by
  rcases mem_headerChildren.mp hc with hnext | ⟨b, hb, hcb⟩
  · exact .inl (h.nextOf hn hnext)
  · exact .inr (h.firstOf hi hn hb hcb)

end

end Csup.Rcs
