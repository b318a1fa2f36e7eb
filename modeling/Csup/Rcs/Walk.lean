import Csup.Framework.StackWalk
import Csup.Rcs.Tree
import Mathlib.Data.List.Pairwise

/-!
# The walks over the tree

A node is a delta of the tree with the deltas behind it in its list
(`IsNode`). Its children are the delta behind it and the first deltas of its
branches: all that are not empty for the delta headers (`headerChildren`), those
up to the first empty one for the texts (`textChildren`). Both make a forest
from the head of the trunk on.

* `reaches_of_isNode`: every delta is reached over the headers, unless it is on
  a branch of a placeholder;
* `writeDeltas_ok`, `writeDeltatext_ok`: the two loops of `rcsfile_write` are
  walks over the two.
-/

namespace Csup.Rcs

open Csup.Framework

variable {rf : RcsFile}

/-- The lists of the tree. -/
def RcsFile.lists (rf : RcsFile) : List (List Ptr) :=
  rf.trunk :: rf.deltatable.flatMap fun p => (rf.branches p).map Branch.deltalist

/-- A delta of the tree with those behind it. -/
def IsNode (rf : RcsFile) (n : Node) : Prop := ∃ l ∈ rf.lists, n.1 :: n.2 <:+ l

theorem node?_eq_some {l : List Ptr} {n : Node} : node? l = some n ↔ l = n.1 :: n.2 := by
  cases l with
  | nil => simp [node?]
  | cons d ds =>
    simp only [node?, Option.some.injEq, List.cons.injEq]
    constructor
    · rintro rfl; exact ⟨rfl, rfl⟩
    · rintro ⟨rfl, rfl⟩; rfl

theorem mem_heads {bs : List Branch} {n : Node} :
    n ∈ heads bs ↔ ∃ b ∈ bs, b.deltalist = n.1 :: n.2 := by
  simp only [heads, List.mem_filterMap, node?_eq_some]

theorem heads_sublist (bs : List Branch) :
    ((heads bs).map Prod.fst).Sublist (bs.flatMap Branch.deltalist) := by
  induction bs with
  | nil => exact .refl _
  | cons b bs ih =>
    rw [heads, List.filterMap_cons, List.flatMap_cons]
    cases hb : b.deltalist with
    | nil => exact ih
    | cons d ds => exact (ih.trans (List.sublist_append_right ds _)).cons_cons d

/-! ## Lists -/

theorem members_eq (rf : RcsFile) : rf.members = rf.lists.flatten := by
  rw [RcsFile.members, RcsFile.lists, List.flatten_cons]
  congr 1
  induction rf.deltatable with
  | nil => rfl
  | cons p ps ih =>
    rw [List.flatMap_cons, List.flatMap_cons, List.flatten_append, ih]
    rfl

theorem mem_lists_of_branch {p : Ptr} (hp : p ∈ rf.deltatable) {b : Branch}
    (hb : b ∈ rf.branches p) : b.deltalist ∈ rf.lists :=
  List.mem_cons_of_mem _ (List.mem_flatMap.mpr ⟨p, hp, List.mem_map_of_mem hb⟩)

theorem mem_members_of_list {l : List Ptr} (hl : l ∈ rf.lists) {x : Ptr} (hx : x ∈ l) :
    x ∈ rf.members := by
  rw [members_eq]
  exact List.mem_flatten.mpr ⟨l, hl, hx⟩

theorem IsNode.mem {n : Node} (hn : IsNode rf n) : n.1 ∈ rf.members := by
  obtain ⟨l, hl, hsuf⟩ := hn
  exact mem_members_of_list hl (hsuf.subset (by simp))

theorem exists_isNode {x : Ptr} (hx : x ∈ rf.members) : ∃ n, IsNode rf n ∧ n.1 = x := by
  rw [members_eq] at hx
  obtain ⟨l, hl, hxl⟩ := List.mem_flatten.mp hx
  obtain ⟨s, t, rfl⟩ := List.append_of_mem hxl
  exact ⟨(x, t), ⟨_, hl, List.suffix_append s _⟩, rfl⟩

section

variable (h : Inv rf [])

include h

/-- No delta is in two lists. -/
theorem Inv.lists_unique {l l' : List Ptr} (hl : l ∈ rf.lists) (hl' : l' ∈ rf.lists) (x : Ptr)
    (hx : x ∈ l) (hx' : x ∈ l') : l = l' := by
  have hnd := h.nodup_members
  rw [members_eq, List.nodup_flatten] at hnd
  have : Std.Symm (List.Disjoint : List Ptr → List Ptr → Prop) :=
    ⟨fun _ _ hd _ h1 h2 => hd h2 h1⟩
  by_contra hne
  exact hnd.2.forall hl hl' hne hx hx'

theorem Inv.nodup_list {l : List Ptr} (hl : l ∈ rf.lists) : l.Nodup := by
  have hnd := h.nodup_members
  rw [members_eq, List.nodup_flatten] at hnd
  exact hnd.1 l hl

theorem Inv.isNode_real {n : Node} (hn : IsNode rf n) :
    n.1 ∈ rf.deltatable ∧ ∃ d, rf.mem n.1 = some d ∧ d.placeholder = false := by
  obtain ⟨ht, hr⟩ := List.mem_filter.mp (h.members.mem_iff.mp hn.mem)
  obtain ⟨d, hd⟩ := Option.isSome_iff_exists.mp (h.live _ ht)
  exact ⟨ht, d, hd, by simpa [RcsFile.real, hd] using hr⟩

end

/-- A suffix of a list without repetitions is known by its first element. -/
theorem suffix_unique {l s t : List Ptr} {x : Ptr} (hl : l.Nodup) (hs : x :: s <:+ l)
    (ht : x :: t <:+ l) : s = t := by
  have hx : ∀ {s t : List Ptr}, (x :: t).Nodup → x :: s <:+ x :: t → s = t := by
    intro s t hnd hst
    rcases List.suffix_cons_iff.mp hst with heq | hst
    · exact (List.cons.inj heq).2
    · exact absurd (hst.subset (by simp)) (List.nodup_cons.mp hnd).1
  rcases List.suffix_or_suffix_of_suffix hs ht with hst | hst
  · exact hx (hl.sublist ht.sublist) hst
  · exact (hx (hl.sublist hs.sublist) hst).symm

/-- A node is known by its delta. -/
theorem Inv.node_unique (h : Inv rf []) {n m : Node} (hn : IsNode rf n) (hm : IsNode rf m)
    (heq : n.1 = m.1) : n = m := by
  obtain ⟨l, hl, hnl⟩ := hn
  obtain ⟨l', hl', hml⟩ := hm
  rw [← heq] at hml
  obtain rfl := h.lists_unique hl hl' n.1 (hnl.subset (by simp)) (hml.subset (by simp))
  exact Prod.ext heq (suffix_unique (h.nodup_list hl) hnl hml)

/-! ## Children -/

/-- The nodes `rcsfile_write` pushes for a node. -/
def headerChildren (rf : RcsFile) (n : Node) : List Node :=
  (node? n.2).toList ++ (heads (rf.branches n.1)).reverse

theorem mem_headerChildren {n c : Node} :
    c ∈ headerChildren rf n ↔
      n.2 = c.1 :: c.2 ∨ ∃ b ∈ rf.branches n.1, b.deltalist = c.1 :: c.2 := by
  simp only [headerChildren, List.mem_append, List.mem_reverse, mem_heads, Option.mem_toList,
    node?_eq_some]

theorem IsNode.next {n c : Node} (hn : IsNode rf n) (hc : n.2 = c.1 :: c.2) : IsNode rf c := by
  obtain ⟨l, hl, hsuf⟩ := hn
  exact ⟨l, hl, (hc ▸ List.suffix_cons n.1 n.2 : c.1 :: c.2 <:+ n.1 :: n.2).trans hsuf⟩

theorem isNode_branch {p : Ptr} (hp : p ∈ rf.deltatable) {b : Branch} (hb : b ∈ rf.branches p)
    {c : Node} (hc : b.deltalist = c.1 :: c.2) : IsNode rf c :=
  ⟨_, mem_lists_of_branch hp hb, hc ▸ List.suffix_rfl⟩

section

variable (h : Inv rf [])

include h

/-- The first delta of a list is not behind another one. -/
theorem Inv.not_next {l : List Ptr} (hl : l ∈ rf.lists) {n c : Node} (hn : IsNode rf n)
    (hc : l = c.1 :: c.2) : n.2 ≠ c.1 :: c.2 := by
  intro hnc
  obtain ⟨l', hl', hsuf⟩ := hn
  rw [hnc] at hsuf
  obtain rfl := h.lists_unique hl hl' c.1 (by simp [hc]) (hsuf.subset (by simp))
  have := hsuf.length_le
  rw [hc] at this
  simp only [List.length_cons] at this
  omega

/-- No delta is on branches of two. -/
theorem Inv.branch_owner {p q : Ptr} (hp : p ∈ rf.deltatable) (hq : q ∈ rf.deltatable) {x : Ptr}
    (hxp : x ∈ rf.branchDeltas p) (hxq : x ∈ rf.branchDeltas q) : p = q := by
  have hnd := (List.nodup_flatMap.mp (List.nodup_append.mp h.nodup_members).2.1).2
  have : Std.Symm (Function.onFun List.Disjoint rf.branchDeltas) :=
    ⟨fun _ _ hd _ h1 h2 => hd h2 h1⟩
  by_contra hne
  exact hnd.forall hp hq hne hxp hxq

omit h in
theorem mem_branchDeltas {p : Ptr} {b : Branch} (hb : b ∈ rf.branches p) {c : Node}
    (hc : b.deltalist = c.1 :: c.2) : c.1 ∈ rf.branchDeltas p :=
  List.mem_flatMap.mpr ⟨b, hb, by simp [hc]⟩

/-- The parent of the first delta of a branch is the branch point. -/
theorem Inv.parent_branch {p : Ptr} (hp : p ∈ rf.deltatable) {b : Branch}
    (hb : b ∈ rf.branches p) {n c : Node} (hc : b.deltalist = c.1 :: c.2) (hn : IsNode rf n)
    (hnc : c ∈ headerChildren rf n) : n.1 = p := by
  rcases mem_headerChildren.mp hnc with hnext | ⟨b', hb', hc'⟩
  · exact absurd hnext (h.not_next (mem_lists_of_branch hp hb) hn hc)
  · exact h.branch_owner (h.isNode_real hn).1 hp (mem_branchDeltas hb' hc')
      (mem_branchDeltas hb hc)

theorem Inv.root_not_branch {p : Ptr} (hp : p ∈ rf.deltatable) {b : Branch}
    (hb : b ∈ rf.branches p) {root c : Node} (hroot : rf.trunk = root.1 :: root.2)
    (hc : b.deltalist = c.1 :: c.2) : c ≠ root := by
  rintro rfl
  refine (List.nodup_append.mp h.nodup_members).2.2 c.1 (by simp [hroot]) c.1 ?_ rfl
  exact List.mem_flatMap.mpr ⟨p, hp, mem_branchDeltas hb hc⟩

omit h in
theorem isNode_root {root : Node} (hroot : rf.trunk = root.1 :: root.2) : IsNode rf root :=
  ⟨rf.trunk, List.mem_cons_self .., hroot ▸ List.suffix_rfl⟩

theorem Inv.isNode_child {n c : Node} (hn : IsNode rf n) (hc : c ∈ headerChildren rf n) :
    IsNode rf c := by
  rcases mem_headerChildren.mp hc with hnext | ⟨b, hb, hcb⟩
  · exact hn.next hnext
  · exact isNode_branch (h.isNode_real hn).1 hb hcb

theorem Inv.nodup_headerChildren {n : Node} (hn : IsNode rf n) : (headerChildren rf n).Nodup := by
  have hp := (h.isNode_real hn).1
  have hheads : (heads (rf.branches n.1)).Nodup := by
    refine List.Nodup.of_map Prod.fst ((heads_sublist _).nodup ?_)
    exact (List.nodup_flatMap.mp (List.nodup_append.mp h.nodup_members).2.1).1 n.1 hp
  refine List.nodup_append.mpr ⟨?_, List.nodup_reverse.mpr hheads, ?_⟩
  · cases node? n.2 <;> simp
  · intro a ha c hc hac
    subst hac
    obtain ⟨b, hb, hcb⟩ := mem_heads.mp (List.mem_reverse.mp hc)
    rw [Option.mem_toList, node?_eq_some] at ha
    exact h.not_next (mem_lists_of_branch hp hb) hn hcb ha

/-- The deltas make a forest. -/
theorem Inv.isForest {root : Node} (hroot : rf.trunk = root.1 :: root.2) :
    IsForest (headerChildren rf) (IsNode rf) root := by
  refine ⟨isNode_root hroot, fun n hn c hc => h.isNode_child hn hc,
    fun n hn => h.nodup_headerChildren hn, fun a b ha hb c hca hcb => ?_, fun n hn hc => ?_⟩
  · rcases mem_headerChildren.mp hca with hnext | ⟨br, hbr, hc⟩
    · rcases mem_headerChildren.mp hcb with hnext' | ⟨br, hbr, hc⟩
      · -- both are in front of `c` in the one list of `c`
        obtain ⟨l, hl, hal⟩ := ha
        obtain ⟨l', hl', hbl⟩ := hb
        rw [hnext] at hal
        rw [hnext'] at hbl
        obtain rfl := h.lists_unique hl hl' c.1 (hal.subset (by simp)) (hbl.subset (by simp))
        have hab : a.1 :: c.1 :: c.2 <:+ b.1 :: c.1 :: c.2 := by
          rcases List.suffix_or_suffix_of_suffix hal hbl with hs | hs
          · exact hs
          · exact hs.eq_of_length rfl ▸ List.suffix_rfl
        have := hab.eq_of_length rfl
        exact Prod.ext (List.cons.inj this).1 (hnext.trans hnext'.symm)
      · exact absurd hnext (h.not_next (mem_lists_of_branch (h.isNode_real hb).1 hbr) ha hc)
    · have := h.parent_branch (h.isNode_real ha).1 hbr hc hb hcb
      exact h.node_unique ha hb this.symm
  · rcases mem_headerChildren.mp hc with hnext | ⟨b, hb, hcb⟩
    · exact h.not_next (List.mem_cons_self ..) hn hroot hnext
    · exact h.root_not_branch (h.isNode_real hn).1 hb hroot hcb rfl

end

/-! ## What is reached -/

/-- No delta is on a branch of a placeholder. -/
def NoOrphans (rf : RcsFile) : Prop :=
  ∀ p ∈ rf.deltatable, rf.real p = false → rf.branchDeltas p = []

theorem reaches_in_list {n m : Node} (hs : n.1 :: n.2 <:+ m.1 :: m.2) :
    Reaches (headerChildren rf) m n := by
  obtain ⟨d, ds⟩ := m
  induction ds generalizing d with
  | nil =>
    rcases List.suffix_cons_iff.mp hs with heq | hs
    · obtain ⟨rfl, h2⟩ := List.cons.inj heq
      exact (Prod.ext rfl h2 : n = (n.1, [])) ▸ .refl
    · exact absurd (List.suffix_nil.mp hs) (by simp)
  | cons d' ds ih =>
    rcases List.suffix_cons_iff.mp hs with heq | hs
    · obtain ⟨h1, h2⟩ := List.cons.inj heq
      exact (Prod.ext h1 h2 : n = (d, d' :: ds)) ▸ .refl
    · exact .head (mem_headerChildren.mpr (.inl rfl)) (ih d' hs)

theorem branchpoint_length {r bprev brev : Revnum} (h : branchpoint r = .ok (bprev, brev)) :
    bprev.length < r.length := by
  rw [branchpoint] at h
  split at h
  · cases h
  · rename_i b hb
    split at h
    · cases h
    · rename_i p hp
      obtain ⟨rfl, rfl⟩ := Prod.mk.inj (Except.ok.inj h)
      exact Nat.lt_trans (rcsrevPrefix_length hp) (rcsrevPrefix_length hb)

theorem reaches_of_isNode (h : Inv rf []) (ho : NoOrphans rf) {root : Node}
    (hroot : rf.trunk = root.1 :: root.2) {n : Node} (hn : IsNode rf n) :
    Reaches (headerChildren rf) root n := by
  -- the branch point of a delta has a shorter number
  induction hlen : (rf.revnum n.1).length using Nat.strong_induction_on generalizing n with
  | _ k ih =>
    obtain ⟨l, hl, hsuf⟩ := hn
    rcases List.mem_cons.mp hl with rfl | hl
    · exact reaches_in_list (hroot ▸ hsuf)
    · obtain ⟨p, hp, hlp⟩ := List.mem_flatMap.mp hl
      obtain ⟨b, hb, rfl⟩ := List.mem_map.mp hlp
      have hx : n.1 ∈ b.deltalist := hsuf.subset (by simp)
      obtain ⟨brev, hbp⟩ := h.owner p hp b hb n.1 hx
      have hreal : rf.real p = true := by
        by_contra hr
        have hnil := ho p hp (by simpa using hr)
        have : n.1 ∈ rf.branchDeltas p := List.mem_flatMap.mpr ⟨b, hb, hx⟩
        rw [hnil] at this
        cases this
      obtain ⟨m, hm, rfl⟩ := exists_isNode
        (h.members.mem_iff.mpr (List.mem_filter.mpr ⟨hp, hreal⟩ : p ∈ [] ++ _))
      have hlt := branchpoint_length hbp
      have hreach := ih _ (by omega) hm rfl
      obtain ⟨c, cs, hc⟩ := List.exists_cons_of_ne_nil (List.ne_nil_of_mem hx)
      have hchild : (c, cs) ∈ headerChildren rf m := mem_headerChildren.mpr (.inr ⟨b, hb, hc⟩)
      exact (hreach.tail hchild).trans (reaches_in_list (hc ▸ hsuf))

/-- The next delta, when it is one of the trunk, and when it is not. -/
def trunkNext (rf : RcsFile) (n : Node) : List Node :=
  (node? n.2).toList.filter fun m => rcsrevIstrunk (rf.revnum m.1) = some true

def branchNext (rf : RcsFile) (n : Node) : List Node :=
  (node? n.2).toList.filter fun m => rcsrevIstrunk (rf.revnum m.1) ≠ some true

/-- The nodes `rcsfile_write_deltatext` pushes for a node. -/
def textChildren (rf : RcsFile) (n : Node) : List Node :=
  ((heads (uptoEmpty (rf.branches n.1))).foldl (insertDated rf) (branchNext rf n)).reverse ++
    trunkNext rf n

theorem foldl_insertDated_perm (rf : RcsFile) (ns sorted : List Node) :
    (ns.foldl (insertDated rf) sorted).Perm (sorted ++ ns) := by
  induction ns generalizing sorted with
  | nil => simp
  | cons n ns ih =>
    rw [List.foldl_cons]
    refine (ih _).trans ?_
    exact ((insertBefore_perm _ n sorted).append_right ns).trans List.perm_middle.symm

theorem textChildren_perm (rf : RcsFile) (n : Node) :
    (textChildren rf n).Perm ((node? n.2).toList ++ heads (uptoEmpty (rf.branches n.1))) := by
  have hnext : (branchNext rf n ++ trunkNext rf n).Perm (node? n.2).toList := by
    rw [branchNext, trunkNext]
    cases node? n.2 with
    | none => exact .refl _
    | some m => by_cases ht : rcsrevIstrunk (rf.revnum m.1) = some true <;> simp [ht]
  refine ((List.reverse_perm _).append_right _).trans ?_
  refine ((foldl_insertDated_perm rf _ _).append_right _).trans ?_
  rw [List.append_assoc]
  refine (List.perm_append_comm.append_left _).trans ?_
  rw [← List.append_assoc]
  exact hnext.append_right _

theorem mem_textChildren {n c : Node} :
    c ∈ textChildren rf n ↔
      n.2 = c.1 :: c.2 ∨ ∃ b ∈ uptoEmpty (rf.branches n.1), b.deltalist = c.1 :: c.2 := by
  rw [(textChildren_perm rf n).mem_iff]
  simp only [List.mem_append, mem_heads, Option.mem_toList, node?_eq_some]

theorem uptoEmpty_sublist (bs : List Branch) : (uptoEmpty bs).Sublist bs :=
  List.takeWhile_sublist _

theorem textChildren_subset {n c : Node} (hc : c ∈ textChildren rf n) :
    c ∈ headerChildren rf n := by
  rw [mem_headerChildren]
  rcases mem_textChildren.mp hc with hnext | ⟨b, hb, hcb⟩
  · exact .inl hnext
  · exact .inr ⟨b, (uptoEmpty_sublist _).subset hb, hcb⟩

theorem Inv.isForest_text (h : Inv rf []) {root : Node} (hroot : rf.trunk = root.1 :: root.2) :
    IsForest (textChildren rf) (IsNode rf) root := by
  have hf := h.isForest hroot
  refine ⟨hf.root_mem, fun n hn c hc => hf.closed n hn c (textChildren_subset hc), fun n hn => ?_,
    fun a b ha hb c hca hcb =>
      hf.unique a b ha hb c (textChildren_subset hca) (textChildren_subset hcb),
    fun n hn hc => hf.root_notMem n hn (textChildren_subset hc)⟩
  refine (textChildren_perm rf n).nodup_iff.mpr ?_
  have hnd := h.nodup_headerChildren hn
  rw [headerChildren] at hnd
  have hperm := (List.reverse_perm (heads (rf.branches n.1))).append_left (node? n.2).toList
  refine (hperm.nodup_iff.mp hnd).sublist (List.Sublist.append_left ?_ _)
  exact (uptoEmpty_sublist _).filterMap _

/-! ## The loops -/

theorem branches_of_mem {p : Ptr} {d : Delta} (hd : rf.mem p = some d) :
    rf.branches p = d.branchlist := by simp [RcsFile.branches, hd]

/-- `e` is the header of the delta of `n`. -/
def HeaderOf (rf : RcsFile) (n : Node) (e : HeaderEntry) : Prop :=
  ∃ d, rf.mem n.1 = some d ∧ e = ⟨d.revnum, d.revdate, d.author, d.state,
    (heads d.branchlist).reverse.map fun m => rf.revnum m.1, n.2.head?.map rf.revnum⟩

/-- The loop over the headers is a walk. -/
theorem writeDeltas_ok (h : Inv rf []) {fuel : Nat} {stack : List Node} {out : List HeaderEntry}
    (hs : ∀ n ∈ stack, IsNode rf n) (hw : rf.writeDeltas fuel stack = .ok out) :
    ∃ nodes, stackWalk (headerChildren rf) fuel stack = some nodes ∧
      List.Forall₂ (HeaderOf rf) nodes out := by
  induction fuel generalizing stack out with
  | zero =>
    cases stack with
    | nil => obtain rfl := Except.ok.inj hw; exact ⟨[], rfl, .nil⟩
    | cons n stack => cases hw
  | succ fuel ih =>
    cases stack with
    | nil => obtain rfl := Except.ok.inj hw; exact ⟨[], rfl, .nil⟩
    | cons n stack =>
      obtain ⟨p, rest⟩ := n
      have hn := hs (p, rest) (by simp)
      obtain ⟨-, d, hd, hph⟩ := h.isNode_real hn
      simp only [RcsFile.writeDeltas, bind, Except.bind, deref_ok.mpr hd, hph, Bool.false_eq_true,
        if_false] at hw
      split at hw
      · cases hw
      · rename_i out' hout
        obtain rfl := Except.ok.inj hw
        have hch : headerChildren rf (p, rest) =
            (node? rest).toList ++ (heads d.branchlist).reverse := by
          rw [headerChildren, branches_of_mem hd]
        rw [← hch] at hout
        obtain ⟨nodes, hnodes, hrel⟩ := ih (fun m hm => by
          rcases List.mem_append.mp hm with hm | hm
          · exact h.isNode_child hn hm
          · exact hs m (by simp [hm])) hout
        exact ⟨(p, rest) :: nodes, by simp [stackWalk, hnodes], .cons ⟨d, hd, rfl⟩ hrel⟩

/-- It ends, without an error. -/
theorem exists_writeDeltas (h : Inv rf []) {fuel : Nat} {stack nodes : List Node}
    (hs : ∀ n ∈ stack, IsNode rf n) (hw : stackWalk (headerChildren rf) fuel stack = some nodes) :
    ∃ out, rf.writeDeltas fuel stack = .ok out := by
  induction fuel generalizing stack nodes with
  | zero =>
    cases stack with
    | nil => exact ⟨[], rfl⟩
    | cons n stack => cases hw
  | succ fuel ih =>
    cases stack with
    | nil => exact ⟨[], rfl⟩
    | cons n stack =>
      obtain ⟨p, rest⟩ := n
      have hn := hs (p, rest) (by simp)
      obtain ⟨-, d, hd, hph⟩ := h.isNode_real hn
      obtain ⟨fuel', nodes', hf, rfl, hw'⟩ := stackWalk_cons hw
      obtain rfl : fuel' = fuel := by omega
      obtain ⟨out, hout⟩ := ih (fun m hm => by
        rcases List.mem_append.mp hm with hm | hm
        · exact h.isNode_child hn hm
        · exact hs m (by simp [hm])) hw'
      rw [headerChildren, branches_of_mem hd] at hout
      simp only [RcsFile.writeDeltas, bind, Except.bind, deref_ok.mpr hd, hph, Bool.false_eq_true,
        if_false, hout]
      exact ⟨_, rfl⟩

/-- A node of the walk over the texts, with the delta it was reached from. -/
abbrev TextNode := Option Ptr × Node

def pairChildren (rf : RcsFile) (m : TextNode) : List TextNode :=
  (textChildren rf m.2).map fun c => (some m.2.1, c)

/-- `e` is the text of the delta of `m`. -/
def TextOf (rf : RcsFile) (m : TextNode) (e : TextEntry) : Prop :=
  ∃ d, rf.mem m.2.1 = some d ∧ e.revnum = d.revnum ∧ e.log = d.log ∧
    rf.puttext m.2.1 m.1 = .ok e.text

theorem placenext_ok {n : Node} {v : List Node × List Node}
    (h : rf.placenext (node? n.2) = .ok v) : v = (trunkNext rf n, branchNext rf n) := by
  rw [trunkNext, branchNext]
  cases hnext : node? n.2 with
  | none =>
    rw [hnext] at h
    exact (Except.ok.inj h).symm
  | some m =>
    rw [hnext, RcsFile.placenext] at h
    split at h
    · cases h
    · rename_i ht
      rw [← Except.ok.inj h]
      simp [ht]
    · rename_i ht
      rw [← Except.ok.inj h]
      simp [ht]

/-- The loop over the texts is a walk. -/
theorem writeDeltatext_ok (h : Inv rf []) {fuel : Nat} {stack : List TextNode}
    {out : List TextEntry} (hs : ∀ m ∈ stack, IsNode rf m.2)
    (hw : rf.writeDeltatext fuel stack = .ok out) :
    ∃ nodes, stackWalk (pairChildren rf) fuel stack = some nodes ∧
      List.Forall₂ (TextOf rf) nodes out := by
  induction fuel generalizing stack out with
  | zero =>
    cases stack with
    | nil => obtain rfl := Except.ok.inj hw; exact ⟨[], rfl, .nil⟩
    | cons m stack => cases hw
  | succ fuel ih =>
    cases stack with
    | nil => obtain rfl := Except.ok.inj hw; exact ⟨[], rfl, .nil⟩
    | cons m stack =>
      obtain ⟨prev, p, rest⟩ := m
      have hn := hs (prev, p, rest) (by simp)
      obtain ⟨-, d, hd, hph⟩ := h.isNode_real hn
      simp only [RcsFile.writeDeltatext, bind, Except.bind, deref_ok.mpr hd, hph,
        Bool.false_eq_true, if_false] at hw
      split at hw
      · cases hw
      · rename_i text htext
        split at hw
        · cases hw
        · rename_i v hv
          obtain rfl := placenext_ok (n := (p, rest)) hv
          split at hw
          · cases hw
          · rename_i out' hout
            obtain rfl := Except.ok.inj hw
            have hch : pairChildren rf (prev, p, rest) =
                ((((heads (uptoEmpty d.branchlist)).foldl (insertDated rf)
                  (branchNext rf (p, rest))).reverse ++ trunkNext rf (p, rest)).map
                    fun n => (some p, n)) := by
              rw [pairChildren, textChildren, branches_of_mem hd]
            rw [← hch] at hout
            obtain ⟨nodes, hnodes, hrel⟩ := ih (fun m hm => by
              rcases List.mem_append.mp hm with hm | hm
              · obtain ⟨c, hc, rfl⟩ := List.mem_map.mp hm
                exact h.isNode_child hn (textChildren_subset hc)
              · exact hs m (by simp [hm])) hout
            exact ⟨(prev, p, rest) :: nodes, by simp [stackWalk, hnodes],
              .cons ⟨d, hd, rfl, rfl, htext⟩ hrel⟩

theorem pairChildren_snd (rf : RcsFile) (m : TextNode) :
    (pairChildren rf m).map Prod.snd = textChildren rf m.2 := by
  simp [pairChildren, Function.comp_def]

end Csup.Rcs
