import Csup.Rcs.Damaged
import Mathlib.Data.List.Pairwise

/-!
# The order of the tree of deltas

The lists of a file that is opened for editing are kept in their order (`Sorted`) as long as no
number gets into the table twice. An entry is looked up before it is put there, its `next` is not
(`NewNext`).

* `Sorted.importdelta`, `Sorted.addelta`, `Sorted.remove`: what one call keeps;
* `ordered_of_edited`: every file that is parsed and then edited.
-/

namespace Csup.Rcs

open Csup.Framework

/-! ## The invariant -/

/-- The branches of a delta, and the deltas on each of them. -/
structure BranchesSorted (rf : RcsFile) (p : Ptr) : Prop where
  branches : (rf.branches p).Pairwise fun b b' => rcsnumCmp b.revnum b'.revnum = .gt
  branchNum : ∀ b ∈ rf.branches p, rcsrevPrefix b.revnum = some (rf.revnum p)
  deltas : ∀ b ∈ rf.branches p,
    b.deltalist.Pairwise fun x y => rcsnumCmp (rf.revnum x) (rf.revnum y) = .lt
  deltaNum : ∀ b ∈ rf.branches p, ∀ x ∈ b.deltalist, rcsrevPrefix (rf.revnum x) = some b.revnum

structure Sorted (rf : RcsFile) : Prop where
  table : rf.deltatable.Pairwise fun p q => rcsnumCmp (rf.revnum p) (rf.revnum q) ≠ .gt
  distinct : rf.deltatable.Pairwise fun p q => rf.revnum p ≠ rf.revnum q
  trunk : rf.trunk.Pairwise fun p q => rcsnumCmp (rf.revnum p) (rf.revnum q) = .gt
  trunkNum : ∀ p ∈ rf.trunk, rcsrevIstrunk (rf.revnum p) = some true
  branches : ∀ p ∈ rf.deltatable, BranchesSorted rf p

variable {rf rf' : RcsFile} {extra : List Ptr}

theorem Sorted.empty (head : Revnum) : Sorted (RcsFile.empty head) :=
  ⟨.nil, .nil, .nil, by simp [RcsFile.empty], by simp [RcsFile.empty]⟩

theorem mem_members_of_trunk {p : Ptr} (hp : p ∈ rf.trunk) : p ∈ rf.members :=
  List.mem_append_left _ hp

theorem BranchesSorted.congr {p : Ptr} (h : BranchesSorted rf p)
    (hbr : rf'.branches p = rf.branches p) (hrev : ∀ q, rf'.revnum q = rf.revnum q) :
    BranchesSorted rf' p := by
  obtain ⟨hbs, hbnum, hds, hdnum⟩ := h
  have heq : rf'.revnum = rf.revnum := funext hrev
  refine ⟨?_, ?_, ?_, ?_⟩ <;> rw [hbr]
  · exact hbs
  · rwa [heq]
  · rwa [heq]
  · rwa [heq]

/-- What the lists are and how their deltas are numbered is all that matters. -/
theorem Sorted.congr (h : Sorted rf) (hi : Inv rf extra) (htab : rf'.deltatable = rf.deltatable)
    (htrunk : rf'.trunk = rf.trunk) (hrev : ∀ p, (rf.mem p).isSome → rf'.revnum p = rf.revnum p)
    (hbr : ∀ p ∈ rf.deltatable, rf'.branches p = rf.branches p) : Sorted rf' := by
  have htabrev : ∀ p ∈ rf.deltatable, rf'.revnum p = rf.revnum p := fun p hp => hrev p (hi.live p hp)
  have htrunkrev : ∀ p ∈ rf.trunk, rf'.revnum p = rf.revnum p := fun p hp =>
    hrev p (hi.mem_live (mem_members_of_trunk hp))
  refine ⟨?_, ?_, ?_, fun p hp => ?_, fun p hp => ?_⟩
  · rw [htab]
    refine h.table.imp_of_mem fun {p q} hp hq hpq => ?_
    rwa [htabrev p hp, htabrev q hq]
  · rw [htab]
    refine h.distinct.imp_of_mem fun {p q} hp hq hpq => ?_
    rwa [htabrev p hp, htabrev q hq]
  · rw [htrunk]
    refine h.trunk.imp_of_mem fun {p q} hp hq hpq => ?_
    rwa [htrunkrev p hp, htrunkrev q hq]
  · rw [htrunk] at hp
    rw [htrunkrev p hp]
    exact h.trunkNum p hp
  · rw [htab] at hp
    obtain ⟨hbs, hbnum, hds, hdnum⟩ := h.branches p hp
    have hx {b : Branch} (hb : b ∈ rf.branches p) {x : Ptr} (hx : x ∈ b.deltalist) :
        rf'.revnum x = rf.revnum x := hrev x (hi.mem_live (mem_members_of_branch hp hb hx))
    refine ⟨?_, fun b hb => ?_, fun b hb => ?_, fun b hb x hxb => ?_⟩
    · rwa [hbr p hp]
    · rw [hbr p hp] at hb
      rw [htabrev p hp]
      exact hbnum b hb
    · rw [hbr p hp] at hb
      refine (hds b hb).imp_of_mem fun {x y} hxb hyb hxy => ?_
      rwa [hx hb hxb, hx hb hyb]
    · rw [hbr p hp] at hb
      rw [hx hb hxb]
      exact hdnum b hb x hxb

theorem Sorted.alloc (h : Sorted rf) (hi : Inv rf extra) (d : Delta) : Sorted (rf.alloc d) := by
  refine h.congr hi rfl rfl (fun p hp => ?_) fun p hp => ?_
  · simp only [RcsFile.revnum, alloc_mem (hi.ne_brk hp)]
  · simp only [RcsFile.branches, alloc_mem (hi.ne_brk (hi.live p hp))]

theorem Sorted.modify (h : Sorted rf) (hi : Inv rf extra) {p : Ptr} {f : Delta → Delta}
    (hr : ∀ d, (f d).revnum = d.revnum) (hb : ∀ d, (f d).branchlist = d.branchlist) :
    Sorted (rf.modify p f) :=
  h.congr hi rfl rfl (fun _ _ => modify_revnum hr) fun _ _ => modify_branches hb

/-! ## Numbers with the same prefix -/

theorem rcsrevIstrunk_eq_true {r : Revnum} : rcsrevIstrunk r = some true ↔ r.count dot = 1 := by
  rw [rcsrevIstrunk_eq]
  split
  · rename_i h
    simp [h]
  · simp

/-- Different numbers with as many dots are not taken for the same. -/
theorem rcsnumCmp_ne_eq {a b : Revnum} (hne : a ≠ b) (hdots : a.count dot = b.count dot) :
    rcsnumCmp a b ≠ .eq := fun h => hne (eq_of_rcsnumCmp h hdots)

theorem count_eq_of_rcsrevPrefix {a b p : Revnum} (ha : rcsrevPrefix a = some p)
    (hb : rcsrevPrefix b = some p) : a.count dot = b.count dot := by
  rw [count_of_rcsrevPrefix ha, count_of_rcsrevPrefix hb]

theorem rcsnumCmp_gt_trans {a b c : Revnum} (hab : rcsnumCmp a b = .gt)
    (hbc : rcsnumCmp b c = .gt) : rcsnumCmp a c = .gt := Std.TransCmp.gt_trans hab hbc

theorem rcsnumCmp_lt_trans {a b c : Revnum} (hab : rcsnumCmp a b = .lt)
    (hbc : rcsnumCmp b c = .lt) : rcsnumCmp a c = .lt := Std.TransCmp.lt_trans hab hbc

theorem gt_of_ne {a b : Revnum} (hlt : rcsnumCmp a b ≠ .lt) (heq : rcsnumCmp a b ≠ .eq) :
    rcsnumCmp a b = .gt := by
  cases h : rcsnumCmp a b
  · exact absurd h hlt
  · exact absurd h heq
  · rfl

theorem swap_gt {a b : Revnum} (h : rcsnumCmp a b = .lt) : rcsnumCmp b a = .gt := by
  rw [rcsnumCmp_swap, h]
  rfl

theorem swap_lt {a b : Revnum} (h : rcsnumCmp a b = .gt) : rcsnumCmp b a = .lt := by
  rw [rcsnumCmp_swap, h]
  rfl

/-! ## Insertion -/

/-- A delta of the trunk that no other one is taken for. -/
theorem pairwise_insertdelta_trunk {d : Ptr} {l : List Ptr}
    (hne : ∀ y ∈ l, rcsnumCmp (rf.revnum d) (rf.revnum y) ≠ .eq)
    (hl : l.Pairwise fun p q => rcsnumCmp (rf.revnum p) (rf.revnum q) = .gt) :
    (insertdelta rf true d l).Pairwise fun p q => rcsnumCmp (rf.revnum p) (rf.revnum q) = .gt := by
  refine pairwise_insertBefore (fun y z => rcsnumCmp_gt_trans) (fun y hy hb => ?_)
    (fun y hy hb => ?_) hl
  · exact gt_of_ne (by simpa using hb) (hne y hy)
  · exact swap_gt (by simpa using hb)

theorem pairwise_insertdelta_branch {d : Ptr} {l : List Ptr}
    (hne : ∀ y ∈ l, rcsnumCmp (rf.revnum d) (rf.revnum y) ≠ .eq)
    (hl : l.Pairwise fun p q => rcsnumCmp (rf.revnum p) (rf.revnum q) = .lt) :
    (insertdelta rf false d l).Pairwise fun p q => rcsnumCmp (rf.revnum p) (rf.revnum q) = .lt := by
  refine pairwise_insertBefore (fun y z => rcsnumCmp_lt_trans) (fun y hy hb => ?_)
    (fun y hy hb => ?_) hl
  · simpa using hb
  · exact swap_lt (gt_of_ne (by simpa using hb) (hne y hy))

/-- A branch that is not there yet, without deltas. -/
theorem Sorted.insertbranch (h : Sorted rf) (hi : Inv rf extra) {p : Ptr} (hp : p ∈ rf.deltatable)
    {brev : Revnum} (hnum : rcsrevPrefix brev = some (rf.revnum p))
    (hno : ∀ b ∈ rf.branches p, b.is brev = false) :
    Sorted (rf.modify p fun d => { d with branchlist := insertbranch ⟨brev, []⟩ d.branchlist }) := by
  have hk := keeps_modify hp (Rcs.insertbranch ⟨brev, []⟩)
  have hself := branches_modify_self (hi.live p hp) (Rcs.insertbranch ⟨brev, []⟩)
  have hmem {b : Branch} : b ∈ Rcs.insertbranch ⟨brev, []⟩ (rf.branches p) ↔
      b = ⟨brev, []⟩ ∨ b ∈ rf.branches p := by
    rw [Rcs.insertbranch, (insertBefore_perm _ _ _).mem_iff, List.mem_cons]
  have hrev := hk.revnum
  generalize hrf : (rf.modify p fun d =>
    { d with branchlist := Rcs.insertbranch ⟨brev, []⟩ d.branchlist }) = rf1 at *
  have hne {q : Ptr} (hq : q ≠ p) : rf1.branches q = rf.branches q := by
    rw [← hrf, branches_modify_ne hq]
  have htrunk : rf1.trunk = rf.trunk := by rw [← hrf]; rfl
  refine ⟨?_, ?_, ?_, fun q hq => ?_, fun q hq => ?_⟩
  · rw [hk.deltatable]
    simpa only [hrev] using h.table
  · rw [hk.deltatable]
    simpa only [hrev] using h.distinct
  · rw [htrunk]
    simpa only [hrev] using h.trunk
  · rw [htrunk] at hq
    rw [hrev]
    exact h.trunkNum q hq
  · rw [hk.deltatable] at hq
    obtain ⟨hbs, hbnum, hds, hdnum⟩ := h.branches q hq
    by_cases hqp : q = p
    · subst hqp
      refine ⟨?_, fun b hb => ?_, fun b hb => ?_, fun b hb x hx => ?_⟩
      · rw [hself]
        refine pairwise_insertBefore (fun y z => rcsnumCmp_gt_trans) (fun b _ hb => by simpa using hb)
          (fun b hb hbefore => ?_) hbs
        have hle : rcsnumCmp brev b.revnum ≠ .gt := by simpa using hbefore
        have hnot : rcsnumCmp b.revnum brev ≠ .eq := by simpa [Branch.is] using hno b hb
        refine gt_of_ne (fun hlt => hle (swap_gt hlt)) hnot
      · rw [hself, hmem] at hb
        rw [hrev]
        rcases hb with rfl | hb
        · exact hnum
        · exact hbnum b hb
      · rw [hself, hmem] at hb
        rcases hb with rfl | hb
        · exact .nil
        · simpa only [hrev] using hds b hb
      · rw [hself, hmem] at hb
        rw [hrev]
        rcases hb with rfl | hb
        · cases hx
        · exact hdnum b hb x hx
    · exact (h.branches q hq).congr (hne hqp) hrev

theorem Sorted.findbranch (h : Sorted rf) (hi : Inv rf extra) {revnum : Revnum}
    {b : Option BranchRef} (hf : rf.findbranch revnum = .ok (rf', b)) :
    Sorted rf' ∧ (b = some .trunk → rcsrevIstrunk revnum = some true) := by
  rw [RcsFile.findbranch] at hf
  split at hf
  · cases hf
  · rename_i htrunk
    obtain ⟨rfl, rfl⟩ := Prod.mk.inj (Except.ok.inj hf)
    exact ⟨h, fun _ => htrunk⟩
  · simp only [bind, Except.bind] at hf
    split at hf
    · cases hf
    · rename_i v hv
      obtain ⟨bprev, brev, p, d, hbp, hp, hd, rfl⟩ := getbranch_ok hv
      obtain ⟨hpt, -⟩ := getdelta_some hp
      by_cases hany : d.branchlist.any (Branch.is brev) = true
      · rw [if_pos hany] at hf
        obtain ⟨rfl, rfl⟩ := Prod.mk.inj (Except.ok.inj hf)
        exact ⟨h, by simp⟩
      · rw [if_neg hany] at hf
        simp only [hbp, hp] at hf
        obtain ⟨rfl, rfl⟩ := Prod.mk.inj (Except.ok.inj hf)
        refine ⟨h.insertbranch hi hpt ?_ fun b hb => ?_, by simp⟩
        · rw [getdelta_revnum hp]
          exact (branchpoint_eq_ok.mp hbp).2
        · have hbr : rf.branches p = d.branchlist := by simp [RcsFile.branches, hd]
          rw [hbr] at hb
          by_contra hb'
          exact hany (List.any_eq_true.mpr ⟨b, hb, by simpa using hb'⟩)

theorem map_modifyFirst {α β : Type*} {p : α → Bool} {f : α → α} (g : α → β)
    (hf : ∀ y, g (f y) = g y) (l : List α) : (modifyFirst p f l).map g = l.map g := by
  induction l with
  | nil => rfl
  | cons y l ih =>
    rw [modifyFirst]
    split
    · rw [List.map_cons, List.map_cons, hf]
    · rw [List.map_cons, List.map_cons, ih]

/-- A delta is put into the branch of `p` that has its prefix. -/
theorem BranchesSorted.insertdelta {p d : Ptr} {brev : Revnum} (h : BranchesSorted rf p)
    (hp : p ∈ rf.deltatable) (hdnum : rcsrevPrefix (rf.revnum d) = some brev)
    (hbrev : rcsrevPrefix brev = some (rf.revnum p))
    (hnew : ∀ q ∈ rf.members, rf.revnum q ≠ rf.revnum d)
    (hself : rf'.branches p = modifyFirst (Branch.is brev)
      (fun b => { b with deltalist := Rcs.insertdelta rf false d b.deltalist }) (rf.branches p))
    (hrev : ∀ q, rf'.revnum q = rf.revnum q) : BranchesSorted rf' p := by
  obtain ⟨hbs, hbnum, hds, hdeltaNum⟩ := h
  -- the branch that was found has the number that was looked for
  have hfound {b : Branch} (hb : b ∈ rf.branches p) (his : b.is brev = true) :
      b.revnum = brev :=
    eq_of_rcsnumCmp (by simpa [Branch.is] using his)
      (count_eq_of_rcsrevPrefix (hbnum b hb) hbrev)
  have hmem {b : Branch} (hb : b ∈ rf'.branches p) : b ∈ rf.branches p ∨
      ∃ b' ∈ rf.branches p, b'.revnum = brev ∧
        b = { b' with deltalist := Rcs.insertdelta rf false d b'.deltalist } := by
    rw [hself] at hb
    rcases mem_modifyFirst hb with hb | ⟨b', hb', his, rfl⟩
    · exact .inl hb
    · exact .inr ⟨b', hb', hfound hb' his, rfl⟩
  refine ⟨?_, fun b hb => ?_, fun b hb => ?_, fun b hb x hx => ?_⟩
  · rw [hself]
    have hmap := map_modifyFirst (p := Branch.is brev)
      (f := fun b => { b with deltalist := Rcs.insertdelta rf false d b.deltalist })
      Branch.revnum (fun _ => rfl) (rf.branches p)
    have hbs' := List.pairwise_map (f := Branch.revnum)
      (R := fun r r' => rcsnumCmp r r' = .gt) |>.mpr hbs
    rw [← hmap] at hbs'
    exact List.pairwise_map.mp hbs'
  · rw [hrev]
    rcases hmem hb with hb | ⟨b', hb', -, rfl⟩
    · exact hbnum b hb
    · exact hbnum b' hb'
  · rcases hmem hb with hb | ⟨b', hb', hb'rev, rfl⟩
    · simpa only [hrev] using hds b hb
    · simp only [hrev]
      refine pairwise_insertdelta_branch (fun y hy => ?_) (hds b' hb')
      refine rcsnumCmp_ne_eq (hnew y (mem_members_of_branch hp hb' hy)).symm ?_
      exact count_eq_of_rcsrevPrefix (hb'rev ▸ hdnum) (hdeltaNum b' hb' y hy)
  · rw [hrev]
    rcases hmem hb with hb | ⟨b', hb', hb'rev, rfl⟩
    · exact hdeltaNum b hb x hx
    · rcases List.mem_cons.mp ((insertdelta_perm rf false d _).mem_iff.mp hx) with rfl | hx
      · rw [hb'rev]
        exact hdnum
      · exact hdeltaNum b' hb' x hx

/-- A delta is put into the list that its number belongs to, where no other one has it. -/
theorem Sorted.insertdelta (h : Sorted rf) (hi : Inv rf extra) {b : BranchRef} {d : Ptr}
    (hv : ValidRef rf (rf.revnum d) b)
    (htrunk : b = .trunk → rcsrevIstrunk (rf.revnum d) = some true)
    (hnew : ∀ q ∈ rf.members, rf.revnum q ≠ rf.revnum d) :
    Sorted (rf.insertdelta b d (rcsrevIstrunk (rf.revnum d) = some true)) := by
  cases b with
  | trunk =>
    have hd := htrunk rfl
    rw [decide_eq_true hd]
    have hrev : (rf.insertdelta .trunk d true).revnum = rf.revnum := rfl
    refine ⟨h.table, h.distinct, pairwise_insertdelta_trunk (fun y hy => ?_) h.trunk,
      fun q hq => ?_, fun q hq => (h.branches q hq).congr rfl fun _ => rfl⟩
    · rw [hrev]
      refine rcsnumCmp_ne_eq (hnew y (mem_members_of_trunk hy)).symm ?_
      rw [rcsrevIstrunk_eq_true.mp hd, rcsrevIstrunk_eq_true.mp (h.trunkNum y hy)]
    · rcases List.mem_cons.mp ((insertdelta_perm rf true d rf.trunk).mem_iff.mp hq) with rfl | hq
      · exact hd
      · exact h.trunkNum q hq
  | ofDelta p brev =>
    obtain ⟨hp, -, hbp⟩ := hv
    obtain ⟨hdnum, hbrev⟩ := branchpoint_eq_ok.mp hbp
    have hnot : rcsrevIstrunk (rf.revnum d) ≠ some true := fun hd => by
      have := rcsrevIstrunk_eq_true.mp hd
      have := count_of_rcsrevPrefix hdnum
      have := count_of_rcsrevPrefix hbrev
      omega
    rw [decide_eq_false hnot]
    have hk : Keeps rf (rf.insertdelta (.ofDelta p brev) d false) := keeps_modify hp _
    have hself : (rf.insertdelta (.ofDelta p brev) d false).branches p =
        modifyFirst (Branch.is brev)
          (fun b => { b with deltalist := Rcs.insertdelta rf false d b.deltalist })
          (rf.branches p) := branches_modify_self (hi.live p hp) _
    have hne {q : Ptr} (hq : q ≠ p) :
        (rf.insertdelta (.ofDelta p brev) d false).branches q = rf.branches q :=
      branches_modify_ne hq _
    have hrev := hk.revnum
    have htr : (rf.insertdelta (.ofDelta p brev) d false).trunk = rf.trunk := rfl
    generalize rf.insertdelta (.ofDelta p brev) d false = rf1 at *
    refine ⟨?_, ?_, ?_, fun q hq => ?_, fun q hq => ?_⟩
    · rw [hk.deltatable]
      simpa only [hrev] using h.table
    · rw [hk.deltatable]
      simpa only [hrev] using h.distinct
    · rw [htr]
      simpa only [hrev] using h.trunk
    · rw [htr] at hq
      rw [hrev]
      exact h.trunkNum q hq
    · rw [hk.deltatable] at hq
      by_cases hqp : q = p
      · subst hqp
        exact (h.branches q hq).insertdelta hq hdnum hbrev hnew hself hrev
      · exact (h.branches q hq).congr (hne hqp) hrev

/-- A delta without branches, and with a number of its own, is put into the table. -/
theorem Sorted.insertsorteddelta (h : Sorted rf) {d : Ptr} (hbr : rf.branches d = [])
    (hnew : ∀ q ∈ rf.deltatable, rf.revnum q ≠ rf.revnum d) : Sorted (insertsorteddelta rf d) := by
  have hmem {q : Ptr} : q ∈ (Rcs.insertsorteddelta rf d).deltatable ↔ q = d ∨ q ∈ rf.deltatable := by
    rw [Rcs.insertsorteddelta, (insertBefore_perm _ _ _).mem_iff, List.mem_cons]
  refine ⟨?_, ?_, h.trunk, h.trunkNum, fun q hq => ?_⟩
  · show (insertBefore _ d rf.deltatable).Pairwise fun p q =>
      rcsnumCmp (rf.revnum p) (rf.revnum q) ≠ .gt
    refine pairwise_insertBefore (fun y z => rcsnumCmp_trans) (fun y _ hb => by simpa using hb)
      (fun y _ hb => ?_) h.table
    have hgt : rcsnumCmp (rf.revnum d) (rf.revnum y) = .gt := by simpa using hb
    rw [rcsnumCmp_swap, hgt]
    decide
  · have hperm : (Rcs.insertsorteddelta rf d).deltatable.Perm (d :: rf.deltatable) :=
      insertBefore_perm _ _ _
    refine (hperm.pairwise_iff fun {p q} hpq => hpq.symm).mpr ?_
    exact List.pairwise_cons.mpr ⟨fun q hq => (hnew q hq).symm, h.distinct⟩
  · rcases hmem.mp hq with rfl | hq
    · have hbr' : (Rcs.insertsorteddelta rf q).branches q = [] := hbr
      refine ⟨?_, ?_, ?_, ?_⟩ <;> rw [hbr'] <;> simp
    · exact (h.branches q hq).congr rfl fun _ => rfl

/-! ## Import -/

theorem Inv.mem_members (hi : Inv rf []) {q : Ptr} :
    q ∈ rf.members ↔ q ∈ rf.deltatable ∧ rf.real q = true := by
  rw [hi.members.mem_iff]
  exact List.mem_filter

theorem importbase_cases {b : BranchRef} {d : Ptr} {revnum : Revnum}
    (h : rf.importbase b d revnum = .ok rf') :
    rf' = rf ∨ ∃ bp, rf' = rf.modify d fun dd => { dd with diffbase := some bp } := by
  rw [RcsFile.importbase] at h
  split at h
  · simp only [bind, Except.bind] at h
    split at h
    · cases h
    · split at h
      · cases h
      · rename_i bp _
        exact .inr ⟨bp, (Except.ok.inj h).symm⟩
  · exact .inl (Except.ok.inj h).symm

/-- A delta is put into the branch that is found for it; none there has its number. -/
theorem Sorted.insertFound (h : Sorted rf) (hi : Inv rf []) {d : Ptr} {revnum : Revnum}
    {b : BranchRef} (hrev : rf.revnum d = revnum) (hnew : ∀ q ∈ rf.members, rf.revnum q ≠ revnum)
    (hf : rf.findbranch revnum = .ok (rf', some b)) :
    Sorted (rf'.insertdelta b d (rcsrevIstrunk revnum = some true)) := by
  obtain ⟨hi1, hk, hb⟩ := hi.findbranch hf
  obtain ⟨hs1, htrunk⟩ := h.findbranch hi hf
  obtain rfl : rf'.revnum d = revnum := (hk.revnum d).trans hrev
  refine hs1.insertdelta hi1 (hb b rfl) (fun hbt => htrunk (hbt ▸ rfl)) fun q hq => ?_
  obtain ⟨hq, hreal⟩ := hi1.mem_members.mp hq
  rw [hk.deltatable] at hq
  rw [hk.real] at hreal
  rw [hk.revnum]
  exact hnew q (hi.mem_members.mpr ⟨hq, hreal⟩)

/-- The delta of an entry is put into the tree; no delta has its number yet. -/
theorem Sorted.importplace (h : Sorted rf) (hi : Inv rf []) {d : Ptr} {revnum : Revnum}
    {placeholder : Bool} (hrev : rf.revnum d = revnum) (hlive : (rf.mem d).isSome)
    (hreal : rf.real d = !placeholder)
    (hd : if placeholder then d ∈ rf.deltatable else Fresh rf d)
    (hnew : ∀ q ∈ rf.deltatable, q ≠ d → rf.revnum q ≠ revnum)
    (hp : rf.importplace d revnum placeholder = .ok (some rf')) :
    Sorted rf' ∧ (∀ q ∈ rf'.deltatable, q ∈ rf.deltatable ∨ q = d) ∧
      ∀ q, rf'.revnum q = rf.revnum q := by
  simp only [RcsFile.importplace, bind, Except.bind] at hp
  split at hp
  · cases hp
  rename_i v hv
  obtain ⟨rf1, b⟩ := v
  cases b with
  | none => cases hp
  | some b =>
    obtain ⟨hi2, hk⟩ := hi.insertFound hrev hlive hv (rcsrevIstrunk revnum = some true)
    have hmem : ∀ q ∈ rf.members, rf.revnum q ≠ revnum := fun q hq => by
      obtain ⟨hq, hqreal⟩ := hi.mem_members.mp hq
      refine hnew q hq fun hqd => ?_
      rw [hqd, hreal] at hqreal
      cases placeholder with
      | true => cases hqreal
      | false => exact hd.notMem (hqd ▸ hq)
    have hs2 := h.insertFound hi hrev hmem hv
    dsimp only at hp
    generalize rf1.insertdelta b d (rcsrevIstrunk revnum = some true) = rf2 at hi2 hk hs2 hp
    cases placeholder with
    | true =>
      obtain rfl := Option.some.inj (Except.ok.inj hp)
      refine ⟨hs2.modify hi2 Delta.unmark_revnum Delta.unmark_branchlist, fun q hq => ?_, fun q => ?_⟩
      · exact .inl (hk.deltatable ▸ hq)
      · rw [modify_revnum Delta.unmark_revnum, hk.revnum]
    | false =>
      simp only [Bool.false_eq_true, if_false] at hd hp
      split at hp
      · cases hp
      rename_i rf3 hbase
      obtain rfl := Option.some.inj (Except.ok.inj hp)
      have hbr2 := (hd.keeps hk).branches
      have h3 : Sorted rf3 ∧ rf3.deltatable = rf2.deltatable ∧ rf3.branches d = [] ∧
          ∀ q, rf3.revnum q = rf2.revnum q := by
        rcases importbase_cases hbase with rfl | ⟨bp, rfl⟩
        · exact ⟨hs2, rfl, hbr2, fun _ => rfl⟩
        · have hbase (dd : Delta) :
              ({ dd with diffbase := some bp } : Delta).branchlist = dd.branchlist := rfl
          exact ⟨hs2.modify hi2 (fun _ => rfl) hbase, rfl, (modify_branches hbase).trans hbr2,
            fun _ => modify_revnum fun _ => rfl⟩
      obtain ⟨hs3, htab3, hbr3, hrev3⟩ := h3
      have htab : rf3.deltatable = rf.deltatable := htab3.trans hk.deltatable
      have hrev' (q : Ptr) : rf3.revnum q = rf.revnum q := (hrev3 q).trans (hk.revnum q)
      refine ⟨hs3.insertsorteddelta hbr3 fun q hq => ?_, fun q hq => ?_, hrev'⟩
      · rw [htab] at hq
        rw [hrev', hrev', hrev]
        exact hnew q hq fun hqd => hd.notMem (hqd ▸ hq)
      · rcases List.mem_cons.mp ((insertBefore_perm _ _ _).mem_iff.mp hq) with rfl | hq
        · exact .inr rfl
        · exact .inl (htab ▸ hq)

/-- An entry whose `next` is not in the table. -/
theorem Sorted.importinto (h : Sorted rf) (hi : Inv rf []) {d : Ptr} {placeholder : Bool}
    {revnum revdate author : List Byte} {state : Option (List Byte)} {next : Option Revnum}
    (hrev : rf.revnum d = revnum) (hreal : rf.real d = !placeholder) (hlive : (rf.mem d).isSome)
    (hd : if placeholder then d ∈ rf.deltatable else Fresh rf d)
    (hnew : ∀ q ∈ rf.deltatable, q ≠ d → rf.revnum q ≠ revnum)
    (hnext : ∀ r, next = some r → r ≠ revnum ∧ ∀ q ∈ rf.deltatable, rf.revnum q ≠ r)
    (hok : rf.importinto d placeholder revnum revdate author state next = .ok rf') :
    Sorted rf' := by
  have hfill : Inv (rf.modify d (Delta.fill revdate author state)) [] :=
    hi.modify (fun _ => rfl) (fun _ => rfl) fun _ => rfl
  have hs1 : Sorted (rf.modify d (Delta.fill revdate author state)) :=
    h.modify hi (Delta.fill_revnum _ _ _) (Delta.fill_branchlist _ _ _)
  have hrevs (q : Ptr) : (rf.modify d (Delta.fill revdate author state)).revnum q = rf.revnum q :=
    modify_revnum (Delta.fill_revnum _ _ _)
  have hreal1 : (rf.modify d (Delta.fill revdate author state)).real d = !placeholder :=
    (modify_real (Delta.fill_placeholder _ _ _)).trans hreal
  have hlive1 : ((rf.modify d (Delta.fill revdate author state)).mem d).isSome := by
    rw [modify_isSome]
    exact hlive
  have htab : (rf.modify d (Delta.fill revdate author state)).deltatable = rf.deltatable := rfl
  have hd1 : if placeholder then d ∈ (rf.modify d (Delta.fill revdate author state)).deltatable
      else Fresh (rf.modify d (Delta.fill revdate author state)) d := by
    cases placeholder with
    | true => exact hd
    | false => exact Fresh.modify hd (Delta.fill_branchlist _ _ _)
  simp only [RcsFile.importinto, bind, Except.bind] at hok
  generalize rf.modify d (Delta.fill revdate author state) = rf1 at *
  have hnew1 : ∀ q ∈ rf1.deltatable, q ≠ d → rf1.revnum q ≠ revnum := fun q hq => by
    rw [hrevs]
    exact hnew q (htab ▸ hq)
  cases next with
  | none =>
    simp only [RcsFile.importnext] at hok
    split at hok
    · cases hok
    rename_i v hv
    cases v with
    | none =>
      obtain rfl := Except.ok.inj hok
      exact hs1
    | some rf2 =>
      obtain rfl := Except.ok.inj hok
      exact (hs1.importplace hfill ((hrevs d).trans hrev) hlive1 hreal1 hd1 hnew1 hv).1
  | some next =>
    obtain ⟨hne, hnextnew⟩ := hnext next rfl
    simp only [RcsFile.importnext] at hok
    generalize hdn : { createdelta next with placeholder := true, diffbase := some d } = dn at hok
    have hdbrk := hfill.ne_brk hlive1
    have halloc := hfill.alloc dn
    have hsA := hs1.alloc hfill dn
    have hmemA : (rf1.alloc dn).mem d = rf1.mem d := alloc_mem hdbrk
    have hrevA {q : Ptr} (hq : (rf1.mem q).isSome) : (rf1.alloc dn).revnum q = rf.revnum q := by
      rw [← hrevs]
      simp only [RcsFile.revnum, alloc_mem (hfill.ne_brk hq)]
    split at hok
    · cases hok
    rename_i v hv
    cases v with
    | none =>
      obtain rfl := Except.ok.inj hok
      exact hsA
    | some rf2 =>
      obtain rfl := Except.ok.inj hok
      have hdA : if placeholder then d ∈ (rf1.alloc dn).deltatable else Fresh (rf1.alloc dn) d := by
        cases placeholder with
        | true => exact hd1
        | false => exact Fresh.alloc hd1 hfill dn
      have hrealA : (rf1.alloc dn).real d = !placeholder := by simpa only [RcsFile.real, hmemA]
      have hliveA : ((rf1.alloc dn).mem d).isSome := by rw [hmemA]; exact hlive1
      have hdrev : (rf1.alloc dn).revnum d = revnum := (hrevA hlive1).trans hrev
      obtain ⟨hs2, htab2, hrev2⟩ := hsA.importplace halloc hdrev hliveA hrealA hdA
        (fun q hq hqd => by
          rw [hrevA (hfill.live q hq)]
          exact hnew q (htab ▸ hq) hqd) hv
      obtain ⟨-, hfr⟩ := halloc.importplace hdrev hrealA hliveA hdA hv
      obtain ⟨hfresh, -⟩ := hfr rf1.brk hdbrk.symm (hfill.fresh_alloc (by rw [← hdn]; rfl))
        (by simp [RcsFile.real, alloc_mem_brk, ← hdn])
      have hnextrev : rf2.revnum rf1.brk = next := by
        rw [hrev2]
        simp [RcsFile.revnum, alloc_mem_brk, ← hdn, createdelta]
      refine hs2.insertsorteddelta hfresh.branches fun q hq => ?_
      rw [hnextrev, hrev2]
      rcases htab2 q hq with hq | rfl
      · rw [hrevA (hfill.live q hq)]
        exact hnextnew q (htab ▸ hq)
      · rw [hdrev]
        exact hne.symm

/-- What is not found has no delta in the table. -/
theorem Inv.revnum_ne_of_getdelta (hi : Inv rf extra) {revnum : Revnum}
    (h : rf.getdelta revnum = none) : ∀ q ∈ rf.deltatable, rf.revnum q ≠ revnum := by
  intro q hq hrev
  have := List.find?_eq_none.mp h q hq
  rw [map_revnum_eq, if_pos (hi.live q hq), hrev] at this
  simp at this

/-- The `next` of an entry that is imported is new: it is not the entry, and nothing is found. -/
def NewNext (known : Revnum → Option Bool) (revnum : Revnum) (next : Option Revnum) : Prop :=
  known revnum ≠ some true → ∀ r, next = some r → r ≠ revnum ∧ known r = none

instance (known : Revnum → Option Bool) (revnum : Revnum) (next : Option Revnum) :
    Decidable (NewNext known revnum next) :=
  decidable_of_iff (known revnum = some true ∨ ∀ r ∈ next, r ≠ revnum ∧ known r = none) (by
    unfold NewNext
    rw [← Classical.or_iff_not_imp_left]
    rfl)

theorem Sorted.importdelta (h : Sorted rf) (hi : Inv rf []) {revnum revdate author : List Byte}
    {state : Option (List Byte)} {next : Option Revnum} (hnext : NewNext rf.look revnum next)
    (hok : rf.importdelta revnum revdate author state next = .ok rf') : Sorted rf' := by
  have hnext' (hnew : rf.look revnum ≠ some true) (r : Revnum) (hr : next = some r) :
      r ≠ revnum ∧ ∀ q ∈ rf.deltatable, rf.revnum q ≠ r := by
    obtain ⟨hne, hnone⟩ := hnext hnew r hr
    exact ⟨hne, hi.revnum_ne_of_getdelta (Option.map_eq_none_iff.mp hnone)⟩
  rw [RcsFile.importdelta] at hok
  split at hok
  · rename_i hp
    have hnew : rf.look revnum ≠ some true := by
      rw [RcsFile.look, hp]
      simp
    have hrevs {q : Ptr} (hq : q ∈ rf.deltatable) :
        (rf.alloc (createdelta revnum)).revnum q = rf.revnum q := by
      simp only [RcsFile.revnum, alloc_mem (hi.ne_brk (hi.live q hq))]
    have hrevd : (rf.alloc (createdelta revnum)).revnum rf.brk = revnum := by
      simp [RcsFile.revnum, alloc_mem_brk, createdelta]
    have hreald : (rf.alloc (createdelta revnum)).real rf.brk = !false := by
      simp [RcsFile.real, alloc_mem_brk, createdelta]
    refine (h.alloc hi _).importinto (hi.alloc _) hrevd hreald (by rw [alloc_mem_brk]; rfl)
      (hi.fresh_alloc rfl) (fun q hq _ => ?_) (fun r hr => ?_) hok
    · rw [hrevs hq]
      exact hi.revnum_ne_of_getdelta hp q hq
    · obtain ⟨hne, hall⟩ := hnext' hnew r hr
      exact ⟨hne, fun q hq => by rw [hrevs hq]; exact hall q hq⟩
  · rename_i p hp
    obtain ⟨hpt, d, hd, hr⟩ := getdelta_some hp
    simp only [bind, Except.bind, deref_ok.mpr hd] at hok
    split at hok
    · rename_i hph
      have hreal : rf.real p = !true := by simp [RcsFile.real, hd, hph]
      have hnew : rf.look revnum ≠ some true := by
        rw [RcsFile.look, hp, Option.map_some, hreal]
        simp
      refine h.importinto hi (getdelta_revnum hp) hreal (by rw [hd]; rfl) hpt (fun q hq hqp heq => ?_)
        (hnext' hnew) hok
      -- the table has the number once
      have hsymm : Std.Symm fun a b => rf.revnum a ≠ rf.revnum b := ⟨fun _ _ => Ne.symm⟩
      exact h.distinct.forall hq hpt hqp (heq.trans (getdelta_revnum hp).symm)
    · obtain rfl := Except.ok.inj hok
      exact h

/-! ## Editing -/

theorem Sorted.addelta (h : Sorted rf) (hi : Inv rf []) {revnum revdate author diffbase : List Byte}
    {d : Option Ptr} (hok : rf.addelta revnum revdate author diffbase = .ok (rf', d)) :
    Sorted rf' := by
  rw [RcsFile.addelta] at hok
  split at hok
  · obtain ⟨rfl, -⟩ := Prod.mk.inj (Except.ok.inj hok)
    exact h
  rename_i hp
  simp only [bind, Except.bind] at hok
  generalize hnew : { createdelta revnum with
    revdate := revdate, author := author, diffbase := rf.getdelta diffbase } = new at hok
  have hrevd : (rf.alloc new).revnum rf.brk = revnum := by
    simp [RcsFile.revnum, alloc_mem_brk, createdelta, ← hnew]
  have hfresh : Fresh (rf.alloc new) rf.brk := hi.fresh_alloc (by rw [← hnew]; rfl)
  have hne : ∀ q ∈ (rf.alloc new).deltatable, (rf.alloc new).revnum q ≠ revnum := fun q hq => by
    simp only [RcsFile.revnum, alloc_mem (hi.ne_brk (hi.live q hq))]
    exact hi.revnum_ne_of_getdelta hp q hq
  have hiA := hi.alloc new
  have hsA := h.alloc hi new
  generalize rf.alloc new = rf0 at *
  split at hok
  · cases hok
  rename_i v hv
  obtain ⟨rf1, b⟩ := v
  cases b with
  | none =>
    obtain ⟨rfl, -⟩ := Prod.mk.inj (Except.ok.inj hok)
    exact (hsA.findbranch hiA hv).1
  | some b =>
    obtain ⟨rfl, -⟩ := Prod.mk.inj (Except.ok.inj hok)
    obtain ⟨-, hk⟩ := hiA.insertFound hrevd hfresh.live hv (rcsrevIstrunk revnum = some true)
    have hs2 := hsA.insertFound hiA hrevd (fun q hq => hne q (hiA.mem_members.mp hq).1) hv
    refine hs2.insertsorteddelta (hfresh.keeps hk).branches fun q hq => ?_
    rw [hk.deltatable] at hq
    rw [hk.revnum, hk.revnum, hrevd]
    exact hne q hq

/-- A delta is taken out of its list and of the table. -/
theorem Sorted.remove (h : Sorted rf) (hi : Inv rf []) (p : Ptr) : Sorted (rf.remove p) := by
  have htab {q : Ptr} (hq : q ∈ rf.deltatable.erase p) : q ≠ p ∧ q ∈ rf.deltatable :=
    hi.nodup.mem_erase_iff.mp hq
  have hnodup := (List.nodup_append.mp hi.nodup_members).1
  have htrunk {q : Ptr} (hq : q ∈ rf.trunk.erase p) : q ≠ p ∧ q ∈ rf.trunk :=
    hnodup.mem_erase_iff.mp hq
  refine ⟨?_, ?_, ?_, fun q hq => ?_, fun q hq => ?_⟩
  · refine (h.table.sublist List.erase_sublist).imp_of_mem fun {a b} ha hb hab => ?_
    rwa [remove_revnum (htab ha).1, remove_revnum (htab hb).1]
  · refine (h.distinct.sublist List.erase_sublist).imp_of_mem fun {a b} ha hb hab => ?_
    rwa [remove_revnum (htab ha).1, remove_revnum (htab hb).1]
  · refine (h.trunk.sublist List.erase_sublist).imp_of_mem fun {a b} ha hb hab => ?_
    rwa [remove_revnum (htrunk ha).1, remove_revnum (htrunk hb).1]
  · obtain ⟨hqp, hq⟩ := htrunk hq
    rw [remove_revnum hqp]
    exact h.trunkNum q hq
  · obtain ⟨hqp, hq⟩ := htab hq
    obtain ⟨hbs, hbnum, hds, hdnum⟩ := h.branches q hq
    have hx {b : Branch} (hb : b ∈ rf.branches q) {x : Ptr} (hx : x ∈ b.deltalist.erase p) :
        x ≠ p ∧ x ∈ b.deltalist := (hi.nodup_deltalist hq hb).mem_erase_iff.mp hx
    refine ⟨?_, fun b hb => ?_, fun b hb => ?_, fun b hb x hxb => ?_⟩
    · rw [remove_branches hqp, List.pairwise_map]
      exact hbs
    · rw [remove_branches hqp] at hb
      obtain ⟨b', hb', rfl⟩ := List.mem_map.mp hb
      rw [remove_revnum hqp]
      exact hbnum b' hb'
    · rw [remove_branches hqp] at hb
      obtain ⟨b', hb', rfl⟩ := List.mem_map.mp hb
      refine ((hds b' hb').sublist List.erase_sublist).imp_of_mem fun {x y} hxb hyb hxy => ?_
      rwa [remove_revnum (hx hb' hxb).1, remove_revnum (hx hb' hyb).1]
    · rw [remove_branches hqp] at hb
      obtain ⟨b', hb', rfl⟩ := List.mem_map.mp hb
      obtain ⟨hxp, hxb⟩ := hx hb' hxb
      rw [remove_revnum hxp]
      exact hdnum b' hb' x hxb

theorem Sorted.edit (h : Sorted rf) (hi : Inv rf []) {e : Edit} (hok : rf.edit e = .ok rf') :
    Sorted rf' := by
  cases e with
  | addelta revnum revdate author diffbase =>
    simp only [RcsFile.edit, bind, Except.bind] at hok
    split at hok
    · cases hok
    · rename_i v hv
      obtain rfl := Except.ok.inj hok
      exact h.addelta hi hv
  | deleterev revname =>
    simp only [RcsFile.edit, RcsFile.deleterev] at hok
    split at hok
    · cases hok
    · rename_i p hp
      simp only [bind, Except.bind] at hok
      split at hok
      · cases hok
      · split at hok
        · cases hok
        · obtain rfl := Except.ok.inj hok
          exact h.remove hi p
  | setstate p state =>
    obtain rfl := Except.ok.inj hok
    exact h.modify hi (fun _ => rfl) fun _ => rfl
  | appendlog p logline =>
    obtain rfl := Except.ok.inj hok
    exact h.modify hi (fun _ => rfl) fun _ => rfl
  | appendtext p textline =>
    obtain rfl := Except.ok.inj hok
    exact h.modify hi (fun _ => rfl) fun _ => rfl

/-! ## Runs -/

/-- The lists of the tree, each with its number, which the trunk has not got. -/
def RcsFile.numberedLists (rf : RcsFile) : List (Option Revnum × List Ptr) :=
  (none, rf.trunk) :: rf.deltatable.flatMap fun p =>
    (rf.branches p).map fun b => (some b.revnum, b.deltalist)

/-- The number of the list that a delta should be in. -/
def listNum (revnum : Revnum) : Option Revnum :=
  if rcsrevIstrunk revnum = some true then none else rcsrevPrefix revnum

structure Ordered (rf : RcsFile) : Prop where
  table : (rf.deltatable.map rf.revnum).Pairwise fun r s => rcsnumCmp r s ≠ .gt
  distinct : (rf.deltatable.map rf.revnum).Nodup
  trunk : (rf.trunk.map rf.revnum).Pairwise fun r s => rcsnumCmp r s = .gt
  deltas : ∀ p ∈ rf.deltatable, ∀ b ∈ rf.branches p,
    (b.deltalist.map rf.revnum).Pairwise fun r s => rcsnumCmp r s = .lt
  branches : ∀ p ∈ rf.deltatable,
    ((rf.branches p).map Branch.revnum).Pairwise fun r s => rcsnumCmp r s = .gt
  once : ∀ d ∈ rf.deltatable, rf.real d = true → (rf.numberedLists.flatMap Prod.snd).count d = 1
  listed : ∀ l ∈ rf.numberedLists, ∀ d ∈ l.2,
    d ∈ rf.deltatable ∧ rf.real d = true ∧ l.1 = listNum (rf.revnum d)

theorem flatMap_numberedLists (rf : RcsFile) : rf.numberedLists.flatMap Prod.snd = rf.members := by
  unfold RcsFile.numberedLists RcsFile.members
  rw [List.flatMap_cons, List.flatMap_assoc]
  congr 1
  refine List.flatMap_congr fun p _ => ?_
  rw [List.flatMap_map]
  rfl

theorem Sorted.ordered (h : Sorted rf) (hi : Inv rf []) : Ordered rf := by
  refine ⟨List.pairwise_map.mpr h.table, List.pairwise_map.mpr h.distinct,
    List.pairwise_map.mpr h.trunk, fun p hp b hb => List.pairwise_map.mpr ((h.branches p hp).deltas b hb),
    fun p hp => List.pairwise_map.mpr (h.branches p hp).branches, fun d hd hreal => ?_,
    fun l hl d hd => ?_⟩
  · rw [flatMap_numberedLists]
    exact List.count_eq_one_of_mem hi.nodup_members (hi.mem_members.mpr ⟨hd, hreal⟩)
  · have hmem : d ∈ rf.members := by
      rw [← flatMap_numberedLists]
      exact List.mem_flatMap.mpr ⟨l, hl, hd⟩
    obtain ⟨hdt, hreal⟩ := hi.mem_members.mp hmem
    refine ⟨hdt, hreal, ?_⟩
    rcases List.mem_cons.mp hl with rfl | hl
    · exact (if_pos (h.trunkNum d hd)).symm
    · obtain ⟨p, hp, hl⟩ := List.mem_flatMap.mp hl
      obtain ⟨b, hb, rfl⟩ := List.mem_map.mp hl
      have hnum := (h.branches p hp).deltaNum b hb d hd
      have hnot : rcsrevIstrunk (rf.revnum d) ≠ some true := fun htrunk => by
        have := rcsrevIstrunk_eq_true.mp htrunk
        have := count_of_rcsrevPrefix hnum
        have := count_of_rcsrevPrefix ((h.branches p hp).branchNum b hb)
        omega
      rw [listNum, if_neg hnot]
      exact hnum.symm

/-- The `next` of every entry that is imported is new. -/
def NewNexts : (Revnum → Option Bool) → List DeltaEntry → Prop
  | _, [] => True
  | known, e :: es =>
    NewNext known e.revnum e.next ∧ NewNexts (lookImport known e.revnum e.next) es

instance decidableNewNexts : (known : Revnum → Option Bool) → (es : List DeltaEntry) →
    Decidable (NewNexts known es)
  | _, [] => isTrue trivial
  | known, e :: es =>
    have := decidableNewNexts (lookImport known e.revnum e.next) es
    inferInstanceAs (Decidable (_ ∧ _))

theorem Sorted.foldlM_importEntry (h : Sorted rf) (hi : Inv rf []) {es : List DeltaEntry}
    (hnext : NewNexts rf.look es) (hok : es.foldlM Rcsparse.importEntry rf = .ok rf') :
    Sorted rf' ∧ Inv rf' [] := by
  induction es generalizing rf with
  | nil =>
    obtain rfl := Except.ok.inj hok
    exact ⟨h, hi⟩
  | cons e es ih =>
    rw [List.foldlM_cons] at hok
    cases hrf1 : Rcsparse.importEntry rf e with
    | error e =>
      rw [hrf1] at hok
      cases hok
    | ok rf1 =>
      rw [hrf1] at hok
      have himp : rf.importdelta e.revnum e.revdate e.author e.state e.next = .ok rf1 := by
        unfold Rcsparse.importEntry at hrf1
        cases hr : rf.importdelta e.revnum e.revdate e.author e.state e.next with
        | error _ =>
          rw [hr] at hrf1
          cases hrf1
        | ok rf2 =>
          rw [hr] at hrf1
          rw [show rf2 = rf1 from Except.ok.inj hrf1]
      have heq := hi.importdelta_eq e.revnum e.revdate e.author e.state e.next
      have hlook : rf1.look = lookImport rf.look e.revnum e.next := by
        by_cases hable : Importable rf.look e.revnum
        · obtain ⟨rf2, hrf2, -, hlook⟩ := heq.1 hable
          rw [himp] at hrf2
          rw [Except.ok.inj hrf2, hlook]
        · rw [heq.2 hable] at himp
          cases himp
      exact ih (h.importdelta hi hnext.1 himp) (hi.importdelta himp) (hlook ▸ hnext.2) hok

theorem returns_parseDeltatexts (h : Sorted rf) (hi : Inv rf []) :
    Scan.Returns (Rcsparse.parseDeltatexts rf) fun rf => Sorted rf ∧ Inv rf [] := by
  refine Rcsparse.returns_loop (fun rf h => ?_) (I := fun rf => Sorted rf ∧ Inv rf []) ⟨h, hi⟩
  refine Scan.returns_bind _ fun num => ?_
  match num with
  | none =>
    exact Scan.returns_bind _ fun lex => Scan.returns_ite (Scan.returns_pure h) Scan.returns_throw
  | some revnum =>
    dsimp only
    cases rf.getdelta revnum with
    | none => exact Scan.returns_pure h
    | some d =>
      refine Scan.returns_bind _ fun _ => Scan.returns_bind _ fun log => ?_
      refine Scan.returns_bind _ fun tok => Scan.returns_bind _ fun tok => Scan.returns_ite ?_ Scan.returns_throw
      refine Scan.returns_bind _ fun text => Scan.returns_pure ?_
      exact ⟨h.1.modify h.2 (fun _ => rfl) fun _ => rfl,
        h.2.modify (fun _ => rfl) (fun _ => rfl) fun _ => rfl⟩

theorem sorted_of_rcsparse {content : List Byte} {adm : Rcsparse.Admin}
    (h : Rcsparse.rcsparseRw content = .ok (adm, rf))
    (hnext : ∀ es, Rcsparse.fileParts content = some (adm, es) → NewNexts (fun _ => none) es) :
    Sorted rf ∧ Inv rf [] := by
  obtain ⟨es, rf1, lex, lex', hparts, hfold, hrest⟩ := Rcsparse.rcsparse_ok h
  obtain ⟨hs, hi⟩ := (Sorted.empty adm.head).foldlM_importEntry (Inv.empty adm.head)
    (hnext es hparts) hfold
  have hreturns : Scan.Returns (Rcsparse.parseRest Rcsparse.parseDeltatexts rf1)
      fun rf => Sorted rf ∧ Inv rf [] :=
    Scan.returns_bind _ fun _ => Scan.returns_bind _ fun _ => returns_parseDeltatexts hs hi
  exact hreturns lex rf lex' hrest

/-- What comes of a file by calls that succeed; no delta is deleted that another one branches
off from. -/
inductive Edited (rf : RcsFile) : RcsFile → Prop
  | refl : Edited rf rf
  | step {rf' rf'' : RcsFile} {e : Edit} :
    Edited rf rf' → rf'.Allows e → rf'.edit e = .ok rf'' → Edited rf rf''

theorem sorted_of_edited (h : Sorted rf) (hi : Inv rf []) (hrun : Edited rf rf') :
    Sorted rf' ∧ Inv rf' [] := by
  induction hrun with
  | refl => exact ⟨h, hi⟩
  | step _ hallows hok ih => exact ⟨ih.1.edit ih.2 hok, ih.2.edit hallows hok⟩

/-- Every file that is parsed and then edited. -/
theorem ordered_of_edited {content : List Byte} {adm : Rcsparse.Admin}
    (h : Rcsparse.rcsparseRw content = .ok (adm, rf))
    (hnext : ∀ es, Rcsparse.fileParts content = some (adm, es) → NewNexts (fun _ => none) es)
    (hrun : Edited rf rf') : Ordered rf' := by
  obtain ⟨hs, hi⟩ := sorted_of_rcsparse h hnext
  obtain ⟨hs', hi'⟩ := sorted_of_edited hs hi hrun
  exact hs'.ordered hi'

/-- A file of two deltas, to which one on a branch is added, and the head deleted. -/
theorem ordered_of_edited_twoDeltas : ∃ adm rf rf',
    Rcsparse.rcsparseRw Rcsparse.twoDeltas = .ok (adm, rf) ∧ Edited rf rf' ∧ Ordered rf' := by
  have hnext : (match Rcsparse.fileParts Rcsparse.twoDeltas with
      | none => true
      | some r => decide (NewNexts (fun _ => none) r.2)) = true := by decide +kernel
  have hrun : ((Rcsparse.rcsparseRw Rcsparse.twoDeltas).map fun r =>
      match r.2.edit (.addelta (bytes "1.1.2.1".toList) [52] [97] (bytes "1.1".toList)) with
      | .error _ => false
      | .ok rf => ((rf.getdelta (bytes "1.2".toList)).all fun p => decide (rf.branchDeltas p = [])) &&
        match rf.edit (.deleterev (bytes "1.2".toList)) with
        | .error _ => false
        | .ok _ => true) = .ok true := by decide +kernel
  obtain ⟨⟨adm, rf⟩, hparse, hedit⟩ := Rcsparse.map_eq_ok.mp hrun
  dsimp only at hedit
  split at hedit
  · cases hedit
  rename_i rf1 hrf1
  rw [Bool.and_eq_true] at hedit
  obtain ⟨hallows, hedit⟩ := hedit
  split at hedit
  · cases hedit
  rename_i rf2 hrf2
  have hadd : rf.Allows (.addelta (bytes "1.1.2.1".toList) [52] [97] (bytes "1.1".toList)) := trivial
  have hdelete : rf1.Allows (.deleterev (bytes "1.2".toList)) := fun p hp => by
    rw [hp] at hallows
    simpa using hallows
  have hedited : Edited rf rf2 := .step (.step .refl hadd hrf1) hdelete hrf2
  refine ⟨adm, rf, rf2, hparse, hedited, ordered_of_edited hparse (fun es hes => ?_) hedited⟩
  rw [hes] at hnext
  exact of_decide_eq_true hnext

/-- The same deltas in the other order: the `next` of the head is put into the table once more. -/
theorem not_ordered : ∃ adm rf,
    Rcsparse.rcsparseRw Rcsparse.twoReversed = .ok (adm, rf) ∧ ¬Ordered rf := by
  have hrun : (Rcsparse.rcsparseRw Rcsparse.twoReversed).map
      (fun r => r.2.deltatable.map r.2.revnum) =
        .ok [bytes "1.1".toList, bytes "1.1".toList, bytes "1.2".toList] := by decide +kernel
  obtain ⟨⟨adm, rf⟩, hrf, htable⟩ := Rcsparse.map_eq_ok.mp hrun
  refine ⟨adm, rf, hrf, fun h => ?_⟩
  have := h.distinct
  rw [htable] at this
  exact absurd this (by decide)

end Csup.Rcs
