import Csup.Rcs.Loaded
import Csup.Rcs.Written

/-!
# A file that is read again

`rcsfile_write` puts the entries of both sections in an order that depends on the headers alone
(`RcsDoc.Ordered`): a delta comes in front of its children, those on branches by number in the first
section and by date in the second one.

* `Represents.ordered`: what is written is in that order;
* `Loaded.write_eq`: what is in that order is written as it was read.
-/

namespace Csup.Rcs

open Csup.Framework

/-! ## The order of a file -/

namespace RcsDoc

variable (doc : RcsDoc)

/-- The header of a revision. -/
def entry (r : Revnum) : Option HeaderEntry := doc.deltas.find? fun e => e.revnum = r

def date (r : Revnum) : List Byte := ((doc.entry r).map HeaderEntry.revdate).getD []

def nextOf (r : Revnum) : List Revnum := ((doc.entry r).bind HeaderEntry.next).toList

def branchesOf (r : Revnum) : List Revnum := ((doc.entry r).map HeaderEntry.branches).getD []

/-- The order of the headers is a walk over these. -/
def children (r : Revnum) : List Revnum := doc.nextOf r ++ doc.branchesOf r

/-- The branches by date, the next one of a branch among them and that of the trunk behind
them. -/
def textChildren (r : Revnum) : List Revnum :=
  ((doc.branchesOf r).reverse.foldl
    (fun sorted r => insertBefore (fun r3 => rcsnumCmp (doc.date r) (doc.date r3) ≠ .gt) r sorted)
    ((doc.nextOf r).filter fun r => rcsrevIstrunk r ≠ some true)).reverse ++
  (doc.nextOf r).filter fun r => rcsrevIstrunk r = some true

/-- The number of the branch of a revision is smaller. -/
def BranchLt (r r' : Revnum) : Prop :=
  rcsnumCmp ((rcsrevPrefix r).getD []) ((rcsrevPrefix r').getD []) = .lt

structure Ordered : Prop where
  deltas : ∃ fuel,
    stackWalk doc.children fuel [doc.head] = some (doc.deltas.map HeaderEntry.revnum)
  texts : ∃ fuel,
    stackWalk doc.textChildren fuel [doc.head] = some (doc.texts.map TextEntry.revnum)
  branches : ∀ e ∈ doc.deltas, e.branches.Pairwise BranchLt

variable {doc} {e : HeaderEntry} {r : Revnum}

theorem entry_some (h : doc.entry r = some e) : e ∈ doc.deltas ∧ e.revnum = r :=
  ⟨List.mem_of_find?_eq_some h, by simpa using List.find?_some h⟩

theorem entry_of_mem (hnd : (doc.deltas.map HeaderEntry.revnum).Nodup) (he : e ∈ doc.deltas) :
    doc.entry e.revnum = some e := by
  obtain ⟨e', he'⟩ := Option.isSome_iff_exists.mp
    (List.find?_isSome.mpr ⟨e, he, by simp⟩ : (doc.entry e.revnum).isSome)
  obtain ⟨hmem, hrev⟩ := entry_some he'
  rw [RcsDoc.entry, he', List.inj_on_of_nodup_map hnd hmem he hrev]

/-- The order depends on the headers alone. -/
theorem children_congr {doc' : RcsDoc} (h : doc'.entry = doc.entry) :
    doc'.children = doc.children ∧ doc'.textChildren = doc.textChildren := by
  have hnext (r : Revnum) : doc'.nextOf r = doc.nextOf r := by rw [nextOf, h, nextOf]
  have hbranches (r : Revnum) : doc'.branchesOf r = doc.branchesOf r := by
    rw [branchesOf, h, branchesOf]
  have hdate (r : Revnum) : doc'.date r = doc.date r := by rw [date, h, date]
  constructor <;> funext r
  · simp only [children, hnext, hbranches]
  · simp only [textChildren, hnext, hbranches, hdate]

end RcsDoc

theorem eq_of_map_eq {α β : Type*} {f : α → β} {l l' : List α} (hmap : l'.map f = l.map f)
    (hnd : (l.map f).Nodup) (hsub : ∀ x ∈ l', x ∈ l) : l' = l := by
  have hlen : l'.length = l.length := by simpa using congrArg List.length hmap
  refine List.ext_getElem hlen fun i hi hi' => ?_
  refine List.inj_on_of_nodup_map hnd (hsub _ (List.getElem_mem hi)) (List.getElem_mem hi') ?_
  have := List.getElem_of_eq hmap (i := i) (by simpa using hi)
  simpa using this

theorem map_insertBefore {α β : Type*} {f : α → β} {before : α → Bool} {before' : β → Bool} {x : α}
    {l : List α} (h : ∀ y ∈ l, before' (f y) = before y) :
    (insertBefore before x l).map f = insertBefore before' (f x) (l.map f) := by
  induction l with
  | nil => rfl
  | cons y ys ih =>
    rw [List.map_cons, insertBefore, insertBefore, h y List.mem_cons_self]
    split
    · rfl
    · rw [List.map_cons, ih fun z hz => h z (.tail _ hz)]

/-! ## What is written -/

namespace Represents

variable {rf : RcsFile} {s : Repo} {doc : RcsDoc} {root : Node} {hs : List Node}
  {ts : List TextNode} (h : Represents rf s) (hp : Printed rf doc root hs ts)

include h hp

theorem entry_node {n : Node} (hn : IsNode rf n) :
    ∃ e, doc.entry (rf.revnum n.1) = some e ∧ HeaderOf rf n e := by
  obtain ⟨e, he, hh⟩ := h.exists_header hp hn
  exact ⟨e, HeaderOf.revnum hh ▸ RcsDoc.entry_of_mem (h.layout hp).nodup he, hh⟩

theorem date_node {n : Node} (hn : IsNode rf n) : doc.date (rf.revnum n.1) = rf.revdate n.1 := by
  obtain ⟨e, he, d, hd, rfl⟩ := h.entry_node hp hn
  simp [RcsDoc.date, he, RcsFile.revdate, hd]

theorem nextOf_node {n : Node} (hn : IsNode rf n) :
    doc.nextOf (rf.revnum n.1) = (node? n.2).toList.map fun c => rf.revnum c.1 := by
  obtain ⟨e, he, d, hd, rfl⟩ := h.entry_node hp hn
  rw [RcsDoc.nextOf, he]
  rcases n with ⟨p, _ | ⟨c, cs⟩⟩ <;> rfl

theorem branchesOf_node {n : Node} (hn : IsNode rf n) : doc.branchesOf (rf.revnum n.1) =
    (heads (rf.branches n.1)).reverse.map fun c => rf.revnum c.1 := by
  obtain ⟨e, he, d, hd, rfl⟩ := h.entry_node hp hn
  rw [RcsDoc.branchesOf, he, branches_of_mem hd]
  rfl

theorem children_node {n : Node} (hn : IsNode rf n) :
    (headerChildren rf n).map (fun c => rf.revnum c.1) = doc.children (rf.revnum n.1) := by
  rw [RcsDoc.children, h.nextOf_node hp hn, h.branchesOf_node hp hn, headerChildren, List.map_append]

theorem textChildren_node {n : Node} (hn : IsNode rf n) :
    (textChildren rf n).map (fun c => rf.revnum c.1) = doc.textChildren (rf.revnum n.1) := by
  have hpt := (h.inv.isNode_real hn).1
  have hupto : uptoEmpty (rf.branches n.1) = rf.branches n.1 := by
    refine List.takeWhile_eq_self_iff.mpr fun b hb => ?_
    simpa using h.filled n.1 hpt b hb
  have hnodes : ∀ c ∈ heads (rf.branches n.1), IsNode rf c := fun c hc => by
    obtain ⟨b, hb, hcb⟩ := mem_heads.mp hc
    exact isNode_branch hpt hb hcb
  have hnext : ∀ c ∈ branchNext rf n, IsNode rf c := fun c hc => by
    have hc := List.mem_of_mem_filter hc
    rw [Option.mem_toList, node?_eq_some] at hc
    exact hn.next hc
  -- the insertions by date
  have hfold : ∀ (ns sorted : List Node), (∀ c ∈ ns, IsNode rf c) → (∀ c ∈ sorted, IsNode rf c) →
      (ns.foldl (insertDated rf) sorted).map (fun c => rf.revnum c.1) =
        (ns.map fun c => rf.revnum c.1).foldl (fun sorted r =>
          insertBefore (fun r3 => rcsnumCmp (doc.date r) (doc.date r3) ≠ .gt) r sorted)
          (sorted.map fun c => rf.revnum c.1) := by
    intro ns
    induction ns with
    | nil => exact fun _ _ _ => rfl
    | cons c ns ih =>
      intro sorted hns hsorted
      have hc := hns c List.mem_cons_self
      rw [List.foldl_cons, List.map_cons, List.foldl_cons, ih _ (fun c hc => hns c (.tail _ hc))]
      · congr 1
        refine map_insertBefore fun y hy => ?_
        rw [h.date_node hp hc, h.date_node hp (hsorted y hy)]
      · intro y hy
        rcases List.mem_cons.mp ((insertBefore_perm _ _ _).mem_iff.mp hy) with rfl | hy
        · exact hc
        · exact hsorted y hy
  rw [textChildren, List.map_append, List.map_reverse, hupto, hfold _ _ hnodes hnext,
    RcsDoc.textChildren, h.branchesOf_node hp hn, h.nextOf_node hp hn, ← List.map_reverse,
    List.reverse_reverse, branchNext, trunkNext, List.filter_map, List.filter_map]
  rfl

/-- The numbers of the headers are in the order of a walk. -/
theorem walk_printed : stackWalk doc.children rf.deltatable.length [doc.head] =
    some (doc.deltas.map HeaderEntry.revnum) := by
  have hroot := isNode_root hp.trunk
  have hmap : stackWalk doc.children rf.deltatable.length ([root].map fun c => rf.revnum c.1) =
      (stackWalk (headerChildren rf) rf.deltatable.length [root]).map
        (List.map fun c => rf.revnum c.1) :=
    stackWalk_map_of (fun n hn c hc => h.inv.isNode_child hn hc) (fun n hn => h.children_node hp hn)
      _ fun n hn => List.mem_singleton.mp hn ▸ hroot
  rw [hp.walk] at hmap
  rw [hp.head, (visited hp).deltas]
  exact hmap

theorem walkText_printed : stackWalk doc.textChildren rf.deltatable.length [doc.head] =
    some (doc.texts.map TextEntry.revnum) := by
  have hroot : IsNode rf root := isNode_root hp.trunk
  have hclosed (m : TextNode) (hm : IsNode rf m.2) : ∀ c ∈ pairChildren rf m, IsNode rf c.2 := by
    intro c hc
    obtain ⟨c, hct, rfl⟩ := List.mem_map.mp hc
    exact h.inv.isNode_child hm (textChildren_subset hct)
  have hchildren (m : TextNode) (hm : IsNode rf m.2) :
      (pairChildren rf m).map (fun m => rf.revnum m.2.1) = doc.textChildren (rf.revnum m.2.1) := by
    rw [← h.textChildren_node hp hm, ← pairChildren_snd, List.map_map]
    rfl
  have hstack : ∀ m ∈ [((none, root) : TextNode)], IsNode rf m.2 := fun m hm => by
    rw [List.mem_singleton.mp hm]
    exact hroot
  have hmap := stackWalk_map_of hclosed hchildren rf.deltatable.length hstack
  rw [hp.walkText] at hmap
  rw [hp.head, revnum_texts hp.texts]
  exact hmap

theorem branches_lt {e : HeaderEntry} (he : e ∈ doc.deltas) :
    e.branches.Pairwise RcsDoc.BranchLt := by
  obtain ⟨n, hn, d, hd, rfl⟩ := h.exists_node hp he
  have hpt := (h.inv.isNode_real hn).1
  have hsorted := h.sorted.branches n.1 hpt
  rw [← branches_of_mem hd, List.pairwise_map, List.pairwise_reverse, heads,
    List.pairwise_filterMap]
  refine hsorted.branches.imp_of_mem fun {b b'} hb hb' hgt c hc c' hc' => ?_
  have hnumber {b : Branch} (hb : b ∈ rf.branches n.1) {c : Node} (hc : node? b.deltalist = some c) :
      rcsrevPrefix (rf.revnum c.1) = some b.revnum := by
    refine hsorted.deltaNum b hb c.1 ?_
    rw [node?_eq_some.mp hc]
    exact List.mem_cons_self
  rw [RcsDoc.BranchLt, hnumber hb hc, hnumber hb' hc']
  exact swap_lt hgt

theorem ordered : doc.Ordered :=
  ⟨⟨_, h.walk_printed hp⟩, ⟨_, h.walkText_printed hp⟩, fun _ he => h.branches_lt hp he⟩

end Represents

/-! ## What is read and written -/

namespace Loaded

variable {rf : RcsFile} {doc doc' : RcsDoc} {root : Node} {hs : List Node} {ts : List TextNode}
  (h : Loaded doc rf) (hd : doc.Intact)
  (hbr : ∀ e ∈ doc.deltas, e.branches.Pairwise RcsDoc.BranchLt) (hp : Printed rf doc' root hs ts)

include h hd hp

theorem revs_eq : doc'.revs = doc.revs := ((h.represents hd).revs_printed hp).trans h.revs

theorem head_eq : doc'.head = doc.head := by
  have hr := h.represents hd
  have hl' := hr.layout hp
  have hmem' : doc.head ∈ doc'.revs := h.revs_eq hd hp ▸ hd.layout.head
  have hmem : doc'.head ∈ doc.revs := h.revs_eq hd hp ▸ hl'.head
  rcases hl'.trunk.2 _ hmem' hd.layout.trunk.1 with heq | hlt
  · exact heq.symm
  · rcases hd.layout.trunk.2 _ hmem hl'.trunk.1 with heq | hlt'
    · exact heq
    · exact absurd hlt' (revisions.asymm hlt)

include hbr

/-- A header is written as it was read. -/
theorem header_mem {e' : HeaderEntry} (he' : e' ∈ doc'.deltas) : e' ∈ doc.deltas := by
  have hr := h.represents hd
  have hl' := hr.layout hp
  have hrevs := h.revs_eq hd hp
  have hnext' := hl'.next e' he'
  have hbranches' := hl'.branches e' he'
  have hlt' := hr.branches_lt hp he'
  obtain ⟨n, hn, hh⟩ := hr.exists_node hp he'
  obtain ⟨e, he, t, ht, db, -, hdata, -⟩ := h.delta n.1 (hr.inv.isNode_real hn).1
  obtain ⟨d, hd', hdd⟩ := Option.map_eq_some_iff.mp hdata
  obtain ⟨d₀, hd₀, heq⟩ := hh
  obtain rfl := Option.some.inj (hd'.symm.trans hd₀)
  have hrev : e'.revnum = e.revnum := by rw [heq]; exact congrArg Delta.revnum hdd
  have hdate : e'.revdate = e.revdate := by rw [heq]; exact congrArg Delta.revdate hdd
  have hauthor : e'.author = e.author := by rw [heq]; exact congrArg Delta.author hdd
  have hstate : e'.state = e.state := by rw [heq]; exact congrArg Delta.state hdd
  have hnext : e'.next = e.next := by
    refine Option.ext fun r => ?_
    rw [hnext', hrevs, hrev]
    exact (hd.layout.next e he r).symm
  have hbranches : e'.branches = e.branches := by
    have hlt := hbr e he
    have hnodup {l : List Revnum} (hl : l.Pairwise RcsDoc.BranchLt) : l.Nodup := hl.imp fun hab heq => by
      rw [RcsDoc.BranchLt, heq, rcsnumCmp_self] at hab
      cases hab
    refine List.Perm.eq_of_pairwise (fun a b _ _ hab hba => ?_) hlt' hlt
      ((List.perm_ext_iff_of_nodup (hnodup hlt') (hnodup hlt)).mpr fun r => ?_)
    · rw [RcsDoc.BranchLt, swap_gt hab] at hba
      cases hba
    · rw [hbranches', hrevs, hrev]
      exact (hd.layout.branches e he r).symm
  cases e
  cases e'
  simp only at hrev hdate hauthor hstate hnext hbranches
  subst hrev hdate hauthor hstate hnext hbranches
  exact he

theorem entry_eq : doc'.entry = doc.entry := by
  have hr := h.represents hd
  have hl' := hr.layout hp
  funext r
  cases he' : doc'.entry r with
  | some e' =>
    obtain ⟨hmem', rfl⟩ := RcsDoc.entry_some he'
    exact (RcsDoc.entry_of_mem hd.layout.nodup (h.header_mem hd hbr hp hmem')).symm
  | none =>
    cases he : doc.entry r with
    | none => rfl
    | some e =>
      obtain ⟨hmem, rfl⟩ := RcsDoc.entry_some he
      obtain ⟨e', hmem', hrev⟩ : e.revnum ∈ doc'.revs := h.revs_eq hd hp ▸ ⟨e, hmem, rfl⟩
      rw [← hrev, RcsDoc.entry_of_mem hl'.nodup hmem'] at he'
      cases he'

omit hbr in
/-- A text is written as it was read, its diffbase being the delta it comes behind. -/
theorem text_mem {t' : TextEntry} (ht' : t' ∈ doc'.texts) : t' ∈ doc.texts := by
  have hr := h.represents hd
  obtain ⟨m, hm, d, hd', hrev', hlog', hput⟩ := exists_of_forall₂ hp.texts ht'
  obtain ⟨a, ha, hreach⟩ := (mem_stackWalk hp.walkText).mp hm
  obtain rfl := List.mem_singleton.mp ha
  have hroot := isNode_root hp.trunk
  -- a node of the walk, with the delta it was reached from
  have hnode : IsNode rf m.2 ∧ ((m.1 = none ∧ rf.revnum m.2.1 = doc.head) ∨
      ∃ n, IsNode rf n ∧ m.1 = some n.1 ∧ revisions.Child doc.revs (rf.revnum n.1) (rf.revnum m.2.1)) := by
    clear hd' hrev' hlog' hput hm
    induction hreach with
    | refl => exact ⟨hroot, .inl ⟨rfl, hp.head.symm.trans (h.head_eq hd hp)⟩⟩
    | @tail m c _ hc ih =>
      obtain ⟨c, hct, rfl⟩ := List.mem_map.mp hc
      have hcc := textChildren_subset hct
      refine ⟨hr.inv.isNode_child ih.1 hcc, .inr ⟨m.2, ih.1, rfl, ?_⟩⟩
      rw [← h.revs]
      exact hr.sorted.child_of_headerChildren hr.inv ih.1 hcc
  obtain ⟨hn, hprev⟩ := hnode
  obtain ⟨e, he, t, ht, db, htr, hdata, hbase⟩ := h.delta m.2.1 (hr.inv.isNode_real hn).1
  have hrev : rf.revnum m.2.1 = e.revnum := (of_data hdata).1
  obtain ⟨d₀, hd₀, hdd⟩ := Option.map_eq_some_iff.mp hdata
  obtain rfl := Option.some.inj (hd'.symm.trans hd₀)
  have hdb : d.diffbase = db := congrArg Delta.diffbase hdd
  have hsame : d.diffbase = m.1 := by
    rw [hdb]
    cases hbase with
    | head hhead =>
      rcases hprev with ⟨hnone, -⟩ | ⟨n, -, -, hc⟩
      · exact hnone.symm
      · rw [hrev, hhead] at hc
        exact absurd hc hd.layout.head_not_child
    | @parent b hlt hbt hbreal hc =>
      rcases hprev with ⟨-, hhead⟩ | ⟨n, hnn, hsome, hc'⟩
      · rw [← hrev, hhead] at hc
        exact absurd hc hd.layout.head_not_child
      · rw [hrev] at hc'
        rw [hsome, hr.sorted.revnum_inj hbt (hr.inv.isNode_real hnn).1 (hc.unique hc')]
  have htext : t'.text = t.text := by
    simp only [RcsFile.puttext, bind, Except.bind, deref_ok.mpr hd', if_pos hsame] at hput
    rw [← Except.ok.inj hput]
    exact congrArg Delta.text hdd
  have hlog : t'.log = t.log := hlog'.trans (congrArg Delta.log hdd)
  have hrevt : t'.revnum = t.revnum := hrev'.trans ((congrArg Delta.revnum hdd).trans htr.symm)
  cases t
  cases t'
  simp only at hrevt hlog htext
  subst hrevt hlog htext
  exact ht

omit hbr hp in
/-- A file is written as it was read. -/
theorem write_eq (ho : doc.Ordered) : rf.write = .ok doc := by
  have hr := h.represents hd
  obtain ⟨doc', root, hs, ts, hw, hp⟩ := hr.exists_printed
  have hentry := h.entry_eq hd ho.branches hp
  have hhead := h.head_eq hd hp
  obtain ⟨f, hf⟩ := ho.deltas
  obtain ⟨g, hg⟩ := ho.texts
  obtain ⟨hchildren, htextChildren⟩ := RcsDoc.children_congr hentry
  have hdeltas : doc'.deltas = doc.deltas := by
    refine eq_of_map_eq ?_ hd.layout.nodup fun e he => h.header_mem hd ho.branches hp he
    have hwalk := hr.walk_printed hp
    rw [hchildren, hhead] at hwalk
    exact stackWalk_unique hwalk hf
  have htexts : doc'.texts = doc.texts := by
    refine eq_of_map_eq ?_ (hd.layout.texts.nodup_iff.mpr hd.layout.nodup)
      fun t ht => h.text_mem hd hp ht
    have hwalk := hr.walkText_printed hp
    rw [htextChildren, hhead] at hwalk
    exact stackWalk_unique hwalk hg
  rw [hw]
  cases doc
  cases doc'
  simp only at hdeltas htexts hhead
  rw [hdeltas, htexts, hhead]

end Loaded

end Csup.Rcs
