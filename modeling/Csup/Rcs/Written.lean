import Csup.Rcs.Content
import Mathlib.Data.List.Infix

/-!
# What is written

`rcsfile_write` on the deltas of a repository succeeds, and the file it writes has a header and a
text for each revision.

* `exists_writeDeltatext`: the loop over the texts ends, if each text can be put;
* `Represents.write`: the file, its headers in their layout, and the texts it gives.
-/

namespace Csup.Rcs

open Csup.Framework

variable {rf : RcsFile} {s : Repo}

/-! ## The nodes of the tree -/

theorem length_tails_nodes (l : List Ptr) : (l.tails.filterMap node?).length = l.length := by
  induction l with
  | nil => rfl
  | cons d ds ih =>
    rw [List.tails, List.filterMap_cons]
    simpa [node?] using ih

/-- There are no more nodes than deltas in the table. -/
theorem Inv.exists_nodes (h : Inv rf []) : ∃ nodes : List Node,
    (∀ n, IsNode rf n → n ∈ nodes) ∧ nodes.length ≤ rf.deltatable.length := by
  refine ⟨rf.lists.flatMap fun l => l.tails.filterMap node?, fun n ⟨l, hl, hsuf⟩ => ?_, ?_⟩
  · refine List.mem_flatMap.mpr ⟨l, hl, List.mem_filterMap.mpr ⟨n.1 :: n.2, ?_, rfl⟩⟩
    exact (List.mem_tails _ _).mpr hsuf
  · have hlen : (rf.lists.flatMap fun l => l.tails.filterMap node?).length = rf.members.length := by
      rw [members_eq, List.length_flatMap, List.length_flatten]
      exact congrArg List.sum (List.map_congr_left fun l _ => length_tails_nodes l)
    rw [hlen, h.members.length_eq]
    exact List.length_filter_le _ _

/-! ## The loop over the texts -/

/-- What is written for a node of the walk. -/
def Puts (rf : RcsFile) (m : TextNode) : Prop :=
  IsNode rf m.2 ∧ ∃ text, rf.puttext m.2.1 m.1 = .ok text

theorem exists_placenext {n : Node} (hnum : ∀ c : Node, n.2 = c.1 :: c.2 →
    0 < (rf.revnum c.1).count dot) :
    rf.placenext (node? n.2) = .ok (trunkNext rf n, branchNext rf n) := by
  have hok : ∃ v, rf.placenext (node? n.2) = .ok v := by
    cases hnext : node? n.2 with
    | none => exact ⟨_, rfl⟩
    | some c =>
      have := hnum c (node?_eq_some.mp hnext)
      rw [RcsFile.placenext, rcsrevIstrunk_eq, if_neg (by omega)]
      by_cases h1 : (rf.revnum c.1).count dot = 1
      · rw [decide_eq_true h1]
        exact ⟨_, rfl⟩
      · rw [decide_eq_false h1]
        exact ⟨_, rfl⟩
  obtain ⟨v, hv⟩ := hok
  rw [hv, placenext_ok hv]

/-- It ends, without an error. -/
theorem exists_writeDeltatext (h : Inv rf []) (hnum : ∀ p ∈ rf.members, 0 < (rf.revnum p).count dot)
    (hput : ∀ m, Puts rf m → ∀ c ∈ pairChildren rf m, Puts rf c) {fuel : Nat}
    {stack nodes : List TextNode} (hs : ∀ m ∈ stack, Puts rf m)
    (hw : stackWalk (pairChildren rf) fuel stack = some nodes) :
    ∃ out, rf.writeDeltatext fuel stack = .ok out := by
  induction fuel generalizing stack nodes with
  | zero =>
    cases stack with
    | nil => exact ⟨[], rfl⟩
    | cons m stack => cases hw
  | succ fuel ih =>
    cases stack with
    | nil => exact ⟨[], rfl⟩
    | cons m stack =>
      obtain ⟨prev, p, rest⟩ := m
      obtain ⟨hn, text, htext⟩ := hs (prev, p, rest) List.mem_cons_self
      obtain ⟨-, d, hd, hph⟩ := h.isNode_real hn
      obtain ⟨fuel', nodes', hf, rfl, hw'⟩ := stackWalk_cons hw
      obtain rfl : fuel' = fuel := by omega
      have hplace := exists_placenext (n := (p, rest)) fun c hc => hnum c.1 (hn.next hc).mem
      obtain ⟨out, hout⟩ := ih (fun m hm => by
        rcases List.mem_append.mp hm with hm | hm
        · exact hput _ ⟨hn, text, htext⟩ m hm
        · exact hs m (.tail _ hm)) hw'
      have hch : pairChildren rf (prev, p, rest) =
          ((((heads (uptoEmpty d.branchlist)).foldl (insertDated rf)
            (branchNext rf (p, rest))).reverse ++ trunkNext rf (p, rest)).map
              fun n => (some p, n)) := by
        rw [pairChildren, textChildren, branches_of_mem hd]
      rw [hch] at hout
      simp only [RcsFile.writeDeltatext, bind, Except.bind, deref_ok.mpr hd, hph, Bool.false_eq_true,
        if_false, htext, hplace, hout]
      exact ⟨_, rfl⟩

/-! ## The file -/

theorem exists_of_forall₂ {α β : Type*} {R : α → β → Prop} {l : List α} {l' : List β}
    (h : List.Forall₂ R l l') {b : β} (hb : b ∈ l') : ∃ a ∈ l, R a b := by
  induction h with
  | nil => cases hb
  | cons hr _ ih =>
    rcases List.mem_cons.mp hb with rfl | hb
    · exact ⟨_, List.mem_cons_self, hr⟩
    · obtain ⟨a, ha, hab⟩ := ih hb
      exact ⟨a, .tail _ ha, hab⟩

theorem exists_of_forall₂' {α β : Type*} {R : α → β → Prop} {l : List α} {l' : List β}
    (h : List.Forall₂ R l l') {a : α} (ha : a ∈ l) : ∃ b ∈ l', R a b := by
  obtain ⟨b, hb, hr⟩ := exists_of_forall₂ h.flip ha
  exact ⟨b, hb, hr⟩

/-- The nodes that the entries of the two sections are about. -/
structure Printed (rf : RcsFile) (doc : RcsDoc) (root : Node) (hs : List Node) (ts : List TextNode) :
    Prop where
  trunk : rf.trunk = root.1 :: root.2
  head : doc.head = rf.revnum root.1
  walk : stackWalk (headerChildren rf) rf.deltatable.length [root] = some hs
  walkText : stackWalk (pairChildren rf) rf.deltatable.length [(none, root)] = some ts
  deltas : List.Forall₂ (HeaderOf rf) hs doc.deltas
  texts : List.Forall₂ (TextOf rf) ts doc.texts

namespace Represents

section

variable (h : Represents rf s)

include h

theorem numbered {p : Ptr} (hp : p ∈ rf.members) : 0 < (rf.revnum p).count dot :=
  h.sound.numbered _ (h.dom ▸ mem_revs hp)

theorem puts_child {m : TextNode} (hm : Puts rf m) {c : TextNode} (hc : c ∈ pairChildren rf m) :
    Puts rf c := by
  obtain ⟨c, hct, rfl⟩ := List.mem_map.mp hc
  have hc := textChildren_subset hct
  have hcn := h.inv.isNode_child hm.1 hc
  obtain ⟨rev, hrev⟩ := h.exists_rev hm.1.mem
  obtain ⟨rev', hrev'⟩ := h.exists_rev hcn.mem
  obtain ⟨t, ht, -⟩ := h.puttext_child hm.1 hc hrev hrev'
  exact ⟨hcn, t, ht⟩

/-- Both loops end. -/
theorem exists_printed : ∃ doc root hs ts, rf.write = .ok doc ∧ Printed rf doc root hs ts := by
  obtain ⟨d, ds, htrunk⟩ := List.exists_cons_of_ne_nil h.rooted
  have hroot : IsNode rf (d, ds) := isNode_root htrunk
  obtain ⟨-, dd, hdd, -⟩ := h.inv.isNode_real hroot
  obtain ⟨nodes, hnodes, hlen⟩ := h.inv.exists_nodes
  have hforest : IsForest (headerChildren rf) (IsNode rf) (d, ds) := h.inv.isForest htrunk
  have hforest' : IsForest (textChildren rf) (IsNode rf) (d, ds) := h.inv.isForest_text htrunk
  obtain ⟨hs, hwalk⟩ := exists_stackWalk hforest hnodes hlen
  obtain ⟨ts, hwalkt⟩ := exists_stackWalk hforest' hnodes hlen
  -- the walk over the texts is one with the deltas that the nodes are reached from
  have hpair := stackWalk_map (pairChildren_snd rf) rf.deltatable.length [(none, d, ds)]
  rw [show [(none, d, ds)].map Prod.snd = [(d, ds)] from rfl, hwalkt] at hpair
  obtain ⟨ts', hwalkp, -⟩ := Option.map_eq_some_iff.mp hpair.symm
  obtain ⟨rev, hrev⟩ := h.exists_rev hroot.mem
  have hputs : Puts rf (none, d, ds) := ⟨hroot, _, h.puttext_root hroot.mem hrev⟩
  obtain ⟨deltas, hdeltas⟩ := exists_writeDeltas h.inv
    (fun n hn => by rw [List.mem_singleton.mp hn]; exact hroot) hwalk
  obtain ⟨texts, htexts⟩ := exists_writeDeltatext h.inv (fun p => h.numbered)
    (fun m hm c hc => h.puts_child hm hc) (fun m hm => by rw [List.mem_singleton.mp hm]; exact hputs)
    hwalkp
  obtain ⟨hs', hwalk', hrel⟩ := writeDeltas_ok h.inv
    (fun n hn => by rw [List.mem_singleton.mp hn]; exact hroot) hdeltas
  obtain ⟨ts'', hwalkp', hrelt⟩ := writeDeltatext_ok h.inv
    (fun n hn => by rw [List.mem_singleton.mp hn]; exact hroot) htexts
  obtain rfl := Option.some.inj (hwalk'.symm.trans hwalk)
  refine ⟨⟨dd.revnum, deltas, texts⟩, (d, ds), hs', ts'', ?_, htrunk, ?_, hwalk, hwalkp', hrel, hrelt⟩
  · simp only [RcsFile.write, htrunk, bind, Except.bind, deref_ok.mpr hdd, hdeltas, htexts]
    rfl
  · simp [RcsFile.revnum, hdd]

end

section

variable {doc : RcsDoc} {root : Node} {hs : List Node} {ts : List TextNode} (h : Represents rf s)
  (hp : Printed rf doc root hs ts)

include hp

omit h in
theorem visited : Visited rf doc root hs (ts.map Prod.snd) := by
  refine ⟨hp.trunk, ⟨_, hp.walk⟩, ⟨rf.deltatable.length, ?_⟩, revnum_headers hp.deltas, ?_⟩
  · have := stackWalk_map (pairChildren_snd rf) rf.deltatable.length [(none, root)]
    rw [hp.walkText] at this
    exact this
  · rw [List.map_map]
    exact revnum_texts hp.texts

include h

theorem mem_printed {n : Node} : n ∈ hs ↔ IsNode rf n :=
  ⟨(visited hp).isNode h.inv, fun hn => (visited hp).mem.mpr
    (reaches_of_isNode h.inv h.noOrphans hp.trunk hn)⟩

theorem exists_header {n : Node} (hn : IsNode rf n) : ∃ e ∈ doc.deltas, HeaderOf rf n e :=
  exists_of_forall₂' hp.deltas ((h.mem_printed hp).mpr hn)

theorem exists_node {e : HeaderEntry} (he : e ∈ doc.deltas) : ∃ n, IsNode rf n ∧ HeaderOf rf n e := by
  obtain ⟨n, hn, hh⟩ := exists_of_forall₂ hp.deltas he
  exact ⟨n, (h.mem_printed hp).mp hn, hh⟩

omit h hp in
theorem HeaderOf.revnum {n : Node} {e : HeaderEntry} (hh : HeaderOf rf n e) :
    e.revnum = rf.revnum n.1 := by
  obtain ⟨d, hd, rfl⟩ := hh
  simp [RcsFile.revnum, hd]

theorem revs_printed : doc.revs = rf.revs := by
  ext r
  constructor
  · rintro ⟨e, he, rfl⟩
    obtain ⟨n, hn, hh⟩ := h.exists_node hp he
    exact HeaderOf.revnum hh ▸ hn.mem_revs
  · rintro ⟨p, hpm, rfl⟩
    obtain ⟨n, hn, rfl⟩ := exists_isNode hpm
    obtain ⟨e, he, hh⟩ := h.exists_header hp hn
    exact ⟨e, he, HeaderOf.revnum hh⟩

/-- The next delta of a header. -/
theorem next_printed {e : HeaderEntry} (he : e ∈ doc.deltas) (r : Revnum) :
    e.next = some r ↔ revisions.NextOf doc.revs e.revnum r := by
  obtain ⟨n, hn, hh⟩ := h.exists_node hp he
  rw [HeaderOf.revnum hh, h.revs_printed hp]
  obtain ⟨d, hd, rfl⟩ := hh
  constructor
  · intro hr
    obtain ⟨c, hc, rfl⟩ := Option.map_eq_some_iff.mp hr
    obtain ⟨cs, hcs⟩ := List.head?_eq_some_iff.mp hc
    exact h.sorted.nextOf (c := (c, cs)) hn hcs
  · intro hr
    obtain ⟨c, hc, rfl⟩ := h.sorted.next_of_nextOf hn hr
    show n.2.head?.map rf.revnum = _
    rw [hc]
    rfl

theorem branches_printed {e : HeaderEntry} (he : e ∈ doc.deltas) (r : Revnum) :
    r ∈ e.branches ↔ revisions.FirstOf doc.revs e.revnum r := by
  obtain ⟨n, hn, hh⟩ := h.exists_node hp he
  rw [HeaderOf.revnum hh, h.revs_printed hp]
  obtain ⟨d, hd, rfl⟩ := hh
  have hbr := branches_of_mem hd
  constructor
  · intro hr
    obtain ⟨c, hc, rfl⟩ := List.mem_map.mp hr
    obtain ⟨b, hb, hcb⟩ := mem_heads.mp (List.mem_reverse.mp hc)
    exact h.sorted.firstOf h.inv hn (hbr ▸ hb) hcb
  · intro hr
    obtain ⟨b, hb, c, hc, rfl⟩ := h.sorted.branch_of_firstOf h.inv hn hr
    exact List.mem_map.mpr ⟨c, List.mem_reverse.mpr (mem_heads.mpr ⟨b, hbr ▸ hb, hc⟩), rfl⟩

theorem layout : doc.Layout := by
  have hv := visited hp
  have hrevs := h.revs_printed hp
  have hnodup : (doc.deltas.map HeaderEntry.revnum).Nodup := by
    rw [hv.deltas]
    refine List.Nodup.map_on (fun n hn m hm heq => ?_) (hv.nodup h.inv)
    have hn := (h.mem_printed hp).mp hn
    have hm := (h.mem_printed hp).mp hm
    exact h.inv.node_unique hn hm (h.revnum_inj hn.mem hm.mem heq)
  have hroot := isNode_root hp.trunk
  refine ⟨hnodup, ?_, ?_, ?_, fun e he => h.next_printed hp he, fun e he => h.branches_printed hp he,
    ?_, ⟨?_, fun r hr hline => ?_⟩, fun pre e post heq => ?_⟩
  · rw [hv.deltas, hv.texts]
    exact (hv.texts_iff h.inv h.noOrphans).mpr h.emptiedLast
  · rw [hrevs, ← h.dom]
    exact h.sound.numbered
  · rw [hrevs, ← h.dom]
    exact h.sound.grounded
  · rw [hrevs, hp.head]
    exact hroot.mem_revs
  · rw [hp.head]
    exact h.sorted.revLine_trunk (by rw [hp.trunk]; exact List.mem_cons_self)
  · rw [hrevs] at hr
    obtain ⟨x, hx, rfl⟩ := h.sorted.lists_trunk.all r hr hline
    have hsorted := h.sorted.lists_trunk.sorted
    rw [hp.trunk] at hx hsorted
    rw [hp.head]
    rcases List.mem_cons.mp hx with rfl | hx
    · exact .inl rfl
    · exact .inr ((List.pairwise_cons.mp hsorted).1 x hx)
  · -- the header of the parent is in front
    have hmap := hv.deltas
    rw [heq, List.map_append, List.map_cons] at hmap
    obtain ⟨ps, ns, rfl, hps, hns⟩ := List.map_eq_append_iff.mp hmap.symm
    obtain ⟨n, ns, rfl, hn, -⟩ := List.map_eq_cons_iff.mp hns
    rcases parent_stackWalk hp.walk with hmem | ⟨m, hm, hnm⟩
    · obtain rfl := List.mem_singleton.mp hmem
      refine .inl ⟨?_, hn.symm.trans hp.head.symm⟩
      -- the root is visited first
      obtain ⟨_, out, -, hout, -⟩ := stackWalk_cons hp.walk
      cases ps with
      | nil => simpa using hps.symm
      | cons m ps =>
        obtain ⟨rfl, -⟩ := List.cons.inj hout
        have := hv.nodup h.inv
        simp at this
    · refine .inr ?_
      have hrm : rf.revnum m.1 ∈ pre.map HeaderEntry.revnum :=
        hps ▸ List.mem_map_of_mem (f := fun n : Node => rf.revnum n.1) hm
      obtain ⟨a, ha, harev⟩ := List.mem_map.mp hrm
      refine ⟨a, ha, ?_⟩
      have hmn := (h.mem_printed hp).mp (List.mem_append_left (n :: ns) hm)
      rw [harev, ← hn, hrevs]
      exact h.sorted.child_of_headerChildren h.inv hmn hnm

/-- The text of a revision comes of the scripts in the file. -/
theorem gives {m : TextNode} (hm : Reaches (pairChildren rf) (none, root) m) : IsNode rf m.2 ∧
    ∀ rev, s (rf.revnum m.2.1) = some rev →
      ∃ base, doc.Gives (rf.revnum m.2.1) ⟨rev.text, base⟩ := by
  have hmem {m : TextNode} (hm : Reaches (pairChildren rf) (none, root) m) : m ∈ ts :=
    (mem_stackWalk hp.walkText).mpr ⟨_, List.mem_singleton_self _, hm⟩
  induction hm with
  | refl =>
    have hroot := isNode_root hp.trunk
    refine ⟨hroot, fun rev hrev => ⟨none, ?_⟩⟩
    obtain ⟨t, ht, d, hd, htrev, -, hput⟩ := exists_of_forall₂' hp.texts (hmem .refl)
    have htext := Except.ok.inj (hput.symm.trans (h.puttext_root hroot.mem hrev))
    have hthead : t.revnum = doc.head := by rw [htrev, hp.head]; simp [RcsFile.revnum, hd]
    rw [← hp.head, ← htext]
    exact .head ht hthead
  | @tail m c hr hc ih =>
    obtain ⟨t, ht, d, hd, htrev, -, hput⟩ := exists_of_forall₂' hp.texts (hmem (hr.tail hc))
    obtain ⟨c, hct, rfl⟩ := List.mem_map.mp hc
    obtain ⟨hmn, ih⟩ := ih
    have hcc := textChildren_subset hct
    refine ⟨h.inv.isNode_child hmn hcc, fun rev hrev => ?_⟩
    obtain ⟨rev₀, hrev₀⟩ := h.exists_rev hmn.mem
    obtain ⟨base, hgives⟩ := ih rev₀ hrev₀
    obtain ⟨text, htext, hs⟩ := h.puttext_child hmn hcc hrev₀ hrev
    obtain rfl := Except.ok.inj (hput.symm.trans htext)
    obtain ⟨e, he, hhead⟩ := h.exists_header hp hmn
    have htc : t.revnum = rf.revnum c.1 := by rw [htrev]; simp [RcsFile.revnum, hd]
    rw [← HeaderOf.revnum hhead] at hgives
    have hchild : t.revnum ∈ e.next.toList ++ e.branches := by
      rw [(h.layout hp).child_iff he, htc, HeaderOf.revnum hhead, h.revs_printed hp]
      exact h.sorted.child_of_headerChildren h.inv hmn hcc
    exact ⟨_, htc ▸ RcsDoc.Gives.child hgives he hchild ht hs⟩

theorem dom_printed : doc.revs = s.dom := (h.revs_printed hp).trans h.dom.symm

/-- The file gives every revision its text. -/
theorem exists_gives {r : Revnum} {rev : Rev} (hr : s r = some rev) :
    ∃ base, doc.Gives r ⟨rev.text, base⟩ := by
  have hl := h.layout hp
  have hmem : r ∈ s.dom := Option.isSome_iff_exists.mpr ⟨rev, hr⟩
  obtain ⟨t, ht, rfl⟩ := hl.exists_text (h.dom_printed hp ▸ hmem)
  obtain ⟨m, hm, d, hd, htrev, -, -⟩ := exists_of_forall₂ hp.texts ht
  have htm : rf.revnum m.2.1 = t.revnum := by rw [htrev]; simp [RcsFile.revnum, hd]
  obtain ⟨a, ha, hreach⟩ := (mem_stackWalk hp.walkText).mp hm
  obtain rfl := List.mem_singleton.mp ha
  obtain ⟨base, hgives⟩ := (h.gives hp hreach).2 rev (htm ▸ hr)
  exact ⟨base, htm ▸ hgives⟩

theorem intact : doc.Intact := by
  refine ⟨h.layout hp, fun r hr => ?_⟩
  have hmem : r ∈ s.dom := h.dom_printed hp ▸ hr
  obtain ⟨rev, hrev⟩ := Option.isSome_iff_exists.mp hmem
  obtain ⟨base, hgives⟩ := h.exists_gives hp hrev
  exact ⟨_, hgives⟩

theorem texts_printed (r : Revnum) : (doc.repo r).map Rev.text = (s r).map Rev.text := by
  have hl := h.layout hp
  cases hr : s r with
  | none =>
    -- what a file gives a text has a header
    cases hrepo : doc.repo r with
    | none => rfl
    | some rev =>
      have hmem : r ∈ s.dom := h.dom_printed hp ▸ (hl.repo_eq_some.mp hrepo).mem hl
      exact absurd hr (Option.isSome_iff_ne_none.mp hmem)
  | some rev =>
    obtain ⟨base, hgives⟩ := h.exists_gives hp hr
    rw [hl.repo_eq_some.mpr hgives]
    rfl

end

/-- A file that is written is in its layout, and it gives every revision its text. -/
theorem write (h : Represents rf s) : ∃ doc, rf.write = .ok doc ∧ doc.Layout ∧ doc.revs = s.dom ∧
    ∀ r, (doc.repo r).map Rev.text = (s r).map Rev.text := by
  obtain ⟨doc, root, hs, ts, hw, hp⟩ := h.exists_printed
  exact ⟨doc, hw, h.layout hp, h.dom_printed hp, h.texts_printed hp⟩

end Represents

end Csup.Rcs
