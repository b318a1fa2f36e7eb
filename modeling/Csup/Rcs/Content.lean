import Csup.Diff.Reverse
import Csup.Rcs.Repo
import Csup.Rcs.Sections

/-!
# The texts of revisions

In a file the text of the head is whole, and that of any other revision is an edit script for the
one whose header names it (`RcsDoc.Gives`). In memory a delta has the script for its diffbase, which
is on either side of it (`Represents`).

* `RcsDoc.Layout`, `RcsDoc.repo`: what the headers of a file have to name, and its revisions;
* `Represents.getdeltatext`, `Represents.puttext_child`: what the functions on the texts return.
-/

namespace Csup.Rcs

open Csup.Framework Csup.Keyword Csup.Diff

/-! ## Scripts -/

/-- The text is a canonical script that makes `res` of `orig`. -/
structure IsScript (orig text res : List Byte) : Prop where
  intro ::
  canonical : ∃ (ls : List Line) (hs : List (Hunk Line)), IsText nl ls ∧ Canonical ls.length hs ∧
    IsText nl (applyScript ls hs) ∧ ls.length ≤ intMax ∧ (applyScript ls hs).length ≤ intMax ∧
    ls.flatten = orig ∧ render hs = text ∧ (applyScript ls hs).flatten = res

section

variable {orig text res : List Byte}

theorem IsScript.apply (h : IsScript orig text res) : diffApply expOld false text orig = some res := by
  obtain ⟨ls, hs, ho, hcan, hr, hlo, hlr, rfl, rfl, rfl⟩ := h.canonical
  have hmax : (intMax : Int) ≤ longMax := by decide
  exact diffApply_render (fun l => rfl) ho hcan hr (by omega) (by omega)

theorem IsScript.unique {res' : List Byte} (h : IsScript orig text res)
    (h' : IsScript orig text res') : res = res' :=
  Option.some.inj (h.apply.symm.trans h'.apply)

/-- The reverse of a script is one. -/
theorem IsScript.reverse (h : IsScript orig text res) :
    ∃ rev, diffReverse expOld text orig = some rev ∧ IsScript res rev orig := by
  obtain ⟨ls, hs, ho, hcan, hr, hlo, hlr, rfl, rfl, rfl⟩ := h.canonical
  have hinv := applyScript_reverseScript hcan
  refine ⟨_, diffReverse_render (fun l => rfl) ho hcan hr hlo hlr,
    ⟨applyScript ls hs, reverseScript ls hs, hr, canonical_reverseScript hcan, ?_⟩⟩
  rw [hinv]
  exact ⟨ho, hlr, hlo, rfl, rfl, rfl⟩

end

/-! ## Files -/

namespace RcsDoc

variable (doc : RcsDoc)

def revs : Set Revnum := {r | ∃ e ∈ doc.deltas, e.revnum = r}

/-- The texts of a file: that of the head, and what the scripts make of that of the parent. -/
inductive Gives : Revnum → Rev → Prop
  | head {t : TextEntry} : t ∈ doc.texts → t.revnum = doc.head → Gives doc.head ⟨t.text, none⟩
  | child {e : HeaderEntry} {t : TextEntry} {rev : Rev} {text : List Byte} :
    Gives e.revnum rev → e ∈ doc.deltas → t.revnum ∈ e.next.toList ++ e.branches → t ∈ doc.texts →
      IsScript rev.text t.text text → Gives t.revnum ⟨text, some e.revnum⟩

/-- The headers: each names the revisions that are its children, and is behind that of its
parent. -/
structure Layout : Prop where
  nodup : (doc.deltas.map HeaderEntry.revnum).Nodup
  texts : (doc.texts.map TextEntry.revnum).Perm (doc.deltas.map HeaderEntry.revnum)
  numbered : ∀ r ∈ doc.revs, 0 < r.count dot
  grounded : revisions.Grounded doc.revs
  next : ∀ e ∈ doc.deltas, ∀ r, e.next = some r ↔ revisions.NextOf doc.revs e.revnum r
  branches : ∀ e ∈ doc.deltas, ∀ r, r ∈ e.branches ↔ revisions.FirstOf doc.revs e.revnum r
  head : doc.head ∈ doc.revs
  trunk : revLine doc.head = none ∧
    ∀ r ∈ doc.revs, revLine r = none → r = doc.head ∨ Behind doc.head r
  order : ∀ pre e post, doc.deltas = pre ++ e :: post → pre = [] ∧ e.revnum = doc.head ∨
    ∃ a ∈ pre, revisions.Child doc.revs a.revnum e.revnum

/-- A file with a text for each of its revisions. -/
structure Intact : Prop where
  layout : doc.Layout
  gives : ∀ r ∈ doc.revs, ∃ rev, doc.Gives r rev

variable {doc} {r : Revnum} {rev rev' : Rev}

theorem Layout.child_iff (h : doc.Layout) {e : HeaderEntry} (he : e ∈ doc.deltas) :
    r ∈ e.next.toList ++ e.branches ↔ revisions.Child doc.revs e.revnum r := by
  rw [List.mem_append, Option.mem_toList, h.branches e he]
  exact or_congr (h.next e he r) (.of_eq rfl)

theorem Layout.head_not_child (h : doc.Layout) {a : Revnum} :
    ¬revisions.Child doc.revs a doc.head := by
  rintro (hc | hc)
  · have hline : revLine a = none := hc.line.symm.trans h.trunk.1
    rcases h.trunk.2 a hc.parent hline with rfl | hlt
    · exact revisions.irrefl _ hc.before
    · exact Lineage.asymm hc.before hlt
  · have hpoint : (revLine doc.head).bind rcsrevPrefix = some a := hc.point
    rw [h.trunk.1] at hpoint
    cases hpoint

theorem Layout.text_unique (h : doc.Layout) {t t' : TextEntry} (ht : t ∈ doc.texts)
    (ht' : t' ∈ doc.texts) (heq : t.revnum = t'.revnum) : t = t' :=
  List.inj_on_of_nodup_map (h.texts.nodup_iff.mpr h.nodup) ht ht' heq

theorem Layout.mem_of_text (h : doc.Layout) {t : TextEntry} (ht : t ∈ doc.texts) :
    t.revnum ∈ doc.revs :=
  List.mem_map.mp (h.texts.mem_iff.mp (List.mem_map_of_mem ht))

theorem Layout.exists_text (h : doc.Layout) (hr : r ∈ doc.revs) : ∃ t ∈ doc.texts, t.revnum = r :=
  List.mem_map.mp (h.texts.mem_iff.mpr (List.mem_map.mpr hr))

theorem Gives.mem (hl : doc.Layout) (h : doc.Gives r rev) : r ∈ doc.revs := by
  cases h with
  | head ht hrev => exact hrev ▸ hl.mem_of_text ht
  | child _ _ _ ht _ => exact hl.mem_of_text ht

theorem Gives.child_of_ne (hl : doc.Layout) (h : doc.Gives r rev) (hr : r ≠ doc.head) :
    ∃ t ∈ doc.texts, ∃ a rev' text, t.revnum = r ∧ doc.Gives a rev' ∧
      revisions.Child doc.revs a r ∧ IsScript rev'.text t.text text ∧ rev = ⟨text, some a⟩ := by
  cases h with
  | head => exact absurd rfl hr
  | child ha he hmem ht hs =>
    exact ⟨_, ht, _, _, _, rfl, ha, (hl.child_iff he).mp hmem, hs, rfl⟩

/-- A file gives a revision one text. -/
theorem Gives.unique (hl : doc.Layout) (h : doc.Gives r rev) (h' : doc.Gives r rev') :
    rev = rev' := by
  induction h generalizing rev' with
  | head ht hrev =>
    generalize hd : doc.head = r at *
    cases h' with
    | head ht' hrev' => rw [hl.text_unique ht ht' (hrev.trans (hd ▸ hrev').symm)]
    | child _ he hmem _ _ => exact absurd ((hl.child_iff he).mp hmem) (hd ▸ hl.head_not_child)
  | @child e t rev text ha he hmem ht hs ih =>
    have hc := (hl.child_iff he).mp hmem
    have hne : t.revnum ≠ doc.head := fun heq => hl.head_not_child (heq ▸ hc)
    obtain ⟨t', ht', a', rev', text', hrev, ha', hc', hs', rfl⟩ := h'.child_of_ne hl hne
    obtain rfl := hc.unique hc'
    obtain rfl := ih ha'
    obtain rfl := hl.text_unique ht' ht hrev
    rw [hs.unique hs']

open Classical in
/-- The revisions of a file. -/
noncomputable def repo (doc : RcsDoc) : Repo := fun r =>
  if h : ∃ rev, doc.Gives r rev then some h.choose else none

theorem Layout.repo_eq_some (h : doc.Layout) : doc.repo r = some rev ↔ doc.Gives r rev := by
  unfold repo
  constructor
  · intro hr
    split at hr
    · rename_i hex
      exact Option.some.inj hr ▸ hex.choose_spec
    · cases hr
  · intro hr
    rw [dif_pos ⟨rev, hr⟩]
    exact congrArg some (Exists.choose_spec (⟨rev, hr⟩ : ∃ rev, doc.Gives r rev) |>.unique h hr)

end RcsDoc

/-! ## Files in memory -/

namespace RcsFile

variable (rf : RcsFile)

def diffbase (p : Ptr) : Option Ptr := (rf.mem p).bind Delta.diffbase

def text (p : Ptr) : List Byte := ((rf.mem p).map Delta.text).getD []

end RcsFile

/-- What is kept of a revision: its text, if it is the head that was read, or a script. -/
inductive Holds (rf : RcsFile) (s : Repo) (p : Ptr) : Prop
  | whole : rf.diffbase p = none → rf.head = rf.revnum p →
    s (rf.revnum p) = some ⟨rf.text p, none⟩ → Holds rf s p
  | script {b : Ptr} {rev : Rev} {text : List Byte} : rf.diffbase p = some b → b < p →
    b ∈ rf.members → s (rf.revnum b) = some rev → IsScript rev.text (rf.text p) text →
    s (rf.revnum p) = some ⟨text, some (rf.revnum b)⟩ → Holds rf s p

/-- The deltas hold the revisions of `s`. No delta is a placeholder, and no branch is empty. -/
structure Represents (rf : RcsFile) (s : Repo) : Prop where
  inv : Inv rf []
  sorted : Sorted rf
  real : ∀ p ∈ rf.deltatable, rf.real p = true
  filled : ∀ p ∈ rf.deltatable, ∀ b ∈ rf.branches p, b.deltalist ≠ []
  rooted : rf.trunk ≠ []
  dom : s.dom = rf.revs
  sound : s.Sound
  holds : ∀ p ∈ rf.members, Holds rf s p

variable {rf : RcsFile} {s : Repo}

namespace Represents

section

variable (h : Represents rf s)

include h

theorem mem_members {p : Ptr} : p ∈ rf.members ↔ p ∈ rf.deltatable := by
  rw [h.inv.mem_members]
  exact ⟨And.left, fun hp => ⟨hp, h.real p hp⟩⟩

theorem revnum_inj {p q : Ptr} (hp : p ∈ rf.members) (hq : q ∈ rf.members)
    (heq : rf.revnum p = rf.revnum q) : p = q :=
  h.sorted.revnum_inj (h.mem_members.mp hp) (h.mem_members.mp hq) heq

theorem exists_rev {p : Ptr} (hp : p ∈ rf.members) : ∃ rev, s (rf.revnum p) = some rev :=
  Option.isSome_iff_exists.mp (show rf.revnum p ∈ s.dom from h.dom ▸ mem_revs hp)

theorem noOrphans : NoOrphans rf := fun p hp hr => by
  rw [h.real p hp] at hr
  cases hr

theorem emptiedLast : EmptiedLast rf := fun p hp =>
  List.pairwise_of_forall_mem_list fun b hb _ _ hnil => absurd hnil (h.filled p hp b hb)

/-- `rcsfile_getdeltatext` gives the text of the revision. -/
theorem getdeltatext {p : Ptr} (hp : p ∈ rf.members) {rev : Rev} (hrev : s (rf.revnum p) = some rev)
    {fuel : Nat} (hfuel : p < fuel) : rf.getdeltatext fuel p = .ok rev.text := by
  induction fuel generalizing p rev with
  | zero => exact absurd hfuel (Nat.not_lt_zero p)
  | succ fuel ih =>
    obtain ⟨d, hd⟩ := Option.isSome_iff_exists.mp (h.inv.mem_live hp)
    simp only [RcsFile.getdeltatext, bind, Except.bind, deref_ok.mpr hd]
    cases h.holds p hp with
    | whole hbase hhead htext =>
      have hb : d.diffbase = none := by simpa [RcsFile.diffbase, hd] using hbase
      have hh : rf.head = d.revnum := by simpa [RcsFile.revnum, hd] using hhead
      obtain rfl := Option.some.inj (htext.symm.trans hrev)
      simp only [hb, if_pos hh, RcsFile.text, hd]
      rfl
    | @script b rev' text hbase hlt hbm hbrev hs htext =>
      have hb : d.diffbase = some b := by simpa [RcsFile.diffbase, hd] using hbase
      obtain rfl := Option.some.inj (htext.symm.trans hrev)
      have happly : diffApply expOld false d.text rev'.text = some text := by
        simpa [RcsFile.text, hd] using hs.apply
      simp only [hb, ih hbm hbrev (Nat.lt_of_lt_of_le hlt (Nat.le_of_lt_succ hfuel)), happly]
      rfl

/-- The head is written whole. -/
theorem puttext_root {p : Ptr} (hp : p ∈ rf.members) {rev : Rev}
    (hrev : s (rf.revnum p) = some rev) : rf.puttext p none = .ok rev.text := by
  obtain ⟨d, hd⟩ := Option.isSome_iff_exists.mp (h.inv.mem_live hp)
  simp only [RcsFile.puttext, bind, Except.bind, deref_ok.mpr hd]
  split
  · rename_i hnone
    cases h.holds p hp with
    | whole _ _ htext =>
      obtain rfl := Option.some.inj (htext.symm.trans hrev)
      simp only [RcsFile.text, hd]
      rfl
    | script hbase =>
      rw [RcsFile.diffbase, hd, Option.bind_some, hnone] at hbase
      cases hbase
  · exact h.getdeltatext hp hrev (Nat.lt_succ_self p)

theorem diffbase_lt {p b : Ptr} (hp : p ∈ rf.members) (hb : rf.diffbase p = some b) : b < p := by
  cases h.holds p hp with
  | whole hnone => cases hnone.symm.trans hb
  | script hbase hlt => exact Option.some.inj (hbase.symm.trans hb) ▸ hlt

/-- The diffbase of a delta, by the revision it is based on. -/
theorem diffbase_of_base {p q : Ptr} (hp : p ∈ rf.members) (hq : q ∈ rf.members)
    (hb : s.base (rf.revnum p) = some (rf.revnum q)) : rf.diffbase p = some q ∧
      ∃ rev text, s (rf.revnum q) = some rev ∧ s (rf.revnum p) = some ⟨text, some (rf.revnum q)⟩ ∧
        IsScript rev.text (rf.text p) text := by
  rw [Repo.base] at hb
  cases h.holds p hp with
  | whole _ _ htext =>
    rw [htext] at hb
    cases hb
  | script hbase _ hbm hbrev hs htext =>
    rw [htext] at hb
    obtain rfl := h.revnum_inj hbm hq (Option.some.inj hb)
    exact ⟨hbase, _, _, hbrev, htext, hs⟩

/-- What is written for a delta behind its parent is a script for the text of that one. -/
theorem puttext_child {n c : Node} (hn : IsNode rf n) (hc : c ∈ headerChildren rf n) {rev rev' : Rev}
    (hrev : s (rf.revnum n.1) = some rev) (hrev' : s (rf.revnum c.1) = some rev') :
    ∃ t, rf.puttext c.1 (some n.1) = .ok t ∧ IsScript rev.text t rev'.text := by
  have hcn := h.inv.isNode_child hn hc
  have hchild := h.sorted.child_of_headerChildren h.inv hn hc
  have hne : n.1 ≠ c.1 := fun heq => hchild.ne (by rw [heq])
  obtain ⟨d, hd⟩ := Option.isSome_iff_exists.mp (h.inv.mem_live hcn.mem)
  obtain ⟨dn, hdn⟩ := Option.isSome_iff_exists.mp (h.inv.mem_live hn.mem)
  simp only [RcsFile.puttext, bind, Except.bind, deref_ok.mpr hd]
  rcases h.sound.bonded _ _ (h.dom ▸ hchild) with hb | hb
  · -- the script is kept as it is written
    obtain ⟨hbase, rev₁, text, hrev₁, htext, hs⟩ := h.diffbase_of_base hcn.mem hn.mem hb
    obtain rfl := Option.some.inj (hrev₁.symm.trans hrev)
    obtain rfl := Option.some.inj (htext.symm.trans hrev')
    have hbd : d.diffbase = some n.1 := by simpa [RcsFile.diffbase, hd] using hbase
    rw [if_pos hbd]
    refine ⟨_, rfl, ?_⟩
    simpa [RcsFile.text, hd] using hs
  · -- the script of the parent is reversed
    obtain ⟨hbase, rev₁, text, hrev₁, htext, hs⟩ := h.diffbase_of_base hn.mem hcn.mem hb
    obtain rfl := Option.some.inj (hrev₁.symm.trans hrev')
    obtain rfl := Option.some.inj (htext.symm.trans hrev)
    have hbn : dn.diffbase = some c.1 := by simpa [RcsFile.diffbase, hdn] using hbase
    have hnot : d.diffbase ≠ some n.1 := by
      intro hbd
      -- diffbases are older
      have hbc : rf.diffbase c.1 = some n.1 := by simpa [RcsFile.diffbase, hd] using hbd
      exact Nat.lt_asymm (h.diffbase_lt hcn.mem hbc) (h.diffbase_lt hn.mem hbase)
    obtain ⟨t, ht, hst⟩ := hs.reverse
    have ht' : diffReverse expOld dn.text rev₁.text = some t := by
      simpa [RcsFile.text, hdn] using ht
    rw [if_neg hnot]
    simp only [deref_ok.mpr hdn, if_pos hbn, h.getdeltatext hcn.mem hrev' (Nat.lt_succ_self c.1), ht']
    exact ⟨t, rfl, hst⟩

end

end Represents

end Csup.Rcs
