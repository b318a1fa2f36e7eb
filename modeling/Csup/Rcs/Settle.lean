import Csup.Rcs.Layout
import Csup.Rcs.Raw
import Csup.Rcs.Reread

/-!
# What a file is

The bytes of a file show an archive (`Shows`): an admin part, a description, and revisions with their
texts and details. In a file each revision is based on its parent, whatever it was based on in
memory (`Repo.settled`).

* `Shows.read`: what is shown is read;
* `Archive.Fit.shows`: what is written of the deltas in memory shows the archive they hold.
-/

namespace Csup.Rcs

open Csup.Framework
open Csup.Rcsparse

/-! ## Parents -/

namespace Repo

variable {s s' : Repo} {a r : Revnum}

open Classical in
/-- The revision that another one comes behind. -/
noncomputable def parent (s : Repo) (r : Revnum) : Option Revnum :=
  if h : ∃ a, revisions.Child s.dom a r then some h.choose else none

/-- The revisions, each based on its parent. -/
noncomputable def settled (s : Repo) : Repo := fun r => (s r).map fun rev => ⟨rev.text, s.parent r⟩

theorem parent_of_child (hc : revisions.Child s.dom a r) : s.parent r = some a := by
  have hex : ∃ a, revisions.Child s.dom a r := ⟨a, hc⟩
  rw [parent, dif_pos hex, hex.choose_spec.unique hc]

theorem parent_eq_none (h : ∀ a, ¬revisions.Child s.dom a r) : s.parent r = none :=
  dif_neg fun ⟨a, hc⟩ => h a hc

theorem dom_of_texts (h : ∀ r, (s r).map Rev.text = (s' r).map Rev.text) : s.dom = s'.dom := by
  ext r
  have := congrArg Option.isSome (h r)
  simp only [Option.isSome_map] at this
  show (s r).isSome ↔ (s' r).isSome
  rw [this]

/-- The texts are all that matters. -/
theorem settled_congr (h : ∀ r, (s r).map Rev.text = (s' r).map Rev.text) : s.settled = s'.settled := by
  have hparent : s.parent = s'.parent := by
    funext r
    rw [parent, parent, dom_of_texts h]
  funext r
  have hmap (s : Repo) : s.settled r = ((s r).map Rev.text).map fun text => ⟨text, s.parent r⟩ := by
    rw [Option.map_map]
    rfl
  rw [hmap, hmap, h, hparent]

theorem dom_settled : s.settled.dom = s.dom :=
  dom_of_texts fun r => by
    rw [settled, Option.map_map]
    rfl

/-- The head is the first revision of the trunk. -/
structure IsHead (s : Repo) (h : Revnum) : Prop where
  mem : h ∈ s.dom
  trunk : revLine h = none
  first : ∀ r ∈ s.dom, revLine r = none → r = h ∨ Behind h r

theorem IsHead.unique {h h' : Revnum} (hh : s.IsHead h) (hh' : s.IsHead h') : h = h' := by
  rcases hh.first h' hh'.mem hh'.trunk with heq | hlt
  · exact heq.symm
  · rcases hh'.first h hh.mem hh.trunk with heq | hlt'
    · exact heq
    · exact absurd hlt' (Lineage.asymm (g := revisions) hlt)

theorem IsHead.of_dom {h : Revnum} (hh : s.IsHead h) (hdom : s.dom = s'.dom) : s'.IsHead h :=
  ⟨hdom ▸ hh.mem, hh.trunk, hdom ▸ hh.first⟩

end Repo

theorem RcsDoc.Intact.settled_repo {doc : RcsDoc} (hd : doc.Intact) : doc.repo.settled = doc.repo := by
  have hl := hd.layout
  funext r
  rw [Repo.settled]
  cases hr : doc.repo r with
  | none => rfl
  | some rev =>
    have hg := hl.repo_eq_some.mp hr
    have hparent : doc.repo.parent r = rev.base := by
      by_cases hhead : r = doc.head
      · subst hhead
        obtain ⟨t, ht, htr⟩ := hl.exists_text hl.head
        rw [hg.unique hl (.head ht htr)]
        refine Repo.parent_eq_none fun a hc => ?_
        rw [hd.dom_repo] at hc
        exact hl.head_not_child hc
      · obtain ⟨t, -, a, rev', text, -, -, hc, -, rfl⟩ := hg.child_of_ne hl hhead
        exact Repo.parent_of_child (hd.dom_repo.symm ▸ hc)
    rw [Option.map_some, hparent]

/-! ## Archives -/

/-- What a file has of a revision beside its text. -/
structure Detail where
  revdate : List Byte
  author : List Byte
  state : Option (List Byte)
  log : List Byte

/-- What can be written of it. -/
structure Detail.Fit (x : Detail) : Prop where
  revdate : IsNum x.revdate
  author : IsId x.author
  state : ∀ s ∈ x.state, IsId s
  log : IsRaw x.log

/-- What a file is for. -/
structure Archive where
  admin : Admin
  desc : List Byte
  repo : Repo
  details : Revnum → Option Detail

/-- An archive that can be written and read again, whatever its head is. -/
structure Archive.Fit (a : Archive) : Prop where
  admin : ∀ r, IsNum r → Printable { a.admin with head := r }
  desc : IsRaw a.desc
  raw : a.repo.Raw
  numbers : ∀ r ∈ a.repo.dom, IsNum r
  dom : ∀ r, (a.details r).isSome ↔ r ∈ a.repo.dom
  details : ∀ r x, a.details r = some x → x.Fit

namespace Archive

variable {a : Archive} {r b : Revnum} {text : List Byte} {x : Detail}

/-- A new revision with its details. -/
def commit (a : Archive) (r b : Revnum) (text : List Byte) (x : Detail) : Archive :=
  { a with repo := a.repo.commit r b text, details := Function.update a.details r (some x) }

def remove (a : Archive) (r : Revnum) : Archive :=
  { a with repo := a.repo.remove r, details := Function.update a.details r none }

/-- An archive as it is in a file. -/
noncomputable def settle (a : Archive) (h : Revnum) : Archive :=
  { a with admin := { a.admin with head := h }, repo := a.repo.settled }

theorem details_commit_self : (a.commit r b text x).details r = some x := Function.update_self ..

theorem details_commit_of_ne {r' : Revnum} (hr : r' ≠ r) :
    (a.commit r b text x).details r' = a.details r' := Function.update_of_ne hr _ _

theorem details_remove_self : (a.remove r).details r = none := Function.update_self ..

theorem details_remove_of_ne {r' : Revnum} (hr : r' ≠ r) :
    (a.remove r).details r' = a.details r' := Function.update_of_ne hr _ _

theorem dom_commit : (a.commit r b text x).repo.dom = insert r a.repo.dom := Repo.dom_commit

theorem dom_remove : (a.remove r).repo.dom = a.repo.dom \ {r} := Repo.dom_remove

theorem Fit.commit (h : a.Fit) (b : Revnum) (hr : IsNum r) (htext : IsRaw text) (hx : x.Fit) :
    (a.commit r b text x).Fit := by
  refine ⟨h.admin, h.desc, fun r' rev hrev => ?_, fun r' hr' => ?_, fun r' => ?_, fun r' x' hx' => ?_⟩
  · by_cases heq : r' = r
    · subst heq
      obtain rfl := Option.some.inj (Repo.commit_self.symm.trans hrev)
      exact htext
    · exact h.raw r' rev ((Repo.commit_of_ne heq).symm.trans hrev)
  · rw [dom_commit] at hr'
    exact (Set.mem_insert_iff.mp hr').elim (fun heq => heq ▸ hr) (h.numbers r')
  · rw [dom_commit, Set.mem_insert_iff]
    by_cases heq : r' = r
    · simp [heq, details_commit_self]
    · simp only [details_commit_of_ne heq, heq, false_or]
      exact h.dom r'
  · by_cases heq : r' = r
    · subst heq
      obtain rfl := Option.some.inj (details_commit_self.symm.trans hx')
      exact hx
    · exact h.details r' x' ((details_commit_of_ne heq).symm.trans hx')

theorem Fit.remove (h : a.Fit) (r : Revnum) : (a.remove r).Fit := by
  refine ⟨h.admin, h.desc, fun r' rev hrev => ?_, fun r' hr' => ?_, fun r' => ?_, fun r' x' hx' => ?_⟩
  · by_cases heq : r' = r
    · subst heq
      cases Repo.remove_self.symm.trans hrev
    · exact h.raw r' rev ((Repo.remove_of_ne heq).symm.trans hrev)
  · rw [dom_remove] at hr'
    exact h.numbers r' hr'.1
  · rw [dom_remove]
    by_cases heq : r' = r
    · simp [heq, details_remove_self]
    · rw [details_remove_of_ne heq, h.dom r']
      exact ⟨fun hr => ⟨hr, heq⟩, And.left⟩
  · by_cases heq : r' = r
    · subst heq
      cases details_remove_self.symm.trans hx'
    · exact h.details r' x' ((details_remove_of_ne heq).symm.trans hx')

theorem Fit.setAdmin {admin : Admin} (h : a.Fit) (ha : ∀ {r}, Printable { a.admin with head := r } →
    Printable { admin with head := r }) : Archive.Fit { a with admin } :=
  ⟨fun r hr => ha (h.admin r hr), h.desc, h.raw, h.numbers, h.dom, h.details⟩

end Archive

def Delta.detail (d : Delta) : Detail := ⟨d.revdate, d.author, d.state, d.log⟩

/-- The deltas in memory have these details. -/
def RcsFile.Carries (rf : RcsFile) (details : Revnum → Option Detail) : Prop :=
  ∀ p ∈ rf.deltatable, ∀ d, rf.data p = some d → details d.revnum = some d.detail

theorem RcsFile.Carries.of_mem {rf : RcsFile} {details : Revnum → Option Detail}
    (h : rf.Carries details) {p : Ptr} (hp : p ∈ rf.deltatable) {d : Delta} (hd : rf.mem p = some d) :
    details d.revnum = some d.detail := h p hp d.data (by rw [RcsFile.data, hd]; rfl)

/-- The details of one revision change. -/
theorem RcsFile.Carries.update {rf rf' : RcsFile} {details : Revnum → Option Detail} {r : Revnum}
    {x : Option Detail} (h : rf.Carries details) (h' : ∀ p ∈ rf'.deltatable, ∀ d, rf'.data p = some d →
      d.revnum = r ∧ x = some d.detail ∨
        d.revnum ≠ r ∧ p ∈ rf.deltatable ∧ rf'.data p = rf.data p) :
    rf'.Carries (Function.update details r x) := by
  intro p hp d hd
  rcases h' p hp d hd with ⟨hr, hx⟩ | ⟨hr, hpt, hdata⟩
  · rw [hr, Function.update_self, hx]
  · rw [Function.update_of_ne hr]
    exact h p hpt d (hdata.symm.trans hd)

theorem Represents.revnum_mem {rf : RcsFile} {s : Repo} (h : Represents rf s) {p : Ptr}
    (hp : p ∈ rf.deltatable) {d : Delta} (hd : rf.data p = some d) : d.revnum ∈ s.dom := by
  obtain ⟨d', hd', hdata⟩ := Option.map_eq_some_iff.mp hd
  rw [h.dom]
  refine ⟨p, h.mem_members.mpr hp, ?_⟩
  rw [RcsFile.revnum, hd', ← hdata]
  rfl

/-- The details that a file has. -/
def RcsDoc.details (doc : RcsDoc) (r : Revnum) : Option Detail :=
  (doc.entry r).bind fun e => (doc.texts.find? fun t => t.revnum = r).map fun t =>
    ⟨e.revdate, e.author, e.state, t.log⟩

namespace RcsDoc

variable {doc : RcsDoc} {r : Revnum}

theorem details_eq (hl : doc.Layout) {e : HeaderEntry} (he : e ∈ doc.deltas) {t : TextEntry}
    (ht : t ∈ doc.texts) (htr : t.revnum = e.revnum) :
    doc.details e.revnum = some ⟨e.revdate, e.author, e.state, t.log⟩ := by
  obtain ⟨t', ht'⟩ := Option.isSome_iff_exists.mp
    (List.find?_isSome.mpr ⟨t, ht, by simpa using htr⟩ :
      (doc.texts.find? fun t => t.revnum = e.revnum).isSome)
  have hrev : t'.revnum = e.revnum := by simpa using List.find?_some ht'
  obtain rfl := hl.text_unique (List.mem_of_find?_eq_some ht') ht (hrev.trans htr.symm)
  rw [details, entry_of_mem hl.nodup he, Option.bind_some, ht', Option.map_some]

theorem details_eq_none (hr : r ∉ doc.revs) : doc.details r = none := by
  have hentry : doc.entry r = none := by
    rw [RcsDoc.entry, List.find?_eq_none]
    exact fun e he heq => hr ⟨e, he, by simpa using heq⟩
  rw [details, hentry, Option.bind_none]

end RcsDoc

namespace Represents

variable {rf : RcsFile} {s : Repo} {doc : RcsDoc} {root : Node} {hs : List Node} {ts : List TextNode}
  (h : Represents rf s) (hp : Printed rf doc root hs ts)

include h hp

theorem repo_printed : doc.repo = s.settled :=
  (h.intact hp).settled_repo.symm.trans (Repo.settled_congr (h.texts_printed hp))

/-- The header and the text that are written of a delta. -/
theorem exists_entries {r : Revnum} (hr : r ∈ doc.revs) : ∃ p ∈ rf.deltatable, ∃ d, rf.mem p = some d ∧
    d.revnum = r ∧ ∃ e ∈ doc.deltas, ∃ t ∈ doc.texts, e.revnum = r ∧ t.revnum = r ∧
      d.detail = ⟨e.revdate, e.author, e.state, t.log⟩ := by
  have hl := h.layout hp
  obtain ⟨e, he, rfl⟩ := hr
  obtain ⟨n, hn, hhead⟩ := h.exists_node hp he
  obtain ⟨d, hd, heq⟩ := hhead
  have hrev : e.revnum = d.revnum := by rw [heq]
  obtain ⟨t, ht, htr⟩ := hl.exists_text ⟨e, he, rfl⟩
  obtain ⟨m, hm, dt, hdt, htrev, htlog, -⟩ := exists_of_forall₂ hp.texts ht
  have hnode : IsNode rf m.2 := by
    obtain ⟨a, ha, hreach⟩ := (mem_stackWalk hp.walkText).mp hm
    obtain rfl := List.mem_singleton.mp ha
    exact (h.gives hp hreach).1
  -- both are of one delta
  have hptr : m.2.1 = n.1 := h.revnum_inj hnode.mem hn.mem (by
    simp only [RcsFile.revnum, hdt, hd, Option.map_some, Option.getD_some]
    rw [← htrev, htr, hrev])
  rw [hptr] at hdt
  obtain rfl := Option.some.inj (hdt.symm.trans hd)
  refine ⟨n.1, (h.inv.isNode_real hn).1, dt, hd, hrev.symm, e, he, t, ht, rfl, htr, ?_⟩
  rw [heq, htlog]
  rfl

variable {details : Revnum → Option Detail} (hc : rf.Carries details)

include hc

theorem details_printed (hdom : ∀ r, (details r).isSome ↔ r ∈ s.dom) : doc.details = details := by
  have hl := h.layout hp
  funext r
  by_cases hr : r ∈ doc.revs
  · obtain ⟨p, hpt, d, hd, hrev, e, he, t, ht, rfl, htr, hdetail⟩ := h.exists_entries hp hr
    rw [RcsDoc.details_eq hl he ht htr, ← hdetail, ← hrev, hc.of_mem hpt hd]
  · rw [RcsDoc.details_eq_none hr]
    rw [h.dom_printed hp, ← hdom, Option.not_isSome_iff_eq_none] at hr
    exact hr.symm

theorem printable_entries (hnum : ∀ r ∈ s.dom, IsNum r) (hx : ∀ r x, details r = some x → x.Fit)
    (hraw : s.Raw) :
    (∀ e ∈ doc.deltas, PrintableHeader e) ∧ ∀ t ∈ doc.texts, PrintableText t := by
  have hl := h.layout hp
  have hd := h.intact hp
  have hnum : ∀ r ∈ doc.revs, IsNum r := h.dom_printed hp ▸ hnum
  have hrepo : doc.repo.Raw := fun r rev hr => by
    have htext := h.texts_printed hp r
    rw [hr] at htext
    obtain ⟨rev', hrev', heq⟩ := Option.map_eq_some_iff.mp htext.symm
    rw [← heq]
    exact hraw r rev' hrev'
  -- an entry is the one of its number
  have hfit {e : HeaderEntry} (he : e ∈ doc.deltas) {t : TextEntry} (ht : t ∈ doc.texts)
      (htr : t.revnum = e.revnum) : Detail.Fit ⟨e.revdate, e.author, e.state, t.log⟩ := by
    obtain ⟨p, hpt, d, hdp, hrev, e', he', t', ht', her, htr', hdetail⟩ :=
      h.exists_entries hp ⟨e, he, rfl⟩
    obtain rfl := List.inj_on_of_nodup_map hl.nodup he' he her
    obtain rfl := hl.text_unique ht' ht (htr'.trans htr.symm)
    rw [← hdetail]
    exact hx _ _ (hc.of_mem hpt hdp)
  refine ⟨fun e he => ?_, fun t ht => ?_⟩
  · obtain ⟨t, ht, htr⟩ := hl.exists_text ⟨e, he, rfl⟩
    have hchild : ∀ r ∈ e.next.toList ++ e.branches, IsNum r := fun r hr =>
      hnum r ((hl.child_iff he).mp hr).child_mem
    have hdetail := hfit he ht htr
    exact ⟨hnum _ ⟨e, he, rfl⟩, hdetail.revdate, hdetail.author, hdetail.state,
      fun r hr => hchild r (List.mem_append_right _ hr),
      fun r hr => hchild r (List.mem_append_left _ (Option.mem_toList.mpr hr))⟩
  · obtain ⟨e, he, htr⟩ := hl.mem_of_text ht
    exact ⟨hnum _ (hl.mem_of_text ht), (hfit he ht htr.symm).log, hd.isRaw_text hrepo t ht⟩

end Represents

theorem Loaded.carries {doc : RcsDoc} {rf : RcsFile} (h : Loaded doc rf) (hl : doc.Layout) :
    rf.Carries doc.details := by
  intro p hp d hd
  obtain ⟨e, he, t, ht, db, htr, hdata, -⟩ := h.delta p hp
  obtain rfl := Option.some.inj (hdata.symm.trans hd)
  exact RcsDoc.details_eq hl he ht htr

/-! ## Files -/

/-- The bytes of a file show an archive. -/
structure Shows (content : List Byte) (a : Archive) : Prop where
  intro ::
  doc : ∃ doc, content = rcsfileWrite a.admin a.desc doc ∧ a.admin.head = doc.head ∧
    PrintableFile a.admin a.desc doc ∧ doc.Intact ∧ doc.Ordered ∧ doc.repo = a.repo ∧
      doc.details = a.details

section

variable {content : List Byte} {a : Archive} {rf : RcsFile}

/-- What is shown is read. -/
theorem Shows.read (h : Shows content a) : ∃ rf, rcsread content = .ok (a.admin, a.desc, rf) ∧
    Represents rf a.repo ∧ rf.Carries a.details := by
  obtain ⟨doc, hcontent, hhead, hp, hd, -, hrepo, hdetails⟩ := h.doc
  obtain ⟨rf, hread, hl⟩ := rcsread_rcsfileWrite hp hd.layout
  have hadm : ({ a.admin with head := doc.head } : Admin) = a.admin := by rw [← hhead]
  rw [hadm, ← hcontent] at hread
  exact ⟨rf, hread, hrepo ▸ hl.represents hd, hdetails ▸ hl.carries hd.layout⟩

theorem Shows.fit (h : Shows content a) : a.Fit := by
  obtain ⟨doc, -, -, hp, hd, -, hrepo, hdetails⟩ := h.doc
  have hl := hd.layout
  have hdom : a.repo.dom = doc.revs := hrepo ▸ hd.dom_repo
  have hmem {r : Revnum} (hr : r ∈ doc.revs) : ∃ e ∈ doc.deltas, ∃ t ∈ doc.texts, e.revnum = r ∧
      t.revnum = r ∧ a.details r = some ⟨e.revdate, e.author, e.state, t.log⟩ := by
    obtain ⟨e, he, rfl⟩ := hr
    obtain ⟨t, ht, htr⟩ := hl.exists_text ⟨e, he, rfl⟩
    exact ⟨e, he, t, ht, rfl, htr, hdetails ▸ RcsDoc.details_eq hl he ht htr⟩
  have hsome {r : Revnum} (hr : (a.details r).isSome) : r ∈ doc.revs := by
    by_contra hno
    rw [← hdetails, RcsDoc.details_eq_none hno] at hr
    cases hr
  refine ⟨fun r hr => ⟨hr, hp.admin.branch, hp.admin.accesslist, hp.admin.taglist, hp.admin.comment⟩,
    hp.desc, hrepo ▸ hd.raw fun t ht => (hp.texts t ht).text, fun r hr => ?_, fun r => ?_,
    fun r x hx => ?_⟩
  · rw [hdom] at hr
    obtain ⟨e, he, rfl⟩ := hr
    exact (hp.deltas e he).revnum
  · rw [hdom]
    refine ⟨hsome, fun hr => ?_⟩
    obtain ⟨e, -, t, -, -, -, hdetail⟩ := hmem hr
    rw [hdetail]
    rfl
  · obtain ⟨e, he, t, ht, -, -, hdetail⟩ := hmem (hsome (Option.isSome_iff_exists.mpr ⟨x, hx⟩))
    obtain rfl := Option.some.inj (hdetail.symm.trans hx)
    have he := hp.deltas e he
    exact ⟨he.revdate, he.author, he.state, (hp.texts t ht).log⟩

theorem Shows.isHead (h : Shows content a) : a.repo.IsHead a.admin.head := by
  obtain ⟨doc, -, hhead, -, hd, -, hrepo, -⟩ := h.doc
  have hl := hd.layout
  have hdom : a.repo.dom = doc.revs := hrepo ▸ hd.dom_repo
  rw [hhead]
  exact ⟨hdom ▸ hl.head, hl.trunk.1, fun r hr => hl.trunk.2 r (hdom ▸ hr)⟩

/-- What is written of the deltas in memory. -/
theorem Archive.Fit.exists_doc (hf : a.Fit) (h : Represents rf a.repo) (hc : rf.Carries a.details) :
    ∃ doc, rf.write = .ok doc ∧ PrintableFile a.admin a.desc doc ∧ doc.Intact ∧ doc.Ordered ∧
      doc.repo = a.repo.settled ∧ doc.details = a.details := by
  obtain ⟨doc, root, hs, ts, hw, hp⟩ := h.exists_printed
  obtain ⟨hheaders, htexts⟩ := h.printable_entries hp hc hf.numbers hf.details hf.raw
  obtain ⟨e, he, hhead⟩ := (h.layout hp).head
  have hnum : IsNum doc.head := hhead ▸ (hheaders e he).revnum
  exact ⟨doc, hw, ⟨hf.admin _ hnum, hf.desc, hheaders, htexts⟩, h.intact hp, h.ordered hp,
    h.repo_printed hp, h.details_printed hp hc hf.dom⟩

/-- What is written shows the archive that is held. -/
theorem Archive.Fit.shows (hf : a.Fit) (h : Represents rf a.repo) (hc : rf.Carries a.details) :
    ∃ doc, rf.write = .ok doc ∧ Shows (rcsfileWrite a.admin a.desc doc) (a.settle doc.head) := by
  obtain ⟨doc, hw, hp, hd, ho, hrepo, hdetails⟩ := hf.exists_doc h hc
  exact ⟨doc, hw, ⟨doc, rfl, rfl, ⟨hp.admin, hp.desc, hp.deltas, hp.texts⟩, hd, ho, hrepo, hdetails⟩⟩

end

/-! ## Three revisions -/

/-- Two revisions on the trunk, and one on a branch. -/
def threeRevs : RcsDoc where
  head := bytes "1.2".toList
  deltas :=
    [⟨bytes "1.2".toList, bytes "7".toList, bytes "m".toList, some (bytes "Exp".toList), [],
        some (bytes "1.1".toList)⟩,
      ⟨bytes "1.1".toList, bytes "5".toList, bytes "m".toList, none, [bytes "1.1.1.1".toList], none⟩,
      ⟨bytes "1.1.1.1".toList, bytes "6".toList, bytes "m".toList, none, [], none⟩]
  texts :=
    [⟨bytes "1.2".toList, bytes "two\n".toList, bytes "b\n".toList⟩,
      ⟨bytes "1.1".toList, [], bytes "d1 1\na1 1\na\n".toList⟩,
      ⟨bytes "1.1.1.1".toList, [], bytes "a1 1\nc\n".toList⟩]

def threeRevsAdmin : Admin where
  head := bytes "1.2".toList
  branch := none
  accesslist := []
  taglist := [(bytes "HERE".toList, bytes "1.1".toList)]
  strictlock := true
  comment := some (bytes "# ".toList)
  expand := .default

/-- A script of one hunk. -/
theorem isScript_hunk {ls : List (List Byte)} {h : Hunk (List Byte)} (ho : IsText nl ls)
    (hstop : h.stop ≤ ls.length) (hany : 0 < h.del ∨ h.add ≠ []) (hr : IsText nl (applyScript ls [h]))
    (hlo : ls.length ≤ Csup.Diff.intMax) (hlr : (applyScript ls [h]).length ≤ Csup.Diff.intMax) :
    IsScript ls.flatten (Csup.Diff.render [h]) (applyScript ls [h]).flatten :=
  ⟨ls, [h], ho, ⟨Nat.zero_le _, hstop, hany, trivial⟩, hr, hlo, hlr, rfl, rfl, rfl⟩

theorem isText_single {l : List Byte} (h : l ≠ [] ∧ nl ∉ l.dropLast) : IsText nl [l] := h

theorem layout_threeRevs : threeRevs.Layout := by decide

theorem gives_head : threeRevs.Gives (bytes "1.2".toList) ⟨bytes "b\n".toList, none⟩ :=
  .head (t := threeRevs.texts[0]) (by decide) rfl

theorem gives_next :
    threeRevs.Gives (bytes "1.1".toList) ⟨bytes "a\n".toList, some (bytes "1.2".toList)⟩ := by
  have hs : IsScript (bytes "b\n".toList) (bytes "d1 1\na1 1\na\n".toList) (bytes "a\n".toList) :=
    @isScript_hunk [bytes "b\n".toList] ⟨0, 1, [bytes "a\n".toList]⟩ (isText_single (by decide))
      (by decide) (by decide) (isText_single (by decide)) (by decide) (by decide)
  exact .child (e := threeRevs.deltas[0]) (t := threeRevs.texts[1]) gives_head (by decide) (by decide)
    (by decide) hs

theorem gives_branch :
    threeRevs.Gives (bytes "1.1.1.1".toList) ⟨bytes "a\nc\n".toList, some (bytes "1.1".toList)⟩ := by
  have hs : IsScript (bytes "a\n".toList) (bytes "a1 1\nc\n".toList) (bytes "a\nc\n".toList) :=
    @isScript_hunk [bytes "a\n".toList] ⟨1, 0, [bytes "c\n".toList]⟩ (isText_single (by decide))
      (by decide) (by decide) ⟨⟨bytes "a".toList, by decide, rfl⟩, isText_single (by decide)⟩ (by decide) (by decide)
  exact .child (e := threeRevs.deltas[1]) (t := threeRevs.texts[2]) gives_next (by decide) (by decide)
    (by decide) hs

theorem forall_threeRevs {P : HeaderEntry → Prop} (h0 : P threeRevs.deltas[0])
    (h1 : P threeRevs.deltas[1]) (h2 : P threeRevs.deltas[2]) : ∀ e ∈ threeRevs.deltas, P e := by
  intro e he
  have hmem : e = threeRevs.deltas[0] ∨ e = threeRevs.deltas[1] ∨ e = threeRevs.deltas[2] := by
    simpa [threeRevs] using he
  rcases hmem with rfl | rfl | rfl
  · exact h0
  · exact h1
  · exact h2

theorem intact_threeRevs : threeRevs.Intact := by
  refine ⟨layout_threeRevs, ?_⟩
  rintro r ⟨e, he, rfl⟩
  revert e
  refine forall_threeRevs ?_ ?_ ?_
  · exact ⟨_, gives_head⟩
  · exact ⟨_, gives_next⟩
  · exact ⟨_, gives_branch⟩

theorem ordered_threeRevs : threeRevs.Ordered :=
  ⟨⟨3, rfl⟩, ⟨3, rfl⟩, forall_threeRevs .nil (List.pairwise_singleton ..) .nil⟩

theorem printable_threeRevs : PrintableFile threeRevsAdmin (bytes "no @@".toList) threeRevs := by
  refine ⟨⟨by decide, by decide, rfl, by decide, by decide⟩, by decide, forall_threeRevs ?_ ?_ ?_,
    fun t ht => ?_⟩
  · exact ⟨by decide, by decide, by decide, by decide, by decide, by decide⟩
  · exact ⟨by decide, by decide, by decide, by decide, by decide, by decide⟩
  · exact ⟨by decide, by decide, by decide, by decide, by decide, by decide⟩
  · have hmem : t = threeRevs.texts[0] ∨ t = threeRevs.texts[1] ∨ t = threeRevs.texts[2] := by
      simpa [threeRevs] using ht
    rcases hmem with rfl | rfl | rfl <;> exact ⟨by decide, by decide, by decide⟩

theorem shows_threeRevs : Shows (rcsfileWrite threeRevsAdmin (bytes "no @@".toList) threeRevs)
    ⟨threeRevsAdmin, bytes "no @@".toList, threeRevs.repo, threeRevs.details⟩ :=
  ⟨threeRevs, rfl, rfl, printable_threeRevs, intact_threeRevs, ordered_threeRevs, rfl, rfl⟩

/-! ## Reading and writing -/

section

variable {adm : Admin} {desc : List Byte} {doc : RcsDoc} {a : Archive} {rf : RcsFile}

/-- The text of each revision of a file is that of the head with the scripts applied on the way. -/
theorem rcsread_getdeltatext (hp : PrintableFile adm desc doc) (hd : doc.Intact) :
    ∃ rf, rcsread (rcsfileWrite adm desc doc) = .ok ({ adm with head := doc.head }, desc, rf) ∧
      ∀ r rev, doc.Gives r rev → ∃ p, rf.getdelta r = some p ∧
        rf.getdeltatext (p + 1) p = .ok rev.text := by
  obtain ⟨rf, hread, hl⟩ := rcsread_rcsfileWrite hp hd.layout
  have hrep := hl.represents hd
  refine ⟨rf, hread, fun r rev hg => ?_⟩
  have hrev := hd.layout.repo_eq_some.mpr hg
  obtain ⟨p, hpm, rfl, hget⟩ := hrep.exists_ptr (Option.isSome_iff_exists.mpr ⟨rev, hrev⟩)
  exact ⟨p, hget, hrep.getdeltatext hpm hrev (Nat.lt_succ_self p)⟩

theorem rcsread_getdeltatext_threeRevs : ∃ rf p,
    rcsread (rcsfileWrite threeRevsAdmin (bytes "no @@".toList) threeRevs) =
      .ok (threeRevsAdmin, bytes "no @@".toList, rf) ∧
    rf.getdelta (bytes "1.1.1.1".toList) = some p ∧
    rf.getdeltatext (p + 1) p = .ok (bytes "a\nc\n".toList) := by
  obtain ⟨rf, hread, htexts⟩ := rcsread_getdeltatext printable_threeRevs intact_threeRevs
  obtain ⟨p, hget, htext⟩ := htexts _ _ gives_branch
  exact ⟨rf, p, hread, hget, htext⟩

/-- What is written of the deltas in memory is read again, whatever was done to them, and from then on
it is the same file. -/
theorem write_rcsread (hf : a.Fit) (h : Represents rf a.repo) (hc : rf.Carries a.details) :
    ∃ doc rf', rf.write = .ok doc ∧ rcsread (rcsfileWrite a.admin a.desc doc) =
        .ok ({ a.admin with head := doc.head }, a.desc, rf') ∧
      Represents rf' a.repo.settled ∧ rf'.Carries a.details ∧ rf'.write = .ok doc := by
  obtain ⟨doc, hw, hp, hd, ho, hrepo, hdetails⟩ := hf.exists_doc h hc
  obtain ⟨rf', hread, hl⟩ := rcsread_rcsfileWrite hp hd.layout
  exact ⟨doc, rf', hw, hread, hrepo ▸ hl.represents hd, hdetails ▸ hl.carries hd.layout,
    hl.write_eq hd ho⟩

/-- The file that was read is one. -/
theorem write_rcsread_threeRevs : ∃ (rf : RcsFile) (doc : RcsDoc) (rf' : RcsFile),
    rf.write = .ok doc ∧
    rcsread (rcsfileWrite threeRevsAdmin (bytes "no @@".toList) doc) =
      .ok ({ threeRevsAdmin with head := doc.head }, bytes "no @@".toList, rf') ∧
    Represents rf' threeRevs.repo.settled ∧ rf'.Carries threeRevs.details ∧
    rf'.write = .ok doc := by
  obtain ⟨rf, -, hrep, hcarries⟩ := shows_threeRevs.read
  obtain ⟨doc, rf', h⟩ := write_rcsread shows_threeRevs.fit hrep hcarries
  exact ⟨rf, doc, rf', h⟩

end

end Csup.Rcs
