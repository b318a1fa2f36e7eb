import Csup.Rcs.Import

/-!
# A repository that is read

The deltas of the entries read so far, each with its parent as its diffbase, and the placeholders for
their next ones (`Imported`); and then the texts.

* `Imported.step`: one entry;
* `exists_loaded`: all entries, and the texts;
* `Loaded.represents`: the deltas hold the revisions of the file.
-/

namespace Csup.Rcs

open Csup.Framework

variable {rf rf' : RcsFile} {doc : RcsDoc} {pre post : List HeaderEntry} {e : HeaderEntry} {r : Revnum}

/-- What `parse_deltas` reads of a header. -/
def HeaderEntry.entry (e : HeaderEntry) : DeltaEntry :=
  ⟨e.revnum, e.revdate, e.author, e.state, e.next⟩

attribute [local instance] Lineage.decidableMem

/-- What is found behind some entries. -/
def Known (pre : List HeaderEntry) (r : Revnum) : Option Bool :=
  if r ∈ pre.map HeaderEntry.revnum then some true
  else if some r ∈ pre.map HeaderEntry.next then some false else none

/-- The diffbase of a delta is its parent. -/
inductive HasBase (doc : RcsDoc) (rf : RcsFile) (p : Ptr) (r : Revnum) : Option Ptr → Prop
  | head : r = doc.head → HasBase doc rf p r none
  | parent {b : Ptr} : b < p → b ∈ rf.deltatable → rf.real b = true →
    revisions.Child doc.revs (rf.revnum b) r → HasBase doc rf p r (some b)

/-- A placeholder, with the delta it is the next one of. -/
structure Awaits (pre : List HeaderEntry) (rf : RcsFile) (p : Ptr) (e : HeaderEntry) (b : Ptr) :
    Prop where
  entry : e ∈ pre
  mem : b ∈ rf.deltatable
  next : e.next = some (rf.revnum p)
  data : rf.data p =
    some { createdelta (rf.revnum p) with placeholder := true, diffbase := some b }
  older : b < p
  real : rf.real b = true
  revnum : rf.revnum b = e.revnum

/-- The deltas of the entries `pre` of a file. -/
structure Imported (doc : RcsDoc) (pre : List HeaderEntry) (rf : RcsFile) : Prop where
  inv : Inv rf []
  sorted : Sorted rf
  head : rf.head = doc.head
  look : rf.look = Known pre
  delta : ∀ p ∈ rf.deltatable, rf.real p = true → ∃ e ∈ pre, ∃ db,
    rf.data p = some (entryDelta e.entry db) ∧ HasBase doc rf p e.revnum db
  next : ∀ p ∈ rf.deltatable, rf.real p = false → ∃ e b, Awaits pre rf p e b
  filled : ∀ p ∈ rf.deltatable, ∀ b ∈ rf.branches p, b.deltalist ≠ []
  placed : ∀ e ∈ pre, ∀ a, revisions.point (revLine e.revnum) = some a →
    a ∈ pre.map HeaderEntry.revnum

theorem Imported.empty (doc : RcsDoc) : Imported doc [] (RcsFile.empty doc.head) :=
  ⟨Inv.empty _, Sorted.empty _, rfl, rfl, by simp [RcsFile.empty], by simp [RcsFile.empty],
    by simp [RcsFile.empty], by simp⟩

theorem known_of_mem (h : r ∈ pre.map HeaderEntry.revnum) : Known pre r = some true := if_pos h

theorem known_eq_true : Known pre r = some true ↔ r ∈ pre.map HeaderEntry.revnum := by
  refine ⟨fun h => ?_, known_of_mem⟩
  rw [Known] at h
  split at h
  · assumption
  · split at h <;> cases h

theorem lookImport_known (hr : e.revnum ∉ pre.map HeaderEntry.revnum)
    (hnext : ∀ r, e.next = some r → r ≠ e.revnum ∧ Known pre r = none) :
    lookImport (Known pre) e.revnum e.next = Known (pre ++ [e]) := by
  have hnot : Known pre e.revnum ≠ some true := fun h => hr (known_eq_true.mp h)
  funext r
  rw [lookImport, if_neg hnot]
  by_cases hn : e.next = some r
  · obtain ⟨hne, hnone⟩ := hnext r hn
    have hmem : r ∉ pre.map HeaderEntry.revnum := fun h => by
      rw [known_of_mem h] at hnone
      cases hnone
    simp [Known, hn, hmem, hne]
  · have hn' : ¬some r = e.next := fun h => hn h.symm
    by_cases he : e.revnum = r
    · simp [Known, hn, he]
    · have he' : ¬r = e.revnum := fun h => he h.symm
      simp [Known, hn, hn', he, he']

theorem of_data {p : Ptr} {d : Delta} (h : rf.data p = some d) :
    rf.revnum p = d.revnum ∧ rf.real p = !d.placeholder ∧ rf.diffbase p = d.diffbase ∧
      rf.text p = d.text := by
  obtain ⟨d', hd', rfl⟩ := Option.map_eq_some_iff.mp h
  simp only [RcsFile.revnum, RcsFile.real, RcsFile.diffbase, RcsFile.text, hd']
  exact ⟨rfl, rfl, rfl, rfl⟩

/-! ## An entry -/

namespace RcsDoc.Layout

variable (hl : doc.Layout) (heq : doc.deltas = pre ++ e :: post)

include hl heq

theorem entry_new : e.revnum ∉ pre.map HeaderEntry.revnum := by
  have hnd := hl.nodup
  rw [heq, List.map_append, List.map_cons] at hnd
  exact fun h => (List.nodup_append.mp hnd).2.2 _ h _ List.mem_cons_self rfl

omit hl in
theorem mem_of_pre {a : HeaderEntry} (ha : a ∈ pre) : a ∈ doc.deltas := by
  rw [heq]
  exact List.mem_append_left _ ha

omit hl in
theorem entry_mem : e ∈ doc.deltas := by
  rw [heq]
  exact List.mem_append_right _ List.mem_cons_self

omit hl in
theorem revs_of_pre (h : r ∈ pre.map HeaderEntry.revnum) : r ∈ doc.revs := by
  obtain ⟨a, ha, rfl⟩ := List.mem_map.mp h
  exact ⟨a, mem_of_pre heq ha, rfl⟩

/-- The branch point of an entry is in front of it, when that of the entries in front is. -/
theorem entry_point (hplaced : ∀ e ∈ pre, ∀ a, revisions.point (revLine e.revnum) = some a →
    a ∈ pre.map HeaderEntry.revnum) {a : Revnum} (ha : revisions.point (revLine e.revnum) = some a) :
    a ∈ pre.map HeaderEntry.revnum := by
  rcases hl.order pre e post heq with ⟨-, hhead⟩ | ⟨b, hb, hc | hc⟩
  · rw [hhead, hl.trunk.1] at ha
    cases ha
  · exact hplaced b hb a ((congrArg revisions.point hc.line).symm.trans ha)
  · rw [← Option.some.inj (hc.point.symm.trans ha)]
    exact List.mem_map_of_mem hb

/-- The next one of an entry is new. -/
theorem entry_next (hn : e.next = some r) : r ≠ e.revnum ∧ Known pre r = none := by
  have hnext := (hl.next e (entry_mem heq) r).mp hn
  have hchild : revisions.Child doc.revs e.revnum r := .inl hnext
  have hnew := hl.entry_new heq
  -- its parent would be in front
  have hno {a : HeaderEntry} (ha : a ∈ pre) : ¬revisions.Child doc.revs a.revnum r := fun hc =>
    hnew (hchild.unique hc ▸ List.mem_map_of_mem ha)
  refine ⟨hchild.ne.symm, ?_⟩
  rw [Known, if_neg, if_neg]
  · intro hmem
    obtain ⟨a, ha, har⟩ := List.mem_map.mp hmem
    exact hno ha (.inl ((hl.next a (mem_of_pre heq ha) r).mp har))
  · intro hmem
    obtain ⟨a, ha, rfl⟩ := List.mem_map.mp hmem
    obtain ⟨pre₁, pre₂, rfl⟩ := List.append_of_mem ha
    rcases hl.order pre₁ a (pre₂ ++ e :: post) (by rw [heq]; simp) with ⟨-, hhead⟩ | ⟨b, hb, hc⟩
    · exact hl.head_not_child (hhead ▸ hchild)
    · exact hno (List.mem_append_left _ hb) hc

end RcsDoc.Layout

namespace Imported

variable (h : Imported doc pre rf)

include h

theorem getdelta_of_mem (hr : r ∈ pre.map HeaderEntry.revnum) :
    ∃ b ∈ rf.deltatable, rf.getdelta r = some b ∧ rf.real b = true ∧ rf.revnum b = r := by
  have hlook : rf.look r = some true := by rw [h.look, known_of_mem hr]
  obtain ⟨b, hb, hreal⟩ := Option.map_eq_some_iff.mp hlook
  exact ⟨b, (getdelta_some hb).1, hb, hreal, getdelta_revnum hb⟩

theorem revnum_mem {p : Ptr} (hp : p ∈ rf.deltatable) (hreal : rf.real p = true) :
    rf.revnum p ∈ pre.map HeaderEntry.revnum := by
  obtain ⟨e, he, db, hdata, -⟩ := h.delta p hp hreal
  rw [(of_data hdata).1]
  exact List.mem_map_of_mem he

variable (hl : doc.Layout) (heq : doc.deltas = pre ++ e :: post)

include hl heq

/-- What is found before an entry is its placeholder. -/
theorem getdelta_awaits {d : Ptr} (hd : rf.getdelta e.revnum = some d) :
    rf.real d = false ∧ ∃ a b, Awaits pre rf d a b := by
  have hreal : rf.real d = false := by
    by_contra hne
    have hmem := h.revnum_mem (getdelta_some hd).1 (by simpa using hne)
    rw [getdelta_revnum hd] at hmem
    exact hl.entry_new heq hmem
  exact ⟨hreal, h.next d (getdelta_some hd).1 hreal⟩

/-- An entry without a placeholder is that of the head, or the first one of a branch. -/
theorem entry_first (hnone : rf.getdelta e.revnum = none) :
    e.revnum = doc.head ∨ ∃ a ∈ pre, revisions.FirstOf doc.revs a.revnum e.revnum := by
  rcases hl.order pre e post heq with ⟨-, hhead⟩ | ⟨a, ha, hc | hc⟩
  · exact .inl hhead
  · have hnext := (hl.next a (RcsDoc.Layout.mem_of_pre heq ha) e.revnum).mpr hc
    have hlook : Known pre e.revnum = none := by rw [← h.look, RcsFile.look, hnone]; rfl
    rw [Known, if_neg (hl.entry_new heq), if_pos (hnext ▸ List.mem_map_of_mem ha)] at hlook
    cases hlook
  · exact .inr ⟨a, ha, hc⟩

theorem leads {a : Revnum} (hfirst : revisions.FirstOf doc.revs a e.revnum) : Leads rf e.revnum := by
  intro x hx hreal hnumber
  have hmem := h.revnum_mem hx hreal
  have hpoint : (revLine e.revnum).bind rcsrevPrefix = some a := hfirst.point
  have hnone : revLine e.revnum ≠ none := fun hn => by
    rw [hn] at hpoint
    cases hpoint
  have hline : revLine (rf.revnum x) = revLine e.revnum := by
    have hr := hl.numbered e.revnum ⟨e, RcsDoc.Layout.entry_mem heq, rfl⟩
    obtain ⟨brev, hbrev⟩ := Option.ne_none_iff_exists'.mp hnone
    obtain ⟨h1, hp⟩ := (revLine_eq_some hr).mp hbrev
    have hcount := count_eq_of_rcsrevPrefix (hnumber.trans hp) hp
    rw [hbrev]
    exact (revLine_eq_some (by omega)).mpr ⟨by omega, hnumber.trans hp⟩
  rcases hfirst.least _ (RcsDoc.Layout.revs_of_pre heq hmem) hline with hx | hx
  · exact absurd (hx ▸ hmem) (hl.entry_new heq)
  · have := hx.2
    rwa [if_neg hnone] at this

/-- One entry. -/
theorem step : ∃ rf', rf.importdelta e.entry.revnum e.entry.revdate e.entry.author e.entry.state
    e.entry.next = .ok rf' ∧ Imported doc (pre ++ [e]) rf' := by
  have hnew : Known pre e.revnum ≠ some true := fun hk => hl.entry_new heq (known_eq_true.mp hk)
  have hnum := hl.numbered e.revnum ⟨e, RcsDoc.Layout.entry_mem heq, rfl⟩
  have hpoint {a : Revnum} (ha : revisions.point (revLine e.revnum) = some a) :
      a ∈ pre.map HeaderEntry.revnum := hl.entry_point heq h.placed ha
  have hplace : HasPlace rf.look e.revnum := hasPlace_of_point hnum fun a ha => by
    rw [h.look, known_of_mem (hpoint ha)]
    rfl
  obtain ⟨rf', hok, hinv, hlook⟩ := (h.inv.importdelta_eq e.entry.revnum e.entry.revdate
    e.entry.author e.entry.state e.entry.next).1 (.inr hplace)
  have hnext : NewNext rf.look e.entry.revnum e.entry.next := fun _ r hr => by
    rw [h.look]
    exact hl.entry_next heq hr
  have hsorted := h.sorted.importdelta h.inv hnext hok
  obtain ⟨d, n, db, hent, hcase⟩ := importdelta_spec h.sorted h.inv (e := e.entry) (fun d hd => by
    obtain ⟨-, a, b, haw⟩ := h.getdelta_awaits hl heq hd
    refine ⟨b, ?_⟩
    rw [haw.data, getdelta_revnum hd]) hplace hok
  obtain ⟨hdrev, hdreal, hddb, -⟩ := of_data hent.delta
  have hdreal : rf'.real d = true := hdreal
  have hdt : d ∈ rf'.deltatable := (hent.table d).mpr (.inl rfl)
  -- the delta of the entry was not in the tree
  have hne {q : Ptr} (hq : q ∈ rf.deltatable) (hreal : rf.real q = true) : q ≠ d := by
    rintro rfl
    rcases hcase with ⟨hd, -⟩ | ⟨-, hd, -⟩
    · rw [(h.getdelta_awaits hl heq hd).1] at hreal
      cases hreal
    · exact hd hq
  have hkeep {q : Ptr} (hq : q ∈ rf.deltatable) (hreal : rf.real q = true) :
      q ∈ rf'.deltatable ∧ rf'.real q = true ∧ rf'.revnum q = rf.revnum q := by
    have hdata := hent.data q hq (hne hq hreal)
    exact ⟨(hent.table q).mpr (.inr (.inl hq)), (real_of_data hdata).trans hreal,
      revnum_of_data hdata⟩
  have hbase : HasBase doc rf' d e.revnum db := by
    rcases hcase with ⟨hd, hdb⟩ | ⟨hnone, -, hlt, htrunk, hlead⟩
    · obtain ⟨-, a, b, haw⟩ := h.getdelta_awaits hl heq hd
      obtain ⟨hbt, hbr, hbrev⟩ := hkeep haw.mem haw.real
      rw [(of_data haw.data).2.2.1] at hdb
      obtain rfl := hdb
      refine .parent haw.older hbt hbr (.inl ?_)
      rw [hbrev, haw.revnum]
      refine (hl.next a (RcsDoc.Layout.mem_of_pre heq haw.entry) _).mp ?_
      rw [haw.next, getdelta_revnum hd]
      rfl
    · rcases h.entry_first hl heq hnone with hhead | ⟨a, ha, hfirst⟩
      · have : revLine e.revnum = none := hhead ▸ hl.trunk.1
        rw [htrunk (rcsrevIstrunk_eq_true.mpr (revLine_eq_none.mp this))]
        exact .head hhead
      · have hp : (revLine e.revnum).bind rcsrevPrefix = some a.revnum := hfirst.point
        obtain ⟨brev, hbrev, hbprev⟩ := Option.bind_eq_some_iff.mp hp
        obtain ⟨h1, hpre⟩ := (revLine_eq_some hnum).mp hbrev
        obtain ⟨b, hbt, hb, hbr, hrevb⟩ := h.getdelta_of_mem (List.mem_map_of_mem ha)
        obtain ⟨bprev, brev', hbp, hdb⟩ := hlead (fun ht => h1 (rcsrevIstrunk_eq_true.mp ht))
          (h.leads hl heq hfirst)
        obtain ⟨hbrev', hbprev'⟩ := branchpoint_eq_ok.mp hbp
        obtain rfl := Option.some.inj (hbrev'.symm.trans hpre)
        obtain rfl := Option.some.inj (hbprev'.symm.trans hbprev)
        obtain ⟨hbt', hbr', hbrev⟩ := hkeep hbt hbr
        rw [hdb, hb]
        refine .parent (hlt b hbt) hbt' hbr' (.inr ?_)
        rw [hbrev, hrevb]
        exact hfirst
  have hmem : e ∈ pre ++ [e] := List.mem_append_right _ List.mem_cons_self
  refine ⟨rf', hok, hinv, hsorted, hent.head.trans h.head, ?_, fun p hp hreal => ?_,
    fun p hp hreal => ?_, fun q hq b hb => ?_, fun a ha x hx => ?_⟩
  · rw [hlook, h.look]
    exact lookImport_known (hl.entry_new heq) fun r hr => hl.entry_next heq hr
  · rcases (hent.table p).mp hp with rfl | hpt | ⟨rfl, hn⟩
    · exact ⟨e, hmem, db, hent.delta, hbase⟩
    · by_cases hpd : p = d
      · exact ⟨e, hmem, db, hpd ▸ hent.delta, hpd ▸ hbase⟩
      · have hdata := hent.data p hpt hpd
        obtain ⟨a, ha, db', hdata', hb⟩ := h.delta p hpt ((real_of_data hdata).symm.trans hreal)
        refine ⟨a, List.mem_append_left _ ha, db', hdata.trans hdata', ?_⟩
        cases hb with
        | head hhead => exact .head hhead
        | parent hlt hbt hbr hc =>
          obtain ⟨hbt', hbr', hbrev⟩ := hkeep hbt hbr
          exact .parent hlt hbt' hbr' (hbrev ▸ hc)
    · obtain ⟨r, hr⟩ := Option.isSome_iff_exists.mp hn
      rw [(of_data (hent.next r hr)).2.1] at hreal
      cases hreal
  · have hpd : p ≠ d := fun hpd => by
      rw [hpd, hdreal] at hreal
      cases hreal
    rcases (hent.table p).mp hp with rfl | hpt | ⟨rfl, hn⟩
    · exact absurd rfl hpd
    · have hdata := hent.data p hpt hpd
      obtain ⟨a, b, haw⟩ := h.next p hpt ((real_of_data hdata).symm.trans hreal)
      obtain ⟨hbt', hbr', hbrev⟩ := hkeep haw.mem haw.real
      have hrev := revnum_of_data hdata
      exact ⟨a, b, List.mem_append_left _ haw.entry, hbt', hrev ▸ haw.next,
        by rw [hdata, hrev, haw.data], haw.older, hbr', hbrev.trans haw.revnum⟩
    · obtain ⟨r, hr⟩ := Option.isSome_iff_exists.mp hn
      have hdata := hent.next r hr
      have hrev : rf'.revnum p = r := (of_data hdata).1
      exact ⟨e, d, hmem, hdt, by rw [hrev]; exact hr, by rw [hrev, hdata], hent.newer.1, hdreal, hdrev⟩
  · rcases hent.branches q hq b hb with ⟨hqt, hb⟩ | hnumber | hdb
    · exact h.filled q hqt b hb
    · have hnumber : rcsrevPrefix e.revnum = some b.revnum := hnumber.symm
      have hcount := count_of_rcsrevPrefix hnumber
      have hcount' := count_of_rcsrevPrefix ((hsorted.branches q hq).branchNum b hb)
      have hline : revLine e.revnum = some b.revnum :=
        (revLine_eq_some hnum).mpr ⟨by omega, hnumber⟩
      have hrevs : e.revnum ∈ rf'.revs := ⟨d, hinv.mem_members.mpr ⟨hdt, hdreal⟩, hdrev⟩
      obtain ⟨y, hy, -⟩ := (hsorted.lists_branch hq hb).all e.revnum hrevs hline
      exact List.ne_nil_of_mem hy
    · exact List.ne_nil_of_mem hdb
  · rw [List.map_append]
    refine List.mem_append_left _ ?_
    rcases List.mem_append.mp ha with ha | ha
    · exact h.placed a ha x hx
    · rw [List.mem_singleton.mp ha] at hx
      exact hpoint hx

end Imported

/-! ## The entries -/

/-- All of them. -/
theorem Imported.all (h : Imported doc pre rf) (hl : doc.Layout) (heq : doc.deltas = pre ++ post) :
    ∃ rf', (post.map HeaderEntry.entry).foldlM
      (fun rf e => rf.importdelta e.revnum e.revdate e.author e.state e.next) rf = .ok rf' ∧
      Imported doc doc.deltas rf' := by
  induction post generalizing pre rf with
  | nil =>
    rw [List.append_nil] at heq
    exact ⟨rf, rfl, heq ▸ h⟩
  | cons e post ih =>
    obtain ⟨rf', hok, h'⟩ := h.step hl heq
    obtain ⟨rf'', hok', h''⟩ := ih h' (by rw [heq, List.append_assoc]; rfl)
    refine ⟨rf'', ?_, h''⟩
    simp only [List.map_cons, List.foldlM_cons, bind, Except.bind, hok]
    exact hok'

section

variable (h : Imported doc doc.deltas rf) (hl : doc.Layout)

include h hl

theorem Imported.real {p : Ptr} (hp : p ∈ rf.deltatable) : rf.real p = true := by
  by_contra hne
  have hreal : rf.real p = false := by simpa using hne
  obtain ⟨a, b, haw⟩ := h.next p hp hreal
  -- what a placeholder waits for has come
  obtain ⟨e, he, heq⟩ := ((hl.next a haw.entry _).mp haw.next).child
  have hmem : e.revnum ∈ doc.deltas.map HeaderEntry.revnum := List.mem_map_of_mem he
  obtain ⟨q, hq, -, hqreal, hqrev⟩ := h.getdelta_of_mem (heq ▸ hmem)
  rw [h.sorted.revnum_inj hq hp hqrev, hreal] at hqreal
  cases hqreal

theorem Imported.mem_members {p : Ptr} : p ∈ rf.members ↔ p ∈ rf.deltatable := by
  rw [h.inv.mem_members]
  exact ⟨And.left, fun hp => ⟨hp, h.real hl hp⟩⟩

theorem Imported.revs : rf.revs = doc.revs := by
  ext r
  constructor
  · rintro ⟨p, hp, rfl⟩
    have hpt := (h.mem_members hl).mp hp
    exact List.mem_map.mp (h.revnum_mem hpt (h.real hl hpt))
  · intro hr
    obtain ⟨p, hp, -, -, hrev⟩ := h.getdelta_of_mem (List.mem_map.mpr hr)
    exact ⟨p, (h.mem_members hl).mpr hp, hrev⟩

theorem Imported.trunk : rf.trunk ≠ [] := by
  obtain ⟨x, -, ⟨hx, -⟩ | ⟨p, -, b, -, -, hsome⟩⟩ :=
    h.sorted.exists_list ((h.revs hl).symm ▸ hl.head)
  · exact List.ne_nil_of_mem hx
  · rw [hl.trunk.1] at hsome
    cases hsome

end

/-! ## The texts -/

/-- What `parse_deltatexts` adds to a delta. -/
def Delta.addText (t : TextEntry) (d : Delta) : Delta :=
  { d with log := d.log ++ t.log, text := d.text ++ t.text }

theorem fills_addText (t : TextEntry) : Fills (Delta.addText t) :=
  ⟨fun _ => rfl, fun _ => rfl, fun _ => rfl, fun _ => rfl⟩

theorem parseDeltatexts_cons {t : TextEntry} {ts : List TextEntry} {p : Ptr}
    (hp : rf.getdelta t.revnum = some p) :
    rf.parseDeltatexts (t :: ts) = (rf.modify p (Delta.addText t)).parseDeltatexts ts := by
  simp only [RcsFile.parseDeltatexts, hp]
  rfl

/-- The same deltas, with other texts. -/
structure Retexted (rf rf' : RcsFile) : Prop where
  sorted : Sorted rf'
  inv : Inv rf' []
  head : rf'.head = rf.head
  trunk : rf'.trunk = rf.trunk
  deltatable : rf'.deltatable = rf.deltatable
  branches : ∀ q, rf'.branches q = rf.branches q
  revnum : ∀ q, rf'.revnum q = rf.revnum q
  real : ∀ q, rf'.real q = rf.real q
  diffbase : ∀ q, rf'.diffbase q = rf.diffbase q

theorem Retexted.modify (h : Retexted rf rf') (p : Ptr) {f : Delta → Delta} (hf : Fills f) :
    Retexted rf (rf'.modify p f) :=
  ⟨h.sorted.modify h.inv hf.revnum hf.branchlist, h.inv.modify hf.revnum hf.branchlist hf.placeholder,
    h.head, h.trunk, h.deltatable, fun q => (modify_branches hf.branchlist).trans (h.branches q),
    fun q => (modify_revnum hf.revnum).trans (h.revnum q),
    fun q => (modify_real hf.placeholder).trans (h.real q),
    fun q => (hf.diffbase_eq q).trans (h.diffbase q)⟩

theorem Retexted.parseDeltatexts (h : Retexted rf rf') (ts : List TextEntry) :
    Retexted rf (rf'.parseDeltatexts ts) := by
  induction ts generalizing rf' with
  | nil => exact h
  | cons t ts ih =>
    cases hp : rf'.getdelta t.revnum with
    | none =>
      simp only [RcsFile.parseDeltatexts, hp]
      exact h
    | some p =>
      rw [parseDeltatexts_cons hp]
      exact ih (h.modify _ (fills_addText t))

theorem getdelta_modify {p : Ptr} {f : Delta → Delta} (hf : Fills f) :
    (rf.modify p f).getdelta r = rf.getdelta r :=
  getdelta_congr rf (rf.modify p f) rfl (fun _ _ => ⟨modify_isSome, modify_revnum hf.revnum⟩) r

theorem data_parseDeltatexts_ne {ts : List TextEntry} {p : Ptr}
    (h : ∀ t ∈ ts, rf.getdelta t.revnum ≠ some p) : (rf.parseDeltatexts ts).data p = rf.data p := by
  induction ts generalizing rf with
  | nil => rfl
  | cons t ts ih =>
    cases hq : rf.getdelta t.revnum with
    | none => simp only [RcsFile.parseDeltatexts, hq]
    | some q =>
      rw [parseDeltatexts_cons hq]
      refine (ih fun t' ht' => ?_).trans (data_modify_ne fun hpq => ?_)
      · rw [getdelta_modify (fills_addText t)]
        exact h t' (List.mem_cons_of_mem t ht')
      · exact h t List.mem_cons_self (hpq ▸ hq)

/-- Each text is added to its delta, when all are found and no number comes twice. -/
theorem data_parseDeltatexts {ts : List TextEntry} (hnd : (ts.map TextEntry.revnum).Nodup)
    (hfound : ∀ t ∈ ts, (rf.getdelta t.revnum).isSome) {t : TextEntry} (ht : t ∈ ts) {p : Ptr}
    (hp : rf.getdelta t.revnum = some p) :
    (rf.parseDeltatexts ts).data p = (rf.data p).map (Delta.addText t) := by
  induction ts generalizing rf with
  | nil => cases ht
  | cons t' ts ih =>
    obtain ⟨hnot, hnd⟩ := List.nodup_cons.mp hnd
    obtain ⟨q, hq⟩ := Option.isSome_iff_exists.mp (hfound t' List.mem_cons_self)
    have hget (r : Revnum) : (rf.modify q (Delta.addText t')).getdelta r = rf.getdelta r :=
      getdelta_modify (fills_addText t')
    rw [parseDeltatexts_cons hq]
    rcases List.mem_cons.mp ht with rfl | ht
    · obtain rfl := Option.some.inj (hq.symm.trans hp)
      refine (data_parseDeltatexts_ne fun u hu hup => hnot ?_).trans ?_
      · rw [hget] at hup
        rw [← getdelta_revnum hp, getdelta_revnum hup]
        exact List.mem_map_of_mem hu
      · show ((rf.modify q _).mem q).map Delta.data = _
        rw [modify_mem_self, Option.map_map, RcsFile.data, Option.map_map]
        rfl
    · have hqp : p ≠ q := by
        rintro rfl
        refine hnot ?_
        rw [← getdelta_revnum hq, getdelta_revnum hp]
        exact List.mem_map_of_mem ht
      refine (ih hnd (fun u hu => ?_) ht ((hget _).trans hp)).trans ?_
      · rw [hget]
        exact hfound u (List.mem_cons_of_mem t' hu)
      · rw [data_modify_ne hqp]

/-! ## A file -/

/-- The deltas of a file. -/
structure Loaded (doc : RcsDoc) (rf : RcsFile) : Prop where
  inv : Inv rf []
  sorted : Sorted rf
  head : rf.head = doc.head
  delta : ∀ p ∈ rf.deltatable, ∃ e ∈ doc.deltas, ∃ t ∈ doc.texts, ∃ db, t.revnum = e.revnum ∧
    rf.data p = some { entryDelta e.entry db with log := t.log, text := t.text } ∧
    HasBase doc rf p e.revnum db
  real : ∀ p ∈ rf.deltatable, rf.real p = true
  filled : ∀ p ∈ rf.deltatable, ∀ b ∈ rf.branches p, b.deltalist ≠ []
  rooted : rf.trunk ≠ []
  revs : rf.revs = doc.revs

/-- The entries of a file in its layout are imported, and have a delta for each of the texts. -/
theorem exists_imported (hl : doc.Layout) : ∃ rf, (doc.deltas.map HeaderEntry.entry).foldlM
      (fun rf e => rf.importdelta e.revnum e.revdate e.author e.state e.next)
      (RcsFile.empty doc.head) = .ok rf ∧
    (∀ t ∈ doc.texts, (rf.getdelta t.revnum).isSome) ∧
      Loaded doc (rf.parseDeltatexts doc.texts) := by
  obtain ⟨rf, hok, h⟩ := (Imported.empty doc).all hl rfl
  have ht : Retexted rf (rf.parseDeltatexts doc.texts) :=
    Retexted.parseDeltatexts ⟨h.sorted, h.inv, rfl, rfl, rfl, fun _ => rfl, fun _ => rfl,
      fun _ => rfl, fun _ => rfl⟩ doc.texts
  have hget {t : TextEntry} (ht : t ∈ doc.texts) : (rf.getdelta t.revnum).isSome := by
    obtain ⟨b, -, hb, -⟩ := h.getdelta_of_mem (List.mem_map.mpr (hl.mem_of_text ht))
    rw [hb]
    rfl
  have hmem {p : Ptr} : p ∈ (rf.parseDeltatexts doc.texts).members ↔ p ∈ rf.members := by
    rw [ht.inv.mem_members, h.inv.mem_members, ht.deltatable, ht.real]
  refine ⟨rf, hok, fun t ht => hget ht, ht.inv, ht.sorted, ht.head.trans h.head, fun p hp => ?_,
    fun p hp => ?_, fun p hp b hb => ?_, ?_, ?_⟩
  · rw [ht.deltatable] at hp
    obtain ⟨e, he, db, hdata, hbase⟩ := h.delta p hp (h.real hl hp)
    obtain ⟨t, htm, htr⟩ := hl.exists_text ⟨e, he, rfl⟩
    have hrev : rf.revnum p = t.revnum := (of_data hdata).1.trans htr.symm
    have hfind : rf.getdelta t.revnum = some p := by
      obtain ⟨q, hq⟩ := Option.isSome_iff_exists.mp (hget htm)
      rw [hq, h.sorted.revnum_inj (getdelta_some hq).1 hp ((getdelta_revnum hq).trans hrev.symm)]
    refine ⟨e, he, t, htm, db, htr, ?_, ?_⟩
    · rw [data_parseDeltatexts (hl.texts.nodup_iff.mpr hl.nodup) (fun t ht => hget ht) htm hfind,
        hdata]
      rfl
    · cases hbase with
      | head hhead => exact .head hhead
      | parent hlt hbt hbr hc =>
        exact .parent hlt (ht.deltatable ▸ hbt) ((ht.real _).trans hbr) (by rw [ht.revnum]; exact hc)
  · rw [ht.real]
    exact h.real hl (ht.deltatable ▸ hp)
  · rw [ht.branches] at hb
    exact h.filled p (ht.deltatable ▸ hp) b hb
  · rw [ht.trunk]
    exact h.trunk hl
  · rw [revs_congr (fun q => hmem) fun q _ => ht.revnum q, h.revs hl]

/-- A file in its layout is read. -/
theorem exists_loaded (hl : doc.Layout) :
    ∃ rf, rcsparse doc.head (doc.deltas.map HeaderEntry.entry) doc.texts = .ok rf ∧ Loaded doc rf := by
  obtain ⟨rf, hok, -, h⟩ := exists_imported hl
  refine ⟨_, ?_, h⟩
  simp only [rcsparse, bind, Except.bind, hok]
  rfl

/-- Each revision is based on its parent. -/
theorem RcsDoc.Layout.base_of_child (hl : doc.Layout) {a : Revnum} {rev : Rev}
    (hc : revisions.Child doc.revs a r) (hg : doc.Gives r rev) : rev.base = some a := by
  obtain ⟨t, -, a', rev', text, -, -, hc', -, rfl⟩ :=
    hg.child_of_ne hl fun heq => hl.head_not_child (heq ▸ hc)
  rw [hc.unique hc']

theorem RcsDoc.Intact.dom_repo (hd : doc.Intact) : doc.repo.dom = doc.revs := by
  ext r
  constructor
  · intro hr
    obtain ⟨rev, hrev⟩ := Option.isSome_iff_exists.mp hr
    exact (hd.layout.repo_eq_some.mp hrev).mem hd.layout
  · intro hr
    obtain ⟨rev, hrev⟩ := hd.gives r hr
    exact Option.isSome_iff_exists.mpr ⟨rev, hd.layout.repo_eq_some.mpr hrev⟩

theorem RcsDoc.Intact.sound (hd : doc.Intact) : doc.repo.Sound := by
  have hl := hd.layout
  refine ⟨?_, ?_, fun a x hc => .inl ?_⟩
  · rw [hd.dom_repo]
    exact hl.numbered
  · rw [hd.dom_repo]
    exact hl.grounded
  · rw [hd.dom_repo] at hc
    obtain ⟨rev, hrev⟩ := hd.gives x hc.child_mem
    rw [Repo.base, hl.repo_eq_some.mpr hrev]
    exact hl.base_of_child hc hrev

/-- The deltas that are read hold the revisions of the file. -/
theorem Loaded.represents (h : Loaded doc rf) (hd : doc.Intact) : Represents rf doc.repo := by
  have hl := hd.layout
  refine ⟨h.inv, h.sorted, h.real, h.filled, h.rooted, hd.dom_repo.trans h.revs.symm, hd.sound,
    fun p hp => ?_⟩
  have hpt := (h.inv.mem_members.mp hp).1
  obtain ⟨e, he, t, ht, db, htr, hdata, hbase⟩ := h.delta p hpt
  have hrev : rf.revnum p = e.revnum := (of_data hdata).1
  have hdb : rf.diffbase p = db := (of_data hdata).2.2.1
  have htext : rf.text p = t.text := (of_data hdata).2.2.2
  cases hbase with
  | head hhead =>
    refine .whole hdb (by rw [hrev, hhead, h.head]) ?_
    rw [hrev, hhead, htext]
    exact hl.repo_eq_some.mpr (.head ht (htr.trans hhead))
  | @parent b hlt hbt hbr hc =>
    obtain ⟨rev, hg⟩ := hd.gives e.revnum ⟨e, he, rfl⟩
    obtain ⟨t', ht', a, rev', text, htr', hga, hca, hs, rfl⟩ :=
      hg.child_of_ne hl fun heq => hl.head_not_child (heq ▸ hc)
    obtain rfl := hl.text_unique ht' ht (htr'.trans htr.symm)
    refine .script hdb hlt (h.inv.mem_members.mpr ⟨hbt, hbr⟩) ?_ (htext ▸ hs) ?_
    · rw [hc.unique hca]
      exact hl.repo_eq_some.mpr hga
    · rw [hrev, hc.unique hca]
      exact hl.repo_eq_some.mpr hg

end Csup.Rcs
