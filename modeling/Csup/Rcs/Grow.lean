import Csup.Rcs.Content

/-!
# Editing a repository

What `rcsfile_addelta`, the functions that fill the new delta, and `rcsfile_deleterev` do to the
revisions that are held.

* `addelta_spec`: what is new behind `rcsfile_addelta`, and what is not;
* `Represents.addelta`: a revision is added, with the script that is put into its delta;
* `Represents.deleterev`: a revision is deleted.
-/

namespace Csup.Rcs

open Csup.Framework

variable {rf rf' : RcsFile} {s : Repo} {p q d : Ptr}

/-! ## What is not about the tree -/

/-- A delta without its branches. -/
def Delta.data (d : Delta) : Delta := { d with branchlist := [] }

def RcsFile.data (rf : RcsFile) (p : Ptr) : Option Delta := (rf.mem p).map Delta.data

theorem revnum_of_data (h : rf'.data p = rf.data q) : rf'.revnum p = rf.revnum q := by
  have := congrArg (fun o => (o.map Delta.revnum).getD []) h
  simpa [RcsFile.data, RcsFile.revnum, Function.comp_def, Delta.data] using this

theorem text_of_data (h : rf'.data p = rf.data q) : rf'.text p = rf.text q := by
  have := congrArg (fun o => (o.map Delta.text).getD []) h
  simpa [RcsFile.data, RcsFile.text, Function.comp_def, Delta.data] using this

theorem diffbase_of_data (h : rf'.data p = rf.data q) : rf'.diffbase p = rf.diffbase q := by
  have := congrArg (fun o => o.bind Delta.diffbase) h
  simpa [RcsFile.data, RcsFile.diffbase, Option.bind_map, Function.comp_def, Delta.data] using this

theorem real_of_data (h : rf'.data p = rf.data q) : rf'.real p = rf.real q := by
  have := congrArg (fun o => (o.map fun d => !d.placeholder).getD false) h
  simpa [RcsFile.data, RcsFile.real, Function.comp_def, Delta.data] using this

theorem data_alloc (dd : Delta) (hq : q ≠ rf.brk) : (rf.alloc dd).data q = rf.data q := by
  rw [RcsFile.data, alloc_mem hq, RcsFile.data]

theorem data_alloc_brk (dd : Delta) : (rf.alloc dd).data rf.brk = some dd.data := by
  rw [RcsFile.data, alloc_mem_brk, Option.map_some]

theorem data_modify_ne {f : Delta → Delta} (hq : q ≠ p) : (rf.modify p f).data q = rf.data q := by
  rw [RcsFile.data, modify_mem hq, RcsFile.data]

theorem modify_mem_self {f : Delta → Delta} : (rf.modify p f).mem p = (rf.mem p).map f := by
  simp [RcsFile.modify]

/-- A change of the branches. -/
theorem data_modify_branchlist {f : Delta → Delta} (hf : ∀ d, (f d).data = d.data) :
    (rf.modify p f).data q = rf.data q := by
  by_cases hq : q = p
  · subst hq
    rw [RcsFile.data, modify_mem_self, Option.map_map, RcsFile.data]
    exact congrArg (fun g => (rf.mem q).map g) (funext hf)
  · exact data_modify_ne hq

theorem data_remove (hq : q ≠ p) : (rf.remove p).data q = rf.data q := by
  rw [RcsFile.data, remove_mem hq, Option.map_map, RcsFile.data]
  rfl

/-- What `findbranch` does: a branch that is not there yet is created, without deltas. -/
theorem findbranch_frame {revnum : Revnum} {b : Option BranchRef}
    (h : rf.findbranch revnum = .ok (rf', b)) :
    (∀ q, rf'.data q = rf.data q) ∧ rf'.trunk = rf.trunk ∧ rf'.head = rf.head ∧
      ∀ q, ∀ b ∈ rf'.branches q, b ∈ rf.branches q ∨ some b.revnum = rcsrevPrefix revnum := by
  rw [RcsFile.findbranch] at h
  split at h
  · cases h
  · obtain ⟨rfl, -⟩ := Prod.mk.inj (Except.ok.inj h)
    exact ⟨fun _ => rfl, rfl, rfl, fun _ _ hb => .inl hb⟩
  · simp only [bind, Except.bind] at h
    split at h
    · cases h
    rename_i v hv
    obtain ⟨bprev, brev, p, d, hbp, hp, hd, rfl⟩ := getbranch_ok hv
    by_cases hany : d.branchlist.any (Branch.is brev) = true
    · rw [if_pos hany] at h
      obtain ⟨rfl, -⟩ := Prod.mk.inj (Except.ok.inj h)
      exact ⟨fun _ => rfl, rfl, rfl, fun _ _ hb => .inl hb⟩
    · rw [if_neg hany] at h
      simp only [hbp, hp] at h
      obtain ⟨rfl, -⟩ := Prod.mk.inj (Except.ok.inj h)
      refine ⟨fun q => data_modify_branchlist fun _ => rfl, rfl, rfl, fun q b hb => ?_⟩
      by_cases hq : q = p
      · subst hq
        rw [branches_modify_self (by rw [hd]; rfl)] at hb
        rcases List.mem_cons.mp ((insertBefore_perm _ _ _).mem_iff.mp hb) with rfl | hb
        · exact .inr (branchpoint_eq_ok.mp hbp).1.symm
        · exact .inl hb
      · exact .inl (branches_modify_ne hq _ ▸ hb)

theorem insertdelta_frame (rf : RcsFile) (b : BranchRef) (d : Ptr) (trunk : Bool) :
    (∀ q, (rf.insertdelta b d trunk).data q = rf.data q) ∧
      (rf.insertdelta b d trunk).head = rf.head ∧
      (rf.trunk ≠ [] → (rf.insertdelta b d trunk).trunk ≠ []) ∧
      ∀ q, ∀ b' ∈ (rf.insertdelta b d trunk).branches q, b' ∈ rf.branches q ∨ d ∈ b'.deltalist := by
  cases b with
  | trunk =>
    refine ⟨fun _ => rfl, rfl, fun _ hnil => ?_, fun _ _ hb => .inl hb⟩
    have := (insertdelta_perm rf trunk d rf.trunk).length_eq
    rw [show insertdelta rf trunk d rf.trunk = [] from hnil] at this
    cases this
  | ofDelta p brev =>
    refine ⟨fun _ => data_modify_branchlist fun _ => rfl, rfl, id, fun q b' hb' => ?_⟩
    by_cases hq : q = p
    · subst hq
      cases hmem : rf.mem q with
      | none => simp [RcsFile.insertdelta, RcsFile.branches, RcsFile.modify, hmem] at hb'
      | some dd =>
        rw [RcsFile.insertdelta, branches_modify_self (by rw [hmem]; rfl)
          (modifyFirst (Branch.is brev) _)] at hb'
        rcases mem_modifyFirst hb' with hb' | ⟨z, -, -, rfl⟩
        · exact .inl hb'
        · exact .inr ((insertdelta_perm rf trunk d _).mem_iff.mpr List.mem_cons_self)
    · exact .inl (branches_modify_ne hq _ ▸ hb')

/-- What is new behind `rcsfile_addelta`. -/
structure Added (rf rf' : RcsFile) (dd : Delta) : Prop where
  data : ∀ q, q ≠ rf.brk → rf'.data q = rf.data q
  new : rf'.data rf.brk = some dd
  head : rf'.head = rf.head
  table : ∀ q, q ∈ rf'.deltatable ↔ q = rf.brk ∨ q ∈ rf.deltatable
  trunk : rf.trunk ≠ [] → rf'.trunk ≠ []
  branches : ∀ q, ∀ b ∈ rf'.branches q,
    b ∈ rf.branches q ∨ some b.revnum = rcsrevPrefix dd.revnum ∨ rf.brk ∈ b.deltalist

theorem addelta_spec (hi : Inv rf []) {revnum : Revnum} (revdate author diffbase : List Byte)
    (hnew : rf.getdelta revnum = none) (hplace : HasPlace rf.look revnum) :
    ∃ rf', rf.addelta revnum revdate author diffbase = .ok (rf', some rf.brk) ∧
      Added rf rf' { createdelta revnum with
        revdate := revdate, author := author, diffbase := rf.getdelta diffbase } := by
  generalize hdd : ({ createdelta revnum with
    revdate := revdate, author := author, diffbase := rf.getdelta diffbase } : Delta) = dd
  have hdata : dd.data = dd := by rw [← hdd]; rfl
  have hrevnum : dd.revnum = revnum := by rw [← hdd]; rfl
  have hplace' : HasPlace (rf.alloc dd).look revnum := by rw [hi.look_alloc]; exact hplace
  obtain ⟨rf1, b, hfind⟩ := (hi.alloc dd).findbranch_isOk hplace'
  obtain ⟨hd1, ht1, hh1, hb1⟩ := findbranch_frame hfind
  obtain ⟨hd2, hh2, ht2, hb2⟩ := insertdelta_frame rf1 b rf.brk (rcsrevIstrunk revnum = some true)
  obtain ⟨-, hk, hv⟩ := (hi.alloc dd).findbranch hfind
  have htab : (rf1.insertdelta b rf.brk (rcsrevIstrunk revnum = some true)).deltatable =
      rf.deltatable := by
    cases b <;> exact hk.deltatable
  refine ⟨insertsorteddelta (rf1.insertdelta b rf.brk (rcsrevIstrunk revnum = some true)) rf.brk, ?_,
    fun q hq => ?_, ?_, ?_, fun q => ?_, fun h => ?_, fun q b' hb' => ?_⟩
  · simp only [RcsFile.addelta, hnew, hdd, bind, Except.bind, hfind]
    rfl
  · exact (hd2 q).trans ((hd1 q).trans (data_alloc dd hq))
  · exact (hd2 _).trans ((hd1 _).trans ((data_alloc_brk dd).trans (congrArg some hdata)))
  · exact hh2.trans hh1
  · rw [← htab]
    exact (insertBefore_perm _ _ _).mem_iff.trans List.mem_cons
  · exact ht2 (by rw [ht1]; exact h)
  · rcases hb2 q b' hb' with hb' | hb'
    · rcases hb1 q b' hb' with hb' | hb'
      · by_cases hq : q = rf.brk
        · rw [hq, (hi.fresh_alloc (by rw [← hdd]; rfl)).branches] at hb'
          cases hb'
        · refine .inl ?_
          rwa [RcsFile.branches, alloc_mem hq] at hb'
      · exact .inr (.inl (hrevnum.symm ▸ hb'))
    · exact .inr (.inr hb')

/-! ## Filling a delta -/

/-- A change of the texts and the state of a delta. -/
structure Fills (f : Delta → Delta) : Prop where
  revnum : ∀ d, (f d).revnum = d.revnum
  branchlist : ∀ d, (f d).branchlist = d.branchlist
  placeholder : ∀ d, (f d).placeholder = d.placeholder
  diffbase : ∀ d, (f d).diffbase = d.diffbase

theorem Fills.comp {f g : Delta → Delta} (hf : Fills f) (hg : Fills g) : Fills (g ∘ f) :=
  ⟨fun d => (hg.revnum _).trans (hf.revnum d), fun d => (hg.branchlist _).trans (hf.branchlist d),
    fun d => (hg.placeholder _).trans (hf.placeholder d),
    fun d => (hg.diffbase _).trans (hf.diffbase d)⟩

theorem modify_modify (f g : Delta → Delta) :
    (rf.modify p f).modify p g = rf.modify p (g ∘ f) := by
  simp only [RcsFile.modify]
  congr 1
  funext q
  by_cases hq : q = p
  · simp [hq]
  · simp [hq]

theorem modify_id : rf.modify p id = rf := by
  simp [RcsFile.modify]

theorem Fills.diffbase_eq {f : Delta → Delta} (hf : Fills f) (q : Ptr) :
    (rf.modify p f).diffbase q = rf.diffbase q := by
  by_cases hq : q = p
  · subst hq
    rw [RcsFile.diffbase, modify_mem_self, Option.bind_map, RcsFile.diffbase]
    exact congrArg (fun g => (rf.mem q).bind g) (funext hf.diffbase)
  · rw [RcsFile.diffbase, modify_mem hq, RcsFile.diffbase]

theorem text_modify_ne {f : Delta → Delta} (hq : q ≠ p) : (rf.modify p f).text q = rf.text q := by
  rw [RcsFile.text, modify_mem hq, RcsFile.text]

theorem members_modify {f : Delta → Delta} (hf : ∀ d, (f d).branchlist = d.branchlist) :
    (rf.modify p f).members = rf.members := by
  have hbr : (rf.modify p f).branchDeltas = rf.branchDeltas :=
    funext fun q => by rw [RcsFile.branchDeltas, modify_branches hf, RcsFile.branchDeltas]
  rw [RcsFile.members, hbr]
  rfl

theorem revs_congr (hmem : ∀ q, q ∈ rf'.members ↔ q ∈ rf.members)
    (hrev : ∀ q ∈ rf.members, rf'.revnum q = rf.revnum q) : rf'.revs = rf.revs := by
  ext r
  constructor
  · rintro ⟨q, hq, rfl⟩
    exact ⟨q, (hmem q).mp hq, (hrev q ((hmem q).mp hq)).symm⟩
  · rintro ⟨q, hq, rfl⟩
    exact ⟨q, (hmem q).mpr hq, hrev q hq⟩

/-- What a repository keeps of a delta that is not changed. -/
theorem Holds.congr {s' : Repo} (h : Holds rf s p) (hhead : rf'.head = rf.head)
    (hdiff : rf'.diffbase p = rf.diffbase p) (htext : rf'.text p = rf.text p)
    (hrev : rf'.revnum p = rf.revnum p) (hs : s' (rf.revnum p) = s (rf.revnum p))
    (hbase : ∀ b ∈ rf.members, rf.diffbase p = some b → b ∈ rf'.members ∧
      rf'.revnum b = rf.revnum b ∧ s' (rf.revnum b) = s (rf.revnum b)) : Holds rf' s' p := by
  cases h with
  | whole hb hh ht =>
    refine .whole (hdiff.trans hb) (by rw [hhead, hrev, hh]) ?_
    rw [hrev, hs, htext, ht]
  | script hb hlt hbm hbrev hscript ht =>
    obtain ⟨hbm', hbr, hsb⟩ := hbase _ hbm hb
    refine .script (hdiff.trans hb) hlt hbm' (by rw [hbr, hsb, hbrev]) (by rw [htext]; exact hscript) ?_
    rw [hrev, hs, ht, hbr]

/-- A number with a dot has a place, if its branch point is known. -/
theorem hasPlace_of_point {known : Revnum → Option Bool} {r : Revnum} (hr : 0 < r.count dot)
    (hpoint : ∀ a, revisions.point (revLine r) = some a → (known a).isSome) : HasPlace known r := by
  by_cases h1 : r.count dot = 1
  · exact .inl (rcsrevIstrunk_eq_true.mpr h1)
  · have htrunk : rcsrevIstrunk r = some false := by
      rw [rcsrevIstrunk_eq, if_neg (by omega), decide_eq_false h1]
    obtain ⟨bprev, brev, hbp⟩ := branchpoint_isOk htrunk
    obtain ⟨hbrev, hbprev⟩ := branchpoint_eq_ok.mp hbp
    refine .inr ⟨htrunk, bprev, brev, hbp, hpoint bprev ?_⟩
    show (revLine r).bind rcsrevPrefix = _
    rw [(revLine_eq_some hr).mpr ⟨h1, hbrev⟩]
    exact hbprev

namespace Represents

section

variable (h : Represents rf s)

include h

theorem exists_ptr {r : Revnum} (hr : r ∈ s.dom) :
    ∃ p ∈ rf.members, rf.revnum p = r ∧ rf.getdelta r = some p := by
  rw [h.dom] at hr
  obtain ⟨p, hp, rfl⟩ := hr
  cases hget : rf.getdelta (rf.revnum p) with
  | none =>
    exact absurd rfl (h.inv.revnum_ne_of_getdelta hget p (h.mem_members.mp hp))
  | some q =>
    obtain rfl := h.revnum_inj (h.mem_members.mpr (getdelta_some hget).1) hp (getdelta_revnum hget)
    exact ⟨q, hp, rfl, rfl⟩

theorem getdelta_eq_none {r : Revnum} (hr : r ∉ s.dom) : rf.getdelta r = none := by
  by_contra hne
  obtain ⟨p, hp⟩ := Option.ne_none_iff_exists'.mp hne
  refine hr (h.dom ▸ ⟨p, h.mem_members.mpr (getdelta_some hp).1, getdelta_revnum hp⟩)

theorem hasPlace {b r : Revnum} (hx : s.Extends b r) : HasPlace rf.look r := by
  refine hasPlace_of_point hx.numbered fun a ha => ?_
  have hmem := h.sound.grounded.insert hx.base hx.follows r (Set.mem_insert _ _) a ha
  have hne : a ≠ r := fun heq => revisions.point_ne r (heq ▸ ha)
  obtain ⟨p, -, -, hp⟩ := h.exists_ptr ((Set.mem_insert_iff.mp hmem).resolve_left hne)
  rw [RcsFile.look, hp]
  rfl

/-- A revision is added: the new delta is in the tree, and what is put into it is a script for its
diffbase. -/
theorem addelta {r b : Revnum} (revdate author : List Byte) (hx : s.Extends b r) {rev : Rev}
    (hb : s b = some rev) : ∃ rf', rf.addelta r revdate author b = .ok (rf', some rf.brk) ∧
      rf'.data rf.brk = some { createdelta r with
        revdate := revdate, author := author, diffbase := rf.getdelta b } ∧
      (∀ q ∈ rf'.deltatable, q ≠ rf.brk → q ∈ rf.deltatable ∧ rf'.data q = rf.data q) ∧
      ∀ f text, Fills f → IsScript rev.text ((rf'.modify rf.brk f).text rf.brk) text →
        Represents (rf'.modify rf.brk f) (s.commit r b text) := by
  obtain ⟨rf', hok, hadd⟩ := addelta_spec h.inv revdate author b (h.getdelta_eq_none hx.new)
    (h.hasPlace hx)
  refine ⟨rf', hok, hadd.new, fun q hq hne => ⟨((hadd.table q).mp hq).resolve_left hne,
    hadd.data q hne⟩, fun f text hf hs => ?_⟩
  have hi' := h.inv.addelta hok
  have hs' := h.sorted.addelta h.inv hok
  obtain ⟨pb, hpb, hpbrev, hpbget⟩ := h.exists_ptr hx.base
  have hold {q : Ptr} (hq : q ∈ rf.members) : q ≠ rf.brk := h.inv.ne_brk (h.inv.mem_live hq)
  have hreal : ∀ q ∈ rf'.deltatable, rf'.real q = true := fun q hq => by
    rcases (hadd.table q).mp hq with rfl | hq
    · obtain ⟨dd, hdd, hdata⟩ := Option.map_eq_some_iff.mp hadd.new
      have := congrArg Delta.placeholder hdata
      simp only [RcsFile.real, hdd, Option.map_some, Option.getD_some]
      rw [show dd.placeholder = false from this]
      rfl
    · rw [real_of_data (hadd.data q (hold (h.mem_members.mpr hq)))]
      exact h.real q hq
  have hmem' {q : Ptr} : q ∈ rf'.members ↔ q = rf.brk ∨ q ∈ rf.members := by
    rw [hi'.mem_members, h.mem_members, ← hadd.table]
    exact ⟨And.left, fun hq => ⟨hq, hreal q hq⟩⟩
  have hrev {q : Ptr} (hq : q ∈ rf.members) : rf'.revnum q = rf.revnum q :=
    revnum_of_data (hadd.data q (hold hq))
  have hrevd : rf'.revnum rf.brk = r := by
    obtain ⟨dd, hdd, hdata⟩ := Option.map_eq_some_iff.mp hadd.new
    have := congrArg Delta.revnum hdata
    simpa [RcsFile.revnum, hdd, Delta.data, createdelta] using this
  have hrevs : rf'.revs = insert r rf.revs := by
    ext x
    constructor
    · rintro ⟨q, hq, rfl⟩
      rcases hmem'.mp hq with rfl | hq
      · exact .inl hrevd
      · exact .inr ⟨q, hq, (hrev hq).symm⟩
    · rintro (rfl | ⟨q, hq, rfl⟩)
      · exact ⟨rf.brk, hmem'.mpr (.inl rfl), hrevd⟩
      · exact ⟨q, hmem'.mpr (.inr hq), hrev hq⟩
  have hmemf : (rf'.modify rf.brk f).members = rf'.members := members_modify hf.branchlist
  have hrevf (q : Ptr) : (rf'.modify rf.brk f).revnum q = rf'.revnum q := modify_revnum hf.revnum
  have hne : b ≠ r := fun heq => hx.new (heq ▸ hx.base)
  refine ⟨hi'.modify hf.revnum hf.branchlist hf.placeholder, hs'.modify hi' hf.revnum hf.branchlist,
    fun q hq => ?_, fun q hq b' hb' => ?_, hadd.trunk h.rooted, ?_, h.sound.commit hx,
    fun q hq => ?_⟩
  · rw [modify_real hf.placeholder]
    exact hreal q hq
  · rw [modify_branches hf.branchlist] at hb'
    rcases hadd.branches q b' hb' with hold' | hnum | hbrk
    · rcases (hadd.table q).mp hq with rfl | hq
      · have hnone : rf.mem rf.brk = none := by
          by_contra hsome
          exact Nat.lt_irrefl _ (h.inv.fresh _ (Option.isSome_iff_ne_none.mpr hsome))
        simp [RcsFile.branches, hnone] at hold'
      · exact h.filled q hq b' hold'
    · -- the new delta is on the branch with its prefix
      have hnum : rcsrevPrefix r = some b'.revnum := hnum.symm
      have hcount := count_of_rcsrevPrefix hnum
      have hcount' := count_of_rcsrevPrefix ((hs'.branches q hq).branchNum b' hb')
      have hline : revLine r = some b'.revnum :=
        (revLine_eq_some hx.numbered).mpr ⟨by omega, hnum⟩
      obtain ⟨y, hy, -⟩ := (hs'.lists_branch hq hb').all r (hrevs ▸ Set.mem_insert _ _) hline
      exact List.ne_nil_of_mem hy
    · exact List.ne_nil_of_mem hbrk
  · rw [Repo.dom_commit, h.dom, ← hrevs]
    exact (revs_congr (fun q => by rw [hmemf]) fun q _ => hrevf q).symm
  · rw [hmemf] at hq
    rcases hmem'.mp hq with rfl | hq
    · have hdiff : (rf'.modify rf.brk f).diffbase rf.brk = some pb := by
        rw [hf.diffbase_eq, ← hpbget]
        obtain ⟨dd, hdd, hdata⟩ := Option.map_eq_some_iff.mp hadd.new
        have := congrArg Delta.diffbase hdata
        simpa [RcsFile.diffbase, hdd, Delta.data] using this
      have hpbrev' : (rf'.modify rf.brk f).revnum pb = b := by rw [hrevf, hrev hpb, hpbrev]
      refine .script hdiff (h.inv.fresh pb (h.inv.mem_live hpb)) ?_ ?_ hs ?_
      · rw [hmemf]
        exact hmem'.mpr (.inr hpb)
      · rw [hpbrev', Repo.commit, Function.update_of_ne hne, hb]
      · rw [hrevf, hrevd, hpbrev', Repo.commit, Function.update_self]
    · have hq' := hold hq
      have hsame {x : Ptr} (hx' : x ∈ rf.members) :
          s.commit r b text (rf.revnum x) = s (rf.revnum x) :=
        Function.update_of_ne (fun heq => hx.new (by rw [h.dom, ← heq]; exact mem_revs hx')) _ _
      refine (h.holds q hq).congr hadd.head ?_ ?_ ?_ (hsame hq) fun x hxm _ => ⟨?_, ?_, hsame hxm⟩
      · rw [hf.diffbase_eq]
        exact diffbase_of_data (hadd.data q hq')
      · rw [text_modify_ne hq']
        exact text_of_data (hadd.data q hq')
      · rw [hrevf, hrev hq]
      · rw [hmemf]
        exact hmem'.mpr (.inr hxm)
      · rw [hrevf, hrev hxm]

/-- A revision is deleted. -/
theorem deleterev {r : Revnum} (hx : s.Spares r) :
    ∃ rf', rf.deleterev r = .ok rf' ∧ Represents rf' (s.remove r) ∧
      ∀ q ∈ rf'.deltatable, q ∈ rf.deltatable ∧ rf'.data q = rf.data q := by
  obtain ⟨p, hp, hprev, hget⟩ := h.exists_ptr hx.mem
  have hpt := h.mem_members.mp hp
  obtain ⟨dd, hdd⟩ := Option.isSome_iff_exists.mp (h.inv.live p hpt)
  have hph : dd.placeholder = false := by
    have := h.real p hpt
    simpa [RcsFile.real, hdd] using this
  have htab {q : Ptr} : q ∈ (rf.remove p).deltatable ↔ q ≠ p ∧ q ∈ rf.deltatable :=
    h.inv.nodup.mem_erase_iff
  refine ⟨rf.remove p, ?_, ?_, fun q hq => ⟨(htab.mp hq).2, data_remove (htab.mp hq).1⟩⟩
  · simp only [RcsFile.deleterev, hget, bind, Except.bind, deref_ok.mpr hdd, hph, Bool.false_eq_true,
      if_false]
    rfl
  have hno : rf.branchDeltas p = [] := by
    by_contra hne
    obtain ⟨x, hxb⟩ := List.exists_mem_of_ne_nil _ hne
    obtain ⟨b, hb, hxb⟩ := List.mem_flatMap.mp hxb
    refine hx.branchless (rf.revnum x) (h.dom ▸ mem_revs (mem_members_of_branch hpt hb hxb)) ?_
    show (revLine (rf.revnum x)).bind rcsrevPrefix = _
    rw [h.sorted.revLine_branch hpt hb hxb, ← hprev]
    exact (h.sorted.branches p hpt).branchNum b hb
  have hi' := h.inv.remove hno
  have hs' := h.sorted.remove h.inv p
  have hreal : ∀ q ∈ (rf.remove p).deltatable, (rf.remove p).real q = true := fun q hq => by
    obtain ⟨hqp, hq⟩ := htab.mp hq
    rw [remove_real hqp]
    exact h.real q hq
  have hmem' {q : Ptr} : q ∈ (rf.remove p).members ↔ q ≠ p ∧ q ∈ rf.members := by
    rw [hi'.mem_members, h.mem_members, ← htab]
    exact ⟨And.left, fun hq => ⟨hq, hreal q hq⟩⟩
  have hrevne {q : Ptr} (hq : q ∈ rf.members) (hqp : q ≠ p) : rf.revnum q ≠ r := fun heq =>
    hqp (h.revnum_inj hq hp (heq.trans hprev.symm))
  -- what else is on the line of the revision
  obtain ⟨x, hxd, hxr, hxline⟩ := hx.other
  rw [h.dom] at hxd
  have hother {l : List Ptr} {i : Option Revnum} (hl : revisions.Lists rf.revs rf.revnum l i)
      (hlne : l ≠ []) : l.erase p ≠ [] := by
    by_cases hpl : p ∈ l
    · have hi : revLine x = i := by rw [hxline, ← hprev]; exact (hl.mem p hpl).2
      obtain ⟨y, hy, rfl⟩ := hl.all x hxd hi
      have hyp : y ≠ p := fun heq => hxr (by rw [heq, hprev])
      exact List.ne_nil_of_mem ((List.mem_erase_of_ne hyp).mpr hy)
    · rwa [List.erase_of_not_mem hpl]
  refine ⟨hi', hs', hreal, fun q hq b hb => ?_, hother h.sorted.lists_trunk h.rooted, ?_,
    h.sound.remove hx, fun q hq => ?_⟩
  · obtain ⟨hqp, hq⟩ := htab.mp hq
    rw [remove_branches hqp] at hb
    obtain ⟨b, hbq, rfl⟩ := List.mem_map.mp hb
    exact hother (h.sorted.lists_branch hq hbq) (h.filled q hq b hbq)
  · rw [Repo.dom_remove, h.dom]
    ext y
    constructor
    · rintro ⟨⟨q, hq, rfl⟩, hne⟩
      have hqp : q ≠ p := fun heq => hne (by rw [heq, hprev]; rfl)
      exact ⟨q, hmem'.mpr ⟨hqp, hq⟩, remove_revnum hqp⟩
    · rintro ⟨q, hq, rfl⟩
      obtain ⟨hqp, hq⟩ := hmem'.mp hq
      rw [remove_revnum hqp]
      exact ⟨mem_revs hq, hrevne hq hqp⟩
  · obtain ⟨hqp, hqm⟩ := hmem'.mp hq
    have hdata : (rf.remove p).data q = rf.data q := data_remove hqp
    have hsame {x : Ptr} (hxm : x ∈ rf.members) (hxp : x ≠ p) :
        s.remove r (rf.revnum x) = s (rf.revnum x) := Function.update_of_ne (hrevne hxm hxp) _ _
    refine (h.holds q hqm).congr rfl (diffbase_of_data hdata) (text_of_data hdata) (remove_revnum hqp)
      (hsame hqm hqp) fun b hb hbase => ?_
    have hbp : b ≠ p := by
      rintro rfl
      refine hx.free (rf.revnum q) (h.dom ▸ mem_revs hqm) ?_
      cases h.holds q hqm with
      | whole hnone => cases hnone.symm.trans hbase
      | script hb' _ _ _ _ htext =>
        obtain rfl := Option.some.inj (hb'.symm.trans hbase)
        rw [Repo.base, htext, ← hprev]
        rfl
    exact ⟨hmem'.mpr ⟨hbp, hb⟩, remove_revnum hbp, hsame hb hbp⟩

end

end Represents

end Csup.Rcs
