import Csup.Rcs.Order
import Csup.Updater.Rcsfile

/-!
# Edit commands that name unknown revisions

The three calls of `updater_rcsedit` that look up a revision or a tag, on a file
that was parsed and edited. The server names what it thinks the file has; where
the file lacks it the call is to fail and to leave the file as it is, so that a
fixup can be asked for.

* `addelta_of_place`, `addelta_undefined`: a new delta is added wherever there is
  a place for it, and its branch point is used without a test;
* `failsCleanly_iff`: the calls that fail as they should.
-/

namespace Csup.Updater

open Csup.Framework
open Csup.Rcs

/-! ## A file that was parsed -/

theorem inv_of_foldlM {rf rf' : RcsFile} (h : Inv rf []) {es : List DeltaEntry}
    (hok : es.foldlM Rcsparse.importEntry rf = .ok rf') : Inv rf' [] := by
  induction es generalizing rf with
  | nil =>
    obtain rfl := Except.ok.inj hok
    exact h
  | cons e es ih =>
    rw [List.foldlM_cons] at hok
    by_cases himp : Importable rf.look e.revnum
    · obtain ⟨rf1, hrf1, hi1, -⟩ := Rcsparse.importEntry_ok h himp
      rw [hrf1] at hok
      exact ih hi1 hok
    · have hnone := (h.importdelta_eq e.revnum e.revdate e.author e.state e.next).2 himp
      unfold Rcsparse.importEntry at hok
      rw [hnone] at hok
      cases hok

theorem returns_inv {rf : RcsFile} (h : Inv rf []) :
    Scan.Returns (Rcsparse.parseDeltatexts rf) fun rf => Inv rf [] := by
  refine Rcsparse.returns_loop (I := fun rf => Inv rf []) (fun rf h => ?_) h
  refine Scan.returns_bind _ fun num => ?_
  match num with
  | none =>
    exact Scan.returns_bind _ fun lex => Scan.returns_ite (Scan.returns_pure h) Scan.returns_throw
  | some revnum =>
    dsimp only
    cases rf.getdelta revnum with
    | none => exact Scan.returns_pure h
    | some d =>
      refine Scan.returns_bind _ fun _ => Scan.returns_bind _ fun log => ?_
      refine Scan.returns_bind _ fun tok => Scan.returns_bind _ fun tok =>
        Scan.returns_ite ?_ Scan.returns_throw
      exact Scan.returns_bind _ fun text =>
        Scan.returns_pure (h.modify (fun _ => rfl) (fun _ => rfl) fun _ => rfl)

theorem inv_of_rcsparse {content : List Byte} {adm : Rcsparse.Admin} {rf : RcsFile}
    (h : Rcsparse.rcsparseRw content = .ok (adm, rf)) : Inv rf [] := by
  obtain ⟨es, rf1, lex, lex', -, hfold, hrest⟩ := Rcsparse.rcsparse_ok h
  have hreturns : Scan.Returns (Rcsparse.parseRest Rcsparse.parseDeltatexts rf1)
      fun rf => Inv rf [] :=
    Scan.returns_bind _ fun _ => Scan.returns_bind _ fun _ =>
      returns_inv (inv_of_foldlM (Inv.empty adm.head) hfold)
  exact hreturns lex rf lex' hrest

theorem inv_of_edited {rf rf' : RcsFile} (h : Inv rf []) (hrun : Rcs.Edited rf rf') :
    Inv rf' [] := by
  induction hrun with
  | refl => exact h
  | step _ hallows hok ih => exact ih.edit hallows hok

/-! ## The calls -/

/-- The calls that look up a revision or a tag. -/
inductive Call
  | addelta (revnum revdate author diffbase : List Byte)
  | deleterev (revname : List Byte)
  | deletetag (tag revnum : List Byte)

variable (parse : Files → Path → Option Rcsfile) (print : Rcsfile → RcsDoc → List Byte)

/-- The file behind a call, and whether the call reports a failure: a call that
returns nothing reports none. -/
def Call.run (rf : Rcsfile) : Call → Except Fail (Rcsfile × Bool)
  | .addelta revnum revdate author diffbase => do
    let (rf, d) ← (rcsfile parse print).addelta rf revnum revdate author diffbase
    return (rf, d.isNone)
  | .deleterev revname => do
    let rf ← (rcsfile parse print).deleterev rf revname
    return (rf, false)
  | .deletetag tag revnum => .ok ((rcsfile parse print).deletetag tag revnum rf, false)

/-- The file has a delta of the number, not only a `next` that names it. -/
def Has (rf : Rcsfile) (revnum : Revnum) : Prop := rf.deltas.look revnum = some true

/-- There is a place for a delta of the number: the trunk, or its branch point. -/
def HasBranchpoint (rf : Rcsfile) (revnum : Revnum) : Prop :=
  HasPlace (fun r => if rf.deltas.look r = some true then some true else none) revnum

/-- A call that the file cannot serve. -/
def Call.Unknown (rf : Rcsfile) : Call → Prop
  | .addelta revnum _ _ diffbase =>
    Has rf revnum ∨ ¬HasBranchpoint rf revnum ∨ ¬Has rf diffbase ∧ rf.deltas.deltatable ≠ []
  | .deleterev revname => ¬Has rf revname
  | .deletetag tag revnum => (tag, revnum) ∉ rf.taglist

/-- A call that the file cannot serve leaves the file as it was, and a new delta is
reported as a failure. -/
def FailsCleanly (rf : Rcsfile) (c : Call) : Prop :=
  c.Unknown rf → ∃ failed, c.run parse print rf = .ok (rf, failed) ∧
    ∀ revnum revdate author diffbase, c = .addelta revnum revdate author diffbase → failed = true

/-- What a call is asked about is there, or `rcsfile_addelta` finds the revision in
the table. -/
def Call.Served (rf : Rcsfile) : Call → Prop
  | .addelta revnum _ _ diffbase =>
    (rf.deltas.look revnum).isSome ∨
      HasBranchpoint rf revnum ∧ (Has rf diffbase ∨ rf.deltas.deltatable = [])
  | .deleterev revname => Has rf revname
  | .deletetag _ _ => True

/-! ## New deltas -/

section Deltas

variable {rf : RcsFile} {revnum : Revnum} {revdate author diffbase : List Byte}

theorem look_eq_none : rf.look revnum = none ↔ rf.getdelta revnum = none := by
  rw [RcsFile.look, Option.map_eq_none_iff]

/-- Where there is a place for it a delta is added, whatever its diffbase. -/
theorem addelta_of_place (h : Inv rf []) (hnew : rf.look revnum = none)
    (hplace : HasPlace rf.look revnum) (revdate author diffbase : List Byte) :
    ∃ rf' d, rf.addelta revnum revdate author diffbase = .ok (rf', some d) := by
  have halloc := h.alloc { createdelta revnum with
    revdate := revdate, author := author, diffbase := rf.getdelta diffbase }
  obtain ⟨rf1, b, hfind⟩ := halloc.findbranch_isOk (by rwa [h.look_alloc])
  simp only [RcsFile.addelta, look_eq_none.mp hnew, bind, Except.bind, hfind]
  exact ⟨_, _, rfl⟩

/-- Where there is none, the branch point is used all the same. -/
theorem addelta_undefined (h : Inv rf []) (hnew : rf.look revnum = none)
    (hplace : ¬HasPlace rf.look revnum) :
    rf.addelta revnum revdate author diffbase = .error .undefined := by
  have hlook : ¬HasPlace (rf.alloc { createdelta revnum with
      revdate := revdate, author := author, diffbase := rf.getdelta diffbase }).look revnum := by
    rwa [h.look_alloc]
  have hfind := findbranch_undefined hlook
  simp only [RcsFile.addelta, look_eq_none.mp hnew, bind, Except.bind, hfind]

theorem addelta_known (hold : (rf.look revnum).isSome) :
    rf.addelta revnum revdate author diffbase = .ok (rf, none) := by
  rw [RcsFile.look, Option.isSome_map] at hold
  obtain ⟨p, hp⟩ := Option.isSome_iff_exists.mp hold
  simp only [RcsFile.addelta, hp]

/-- What is no delta is not deleted: there is none, or it is in no list. -/
theorem deleterev_undefined (h : Inv rf []) (hnone : rf.look revnum ≠ some true) :
    rf.deleterev revnum = .error .undefined := by
  rcases hget : rf.getdelta revnum with - | p
  · simp only [RcsFile.deleterev, hget]
  · obtain ⟨d, hd⟩ := Option.isSome_iff_exists.mp (h.live p (getdelta_some hget).1)
    have hph : d.placeholder = true := by
      rw [RcsFile.look, hget, Option.map_some, ne_eq, Option.some.injEq] at hnone
      simpa [RcsFile.real, hd] using hnone
    simp only [RcsFile.deleterev, hget, bind, Except.bind, deref_ok.mpr hd, hph, if_true]

end Deltas

theorem run_addelta (rf : Rcsfile) (revnum revdate author diffbase : List Byte) :
    (Call.addelta revnum revdate author diffbase).run parse print rf =
      (rf.deltas.addelta revnum revdate author diffbase).map fun r =>
        ({ rf with deltas := r.1 }, r.2.isNone) := by
  show (do
    let r ← (do
      let r ← rf.deltas.addelta revnum revdate author diffbase
      return ({ rf with deltas := r.1 }, r.2))
    return (r.1, r.2.isNone)) = _
  cases rf.deltas.addelta revnum revdate author diffbase <;> rfl

theorem run_deleterev (rf : Rcsfile) (revname : List Byte) :
    (Call.deleterev revname).run parse print rf =
      (rf.deltas.deleterev revname).map fun r => ({ rf with deltas := r }, false) := by
  show (do
    let rf' ← (do
      let deltas ← rf.deltas.deleterev revname
      return { rf with deltas })
    return (rf', false)) = _
  cases rf.deltas.deleterev revname <;> rfl

variable {parse print}

theorem failsCleanly_addelta {rf : Rcsfile} (h : Inv rf.deltas [])
    (revnum revdate author diffbase : List Byte) :
    FailsCleanly parse print rf (.addelta revnum revdate author diffbase) ↔
      (Call.addelta revnum revdate author diffbase).Served rf := by
  have hrun := run_addelta parse print rf revnum revdate author diffbase
  constructor
  · intro hclean
    by_contra hserved
    simp only [Call.Served, not_or, not_and] at hserved
    obtain ⟨hnone, hlack⟩ := hserved
    have hnew : rf.deltas.look revnum = none := by simpa using hnone
    have hunknown : (Call.addelta revnum revdate author diffbase).Unknown rf := by
      by_cases hbp : HasBranchpoint rf revnum
      · exact .inr (.inr (hlack hbp))
      · exact .inr (.inl hbp)
    obtain ⟨failed, hok, hfailed⟩ := hclean hunknown
    by_cases hplace : HasPlace rf.deltas.look revnum
    · obtain ⟨rf', d, hadd⟩ := addelta_of_place h hnew hplace revdate author diffbase
      rw [hrun, hadd] at hok
      obtain ⟨-, rfl⟩ := Prod.mk.inj (Except.ok.inj hok)
      exact absurd (hfailed _ _ _ _ rfl) (by simp)
    · rw [hrun, addelta_undefined h hnew hplace] at hok
      cases hok
  · intro hserved hunknown
    have hold : (rf.deltas.look revnum).isSome := by
      by_contra hnone
      rcases hserved with hold | ⟨hbp, hbase⟩
      · exact hnone hold
      · rcases hunknown with hhas | hlack | ⟨hlack, hne⟩
        · rw [Has] at hhas
          exact hnone (by rw [hhas]; rfl)
        · exact hlack hbp
        · exact hbase.elim hlack hne
    exact ⟨true, by rw [hrun, addelta_known hold]; rfl, fun _ _ _ _ _ => rfl⟩

theorem failsCleanly_deleterev {rf : Rcsfile} (h : Inv rf.deltas []) (revname : List Byte) :
    FailsCleanly parse print rf (.deleterev revname) ↔ Has rf revname := by
  constructor
  · intro hclean
    by_contra hnone
    obtain ⟨failed, hok, -⟩ := hclean hnone
    rw [run_deleterev, deleterev_undefined h hnone] at hok
    cases hok
  · exact fun hhas hnone => absurd hhas hnone

theorem failsCleanly_deletetag (rf : Rcsfile) (tag revnum : List Byte) :
    FailsCleanly parse print rf (.deletetag tag revnum) := by
  intro hnone
  refine ⟨false, ?_, fun _ _ _ _ h => by cases h⟩
  show Except.ok (rf.deletetag tag revnum, false) = _
  rw [Rcsfile.deletetag, List.erase_of_not_mem hnone]

/-- A call that the file cannot serve fails and leaves the file as it was if and only if
it is no deletion of a revision, and no delta that is new to the table and lacks its
branch point or its diffbase. -/
theorem failsCleanly_iff {content : List Byte} {adm : Rcsparse.Admin} {deltas : RcsFile}
    (h : Rcsparse.rcsparseRw content = .ok (adm, deltas)) {rf : Rcsfile}
    (hrun : Rcs.Edited deltas rf.deltas) (c : Call) :
    FailsCleanly parse print rf c ↔ c.Served rf := by
  have hi := inv_of_edited (inv_of_rcsparse h) hrun
  cases c with
  | addelta revnum revdate author diffbase => exact failsCleanly_addelta hi ..
  | deleterev revname => exact failsCleanly_deleterev hi revname
  | deletetag tag revnum => exact iff_of_true (failsCleanly_deletetag rf tag revnum) trivial

/-- On a file of two deltas: a tag that is not there is not deleted. -/
theorem failsCleanly_iff_twoDeltas : ∃ adm deltas,
    Rcsparse.rcsparseRw Rcsparse.twoDeltas = .ok (adm, deltas) ∧
      (FailsCleanly (fun _ _ => none) (fun _ _ => []) ⟨none, none, [], deltas⟩
          (.deletetag [97] [49]) ↔
        (Call.deletetag [97] [49]).Served ⟨none, none, [], deltas⟩) := by
  have hok : (Rcsparse.rcsparseRw Rcsparse.twoDeltas).map (fun _ => ()) = .ok () := by
    decide +kernel
  obtain ⟨⟨adm, deltas⟩, hparse, -⟩ := Rcsparse.map_eq_ok.mp hok
  have hrun : Rcs.Edited deltas (⟨none, none, [], deltas⟩ : Rcsfile).deltas := .refl
  exact ⟨adm, deltas, hparse, failsCleanly_iff hparse hrun _⟩

/-- Deleting a revision that it has not follows a null pointer. -/
theorem not_failsCleanly : ∃ adm deltas,
    Rcsparse.rcsparseRw Rcsparse.twoDeltas = .ok (adm, deltas) ∧
      ¬FailsCleanly (fun _ _ => none) (fun _ _ => []) ⟨none, none, [], deltas⟩
        (.deleterev (bytes "9.9".toList)) := by
  have hlook : (Rcsparse.rcsparseRw Rcsparse.twoDeltas).map
      (fun r => r.2.look (bytes "9.9".toList)) = .ok none := by decide +kernel
  obtain ⟨⟨adm, deltas⟩, hparse, hnone⟩ := Rcsparse.map_eq_ok.mp hlook
  refine ⟨adm, deltas, hparse, fun hclean => ?_⟩
  have hinv : Inv (⟨none, none, [], deltas⟩ : Rcsfile).deltas [] := inv_of_rcsparse hparse
  have hhas := (failsCleanly_deleterev hinv _).mp hclean
  have hnone : deltas.look (bytes "9.9".toList) = none := hnone
  rw [Has, hnone] at hhas
  cases hhas

end Csup.Updater
