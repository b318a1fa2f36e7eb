import Csup.Rcs.Details
import Csup.Rcs.Look

/-!
# Damaged RCS files

`rcsparse` of a file that is opened for editing, and which files the parser survives. It does not
return where the file ends behind `branch`, and where there is no place for the delta of an
entry: the number is taken apart, and its branch point is looked up and looked into.

* `Grounded`: the entries that can be imported;
* `rcsparse_survives_iff`: the files that the parser survives, opened for reading and for editing.
-/

namespace Csup.Rcsparse

open Csup.Framework Csup.Keyword Csup.Lexer
open Csup.Rcs

/-- How the functions of the tree stop. -/
def stopOf : Fail → Stop
  | .error => .error
  | .undefined => .absent
  | .diverges => .spins

/-- `rcsfile_importdelta` of an entry -/
def importEntry (rf : RcsFile) (e : DeltaEntry) : Except Stop RcsFile :=
  (rf.importdelta e.revnum e.revdate e.author e.state e.next).mapError stopOf

/-- The log and the text of a delta, behind its number. -/
def parseText (d : Ptr) (rf : RcsFile) : Parser (RcsFile ⊕ RcsFile) := do
  let _ ← need (wantKw "log")
  let log ← need getString
  let tok ← need (skipPhrases "text" (← rcslexGet))
  if tok.isKw (bytes "text".toList) then
    let text ← need getString
    return .inl (rf.modify d fun d => { d with log := d.log ++ log, text := d.text ++ text })
  else throw .error

/-- One round of `parse_deltatexts`. A revision without a delta ends it. -/
def textRound (rf : RcsFile) : Parser (RcsFile ⊕ RcsFile) := do
  match ← getNum with
  | none =>
    if (← get).eof then return .inr rf else throw .error
  | some revnum =>
    match rf.getdelta revnum with
    | none => return .inr rf
    | some d => parseText d rf

/-- `parse_deltatexts` -/
def parseDeltatexts : RcsFile → Parser RcsFile := loop textRound

/-- `rcsparse(rf, path, 0)` -/
def rcsparseRw (content : List Byte) : Except Stop (Admin × RcsFile) :=
  rcsparse importEntry RcsFile.empty parseDeltatexts content

/-! ## The texts -/

theorem ends_parseText (d : Ptr) (rf : RcsFile) {lex : Rcslex} (hl : Mapped lex) :
    Scan.Ends (· = .error) (parseText d rf) lex fun _ lex' => Moves 0 lex lex' ∧ True := by
  refine (takes_rcslexWant _).ends (fun _ => takes_getString.ends fun log lex hl => ?_) lex hl
  refine (ends_get_held hl).bind fun tok lex' htok => ?_
  refine Scan.Ends.bind (P := fun _ lex'' => Moves 0 lex lex'') ?_ fun tok lex'' h => ?_
  · refine (ends_skipPhrases "text" htok.1.mapped htok.2.1).bind fun tok lex'' h => ?_
    match tok, h with
    | none, _ => exact Scan.ends_throw rfl
    | some tok, h => exact Scan.ends_pure (htok.1.trans h.1)
  · have hgoes : Goes 0 (if tok.isKw (bytes "text".toList) then do
        let text ← need getString
        return .inl (rf.modify d fun d => { d with log := d.log ++ log, text := d.text ++ text })
      else throw .error : Parser (RcsFile ⊕ RcsFile)) :=
      goes_ite (fun _ => takes_getString.andThen fun _ => goes_pure _) fun _ => goes_throw
    exact (hgoes lex'' h.mapped).mono fun _ _ h' => ⟨h.trans h', trivial⟩

/-- A round takes the number of a delta, at least. -/
theorem goes_parseDeltatexts (rf : RcsFile) : Goes 0 (parseDeltatexts rf) := by
  refine goes_loop (fun rf lex hl => ?_) rf
  refine (takes_getNum lex hl).bind fun num lex' hnum => ?_
  match num, hnum with
  | none, hnum =>
    show Scan.Ends (· = .error)
      (if lex'.eof then return .inr rf else throw .error : Parser (RcsFile ⊕ RcsFile)) lex' _
    split
    · exact Scan.ends_pure ⟨hnum.1, by simp⟩
    · exact Scan.ends_throw rfl
  | some revnum, hnum =>
    have hone := hnum.2 rfl
    dsimp only
    cases rf.getdelta revnum with
    | none => exact Scan.ends_pure ⟨hnum.1, fun _ _ => hone⟩
    | some d =>
      refine (ends_parseText d rf hone.mapped).mono fun _ lex'' h => ?_
      exact ⟨(hone.trans h.1).mono (Nat.zero_le _), fun _ _ => hone.trans h.1⟩

/-! ## The entries -/

/-- Every entry can be imported, where `known` is what is found in front of them. -/
def Grounded : (Revnum → Option Bool) → List DeltaEntry → Prop
  | _, [] => True
  | known, e :: es => Importable known e.revnum ∧ Grounded (lookImport known e.revnum e.next) es

theorem importEntry_ok {rf : RcsFile} (h : Inv rf []) {e : DeltaEntry}
    (himp : Importable rf.look e.revnum) : ∃ rf', importEntry rf e = .ok rf' ∧ Inv rf' [] ∧
      rf'.look = lookImport rf.look e.revnum e.next := by
  obtain ⟨rf', hrf', hinv, hlook⟩ :=
    (h.importdelta_eq e.revnum e.revdate e.author e.state e.next).1 himp
  refine ⟨rf', ?_, hinv, hlook⟩
  unfold importEntry
  rw [hrf']
  rfl

theorem importEntry_absent {rf : RcsFile} (h : Inv rf []) {e : DeltaEntry}
    (himp : ¬Importable rf.look e.revnum) : importEntry rf e = .error .absent := by
  unfold importEntry
  rw [(h.importdelta_eq e.revnum e.revdate e.author e.state e.next).2 himp]
  rfl

theorem foldlM_importEntry {rf : RcsFile} (h : Inv rf []) (es : List DeltaEntry) :
    (Grounded rf.look es → ∃ rf', es.foldlM importEntry rf = .ok rf') ∧
      (¬Grounded rf.look es → es.foldlM importEntry rf = .error .absent) := by
  induction es generalizing rf with
  | nil => exact ⟨fun _ => ⟨rf, rfl⟩, fun hno => absurd trivial hno⟩
  | cons e es ih =>
    rw [List.foldlM_cons]
    by_cases himp : Importable rf.look e.revnum
    · obtain ⟨rf', hrf', hinv, hlook⟩ := importEntry_ok h himp
      obtain ⟨hok, hbad⟩ := ih hinv
      rw [hlook] at hok hbad
      rw [hrf']
      exact ⟨fun hg => hok hg.2, fun hg => hbad fun hes => hg ⟨himp, hes⟩⟩
    · rw [importEntry_absent h himp]
      exact ⟨fun hg => absurd hg.1 himp, fun _ => rfl⟩

/-! ## The parser -/

/-- The file ends behind `head {num}; branch {num};`. -/
def CutShort (content : List Byte) : Prop :=
  ∃ lex, rcslexNew content = some lex ∧ BranchLast lex

/-- Every entry of the file can be imported into what the ones in front of it have left. -/
def AllGrounded (content : List Byte) : Prop :=
  ∀ adm es, fileParts content = some (adm, es) → Grounded (fun _ => none) es

theorem not_survives_absent {α : Type} : ¬Survives (.error .absent : Except Stop α) := by
  rintro (⟨v, h⟩ | h) <;> cases h

theorem Survives.map {α β : Type} {r : Except Stop α} (h : Survives r) (f : α → β) :
    Survives (r.map f) := by
  rcases h with ⟨v, rfl⟩ | rfl
  · exact .inl ⟨f v, rfl⟩
  · exact .inr rfl

theorem look_empty (head : Revnum) : (RcsFile.empty head).look = fun _ => none := rfl

theorem rcsparseRo_survives {content : List Byte} :
    Survives (rcsparseRo content) ↔ ¬CutShort content := by
  constructor
  · rintro h ⟨lex, hnew, hlast⟩
    unfold rcsparseRo at h
    rw [rcsparse_absent hnew hlast] at h
    exact not_survives_absent h
  · intro hno
    refine rcsparse_survives (fun lex hnew hlast => hno ⟨lex, hnew, hlast⟩) (fun adm es _ => ?_)
      fun table => goes_pure table
    exact ⟨es.foldl importdelta [], List.foldlM_pure⟩

theorem rcsparseRw_survives {content : List Byte} :
    Survives (rcsparseRw content) ↔ ¬CutShort content ∧ AllGrounded content := by
  constructor
  · intro h
    refine ⟨fun ⟨lex, hnew, hlast⟩ => ?_, fun adm es hparts => ?_⟩
    · unfold rcsparseRw at h
      rw [rcsparse_absent hnew hlast] at h
      exact not_survives_absent h
    · by_contra hno
      have hfold := (foldlM_importEntry (Inv.empty adm.head) es).2 (by rwa [look_empty])
      unfold rcsparseRw at h
      rw [rcsparse_of_error hparts hfold] at h
      exact not_survives_absent h
  · rintro ⟨hno, hall⟩
    refine rcsparse_survives (fun lex hnew hlast => hno ⟨lex, hnew, hlast⟩) (fun adm es hparts => ?_)
      goes_parseDeltatexts
    exact (foldlM_importEntry (Inv.empty adm.head) es).1 (hall adm es hparts)

/-- The files that the parser survives, opened for reading and for editing. -/
theorem rcsparse_survives_iff (content : List Byte) :
    (Survives (rcsparseRo content) ↔ ¬CutShort content) ∧
      (Survives (rcsparseRw content) ↔ ¬CutShort content ∧ AllGrounded content) :=
  ⟨rcsparseRo_survives, rcsparseRw_survives⟩

/-- There is nothing behind `branch`. -/
def cutFile : List Byte := bytes "head 1.2; branch 1;\n".toList

/-- A delta without its branch point. -/
def rootlessFile : List Byte :=
  bytes "head 1.2;access;symbols;locks;\n1.2.2.1 date 3;author a;state;branches;next;\ndesc @@\n".toList

theorem not_rcsparse_survives : ¬Survives (rcsparseRo cutFile) ∧ ¬Survives (rcsparseRw rootlessFile) := by
  have hro : rcsparseRo cutFile = .error .absent := by decide +kernel
  have hrw : (rcsparseRw rootlessFile).map (fun _ => ()) = .error .absent := by decide +kernel
  constructor
  · rw [hro]
    exact not_survives_absent
  · intro h
    have := h.map fun _ => ()
    rw [hrw] at this
    exact not_survives_absent this

end Csup.Rcsparse
