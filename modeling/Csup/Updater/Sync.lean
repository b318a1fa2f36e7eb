import Csup.Updater.Block
import Csup.Updater.Rcsfile

/-!
# Staying in sync

When `updater_rcsedit` returns 0, the next line of the stream should be the one
behind the block.

* `rcsedit_synced_iff`: it is, unless the RCS file is invalid and the block has
  a delta: the loop that skips the rest of the block stops at the first `.`,
  which is that of a delta or of a part of one;
* `not_synced`: it is not for an invalid file and a delta without parts.
-/

namespace Csup.Updater

open Csup.Diff (Line)
open Csup.Proto

/-! ## Skipping -/

/-- The first `.` is the one behind `xs` when there is none in `xs`. -/
theorem skipLines_append {xs rest r : List Line} (h : skipLines (xs ++ dotLine :: rest) = some r) :
    r = rest ↔ ∀ x ∈ xs, cline x ≠ [46] := by
  induction xs with
  | nil =>
    rw [List.nil_append, skipLines, if_pos (by decide)] at h
    simpa using (Option.some.inj h).symm
  | cons x xs ih =>
    rw [List.cons_append, skipLines] at h
    by_cases hx : cline x = [46]
    · rw [if_pos hx] at h
      have hlen : r.length = xs.length + (rest.length + 1) := by
        rw [← Option.some.inj h]
        simp
      constructor
      · intro heq
        rw [heq] at hlen
        omega
      · intro hall
        exact absurd hx (hall x (by simp))
    · rw [if_neg hx] at h
      rw [ih h]
      simp [hx]

theorem exists_skipLines (xs rest : List Line) : ∃ r, skipLines (xs ++ dotLine :: rest) = some r := by
  induction xs with
  | nil => exact ⟨rest, rfl⟩
  | cons x xs ih =>
    rw [List.cons_append, skipLines]
    split
    · exact ⟨_, rfl⟩
    · exact ih

/-- The line of a command is no `.`. -/
theorem cline_letter_ne (c : BlockCmd) : cline (fieldLine c.letter c.fields) ≠ [46] := by
  rw [cline_fieldLine c.letter_ne.1]
  intro h
  exact c.letter_ne.2.2.1 (List.cons.inj h).1

/-- Only a delta has lines behind the line of its command, and the last of them
is a `.`. -/
theorem wireParts_dot_iff (c : BlockCmd) :
    (∀ x ∈ c.wireParts, cline x ≠ [46]) ↔ c.isDelta = false := by
  cases c with
  | delta revnum diffbase revdate author parts =>
    constructor
    · intro h
      exact absurd (by decide) (h dotLine (by simp [BlockCmd.wireParts]))
    · intro h
      cases h
  | _ => simp [BlockCmd.wireParts, BlockCmd.isDelta]

theorem wire_dot_iff (c : BlockCmd) : (∀ x ∈ c.wire, cline x ≠ [46]) ↔ c.isDelta = false := by
  rw [BlockCmd.wire, List.forall_mem_cons, wireParts_dot_iff, and_iff_right (cline_letter_ne c)]

theorem flatMap_wire_dot_iff (cmds : List BlockCmd) :
    (∀ x ∈ cmds.flatMap BlockCmd.wire, cline x ≠ [46]) ↔ ∀ c ∈ cmds, c.isDelta = false := by
  constructor
  · intro h c hc
    exact (wire_dot_iff c).mp fun x hx => h x (List.mem_flatMap.mpr ⟨c, hc, hx⟩)
  · intro h x hx
    obtain ⟨c, hc, hxc⟩ := List.mem_flatMap.mp hx
    exact (wire_dot_iff c).mpr (h c hc) x hxc

/-! ## The loop -/

section

variable {F D : Type} {api : RcsApi F D} {openrcs : Option F} {exactrcs : Bool}

/-- The lines left when the loop is done. -/
def Edited.rest : Edited F → List Line
  | .done _ rest => rest
  | .invalid rest => rest

/-- Each command is a line or more. -/
theorem length_lt_block (cmds : List BlockCmd) (rest : List Line) :
    cmds.length < (block cmds ++ rest).length := by
  have hle : cmds.length ≤ (cmds.flatMap BlockCmd.wire).length := by
    induction cmds with
    | nil => exact Nat.le_refl 0
    | cons c cmds ih =>
      rw [List.flatMap_cons, List.length_append, List.length_cons, BlockCmd.wire, List.length_cons]
      omega
  rw [block, List.length_append, List.length_append, List.length_singleton]
  omega

/-- The loop on a block when the file opens. -/
theorem editLoop_open {f : F} (c : BlockCmd) (cmds : List BlockCmd) (rest : List Line) :
    editLoop api (some f) exactrcs (block (c :: cmds) ++ rest).length none
        (block (c :: cmds) ++ rest) =
      (applyCmds api f (c :: cmds)).map fun f => .done (some f) rest := by
  rw [← editLoop_block api (some f) exactrcs f (c :: cmds) rest (length_lt_block _ _)]
  obtain ⟨fuel, hfuel⟩ := Nat.exists_eq_add_one_of_ne_zero
    (Nat.ne_of_gt (Nat.zero_lt_of_lt (length_lt_block (c :: cmds) rest)))
  have hblock : block (c :: cmds) ++ rest = c.wire ++ (block cmds ++ rest) := by simp [block]
  rw [hfuel, hblock, editLoop_wire, editLoop_wire]
  rfl

/-- The loop on a block when the file is invalid. -/
theorem editLoop_invalid (api : RcsApi F D) (exactrcs : Bool) (c : BlockCmd) (cmds : List BlockCmd) (rest : List Line) :
    ∃ r, (r = rest ↔ ∀ c' ∈ c :: cmds, c'.isDelta = false) ∧
      editLoop api none exactrcs (block (c :: cmds) ++ rest).length none
          (block (c :: cmds) ++ rest) =
        if !exactrcs then .error .msg else .ok (.invalid r) := by
  obtain ⟨fuel, hfuel⟩ := Nat.exists_eq_add_one_of_ne_zero
    (Nat.ne_of_gt (Nat.zero_lt_of_lt (length_lt_block (c :: cmds) rest)))
  have hblock : block (c :: cmds) ++ rest = c.wire ++ (block cmds ++ rest) := by simp [block]
  have hrest : c.wireParts ++ (block cmds ++ rest) =
      (c.wireParts ++ cmds.flatMap BlockCmd.wire) ++ dotLine :: rest := by simp [block]
  obtain ⟨r, hr⟩ := exists_skipLines (c.wireParts ++ cmds.flatMap BlockCmd.wire) rest
  refine ⟨r, ?_, ?_⟩
  · rw [skipLines_append hr, List.forall_mem_append, wireParts_dot_iff, flatMap_wire_dot_iff,
      List.forall_mem_cons]
  · rw [hfuel, hblock, editLoop_wire, hrest, hr]
    rfl

/-- Where the loop stops. -/
theorem editLoop_synced_iff {cmds : List BlockCmd} {rest : List Line} {e : Edited F}
    (h : editLoop api openrcs exactrcs (block cmds ++ rest).length none (block cmds ++ rest) =
      .ok e) :
    e.rest = rest ↔ openrcs.isSome ∨ ∀ c ∈ cmds, c.isDelta = false := by
  cases cmds with
  | nil =>
    have : e = .done none rest := by
      simpa [block, editLoop_dotLine] using h.symm
    simp [this, Edited.rest]
  | cons c cmds =>
    cases openrcs with
    | some f =>
      rw [editLoop_open] at h
      cases ha : applyCmds api f (c :: cmds) with
      | error err => rw [ha] at h; cases h
      | ok f' =>
        rw [ha] at h
        obtain rfl := Except.ok.inj h
        simp [Edited.rest]
    | none =>
      obtain ⟨r, hr, hloop⟩ := editLoop_invalid api exactrcs c cmds rest
      rw [hloop] at h
      cases exactrcs with
      | false => cases h
      | true =>
        obtain rfl := Except.ok.inj h
        simpa [Edited.rest] using hr

end

/-! ## `updater_rcsedit` -/

section

variable {F D : Type} {api : RcsApi F D} {md5 : List Byte → List Byte} {sys : Sys} {coll : Coll}
  {fup : FileUpdate} {fs : Files} {lines : List Line} {out : Out}

/-- What `updater_rcsedit` has done when it returns 0. -/
theorem rcsedit_cases (h : rcsedit api md5 sys coll fup fs lines = .ok out) :
    ∃ old e, fattrFrompath fs fup.path = some old ∧
      editLoop api (api.frompath fs fup.path) coll.exactrcs lines.length none lines = .ok e ∧
      out.rest = e.rest ∧
      match e with
      | .invalid _ => out.files = (needfixup sys coll fup fs).1
      | .done none _ => touch sys fup (fup.serverattr.merge old) fs = .ok out.files
      | .done (some f) _ =>
        install api md5 sys coll fup (fup.serverattr.merge old) f fs = .ok (out.files, out.fixup) := by
  rw [rcsedit] at h
  split at h
  · cases h
  · split at h
    · cases h
    · rename_i old hold
      simp only [bind, Except.bind] at h
      split at h
      · cases h
      · rename_i e he
        refine ⟨old, e, hold, he, ?_⟩
        split at h
        · obtain rfl := Except.ok.inj h
          exact ⟨rfl, rfl⟩
        · split at h
          · cases h
          · rename_i fs' hfs
            obtain rfl := Except.ok.inj h
            exact ⟨rfl, hfs⟩
        · split at h
          · cases h
          · rename_i r hr
            obtain rfl := Except.ok.inj h
            exact ⟨rfl, hr⟩

/-- When the stream is behind the block. -/
theorem rcsedit_synced_iff {cmds : List BlockCmd} {rest : List Line}
    (h : rcsedit api md5 sys coll fup fs (block cmds ++ rest) = .ok out) :
    out.rest = rest ↔
      (api.frompath fs fup.path).isSome ∨ ∀ c ∈ cmds, c.isDelta = false := by
  obtain ⟨old, e, -, he, hrest, -⟩ := rcsedit_cases h
  rw [hrest]
  exact editLoop_synced_iff he

end

/-! ## An invalid file -/

/-- Every system call succeeds. -/
def Sys.allOk : Sys := ⟨true, true, fun _ => true, fun _ => true, fun _ => true, true, true⟩

/-- The update of `p/f` in place. -/
def inPlace : FileUpdate where
  destpath := bytes ['p', '/', 'f']
  origpath := none
  temppath := bytes ['p', '/', '#']
  wantmd5 := []
  serverattr := ⟨.file, none⟩
  isfixup := false
  orig_ne := by simp
  temp_ne := ⟨by decide, by simp⟩

/-- `p/f` is no RCS file. -/
def garbage : Files := fun p => if p = bytes ['p', '/', 'f'] then some (.file (bytes ['x'])) else none

def field11 : Field := ⟨bytes ['1', '.', '1'], by decide, by decide, by decide, by decide⟩

/-- `x` is rejected by `rcsparse`. -/
def rejecting : RcsApi Rcsfile Rcs.Ptr := rcsfile (fun _ _ => none) fun _ _ => []

theorem rcsedit_synced_iff_untag :
    ∃ out, rcsedit rejecting id Sys.allOk ⟨true, false⟩ inPlace garbage
        (block [.untag field11 field11] ++ [dotLine]) = .ok out ∧
      (out.rest = [dotLine] ↔ (rejecting.frompath garbage inPlace.path).isSome ∨
        ∀ c ∈ [BlockCmd.untag field11 field11], c.isDelta = false) := by
  have h : rcsedit rejecting id Sys.allOk ⟨true, false⟩ inPlace garbage
      (block [.untag field11 field11] ++ [dotLine]) =
        .ok ⟨(needfixup Sys.allOk ⟨true, false⟩ inPlace garbage).1, [dotLine], true⟩ := rfl
  exact ⟨_, h, rcsedit_synced_iff h⟩

/-- A block of one delta, and the collection ends behind it: the line that ends
the block is left, too. -/
theorem not_synced :
    ∃ out, rcsedit rejecting id Sys.allOk ⟨true, false⟩ inPlace garbage
        (block [.delta field11 field11 field11 field11 []] ++ [dotLine]) = .ok out ∧
      out.rest = [dotLine, dotLine] ∧ out.rest ≠ [dotLine] :=
  ⟨_, rfl, rfl, by decide⟩

end Csup.Updater
