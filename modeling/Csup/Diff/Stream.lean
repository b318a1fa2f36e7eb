import Csup.Diff.Script

/-!
# `diff_apply` in the middle of a stream

The script of `diff_apply` is a part of a longer stream, and its destination a
file that is read again later: `diffApplyOn` is the call with what it leaves of
both. `applyLoop_eq_applyOn` says that the loop is that of `diff_apply`, and
`diffApplyOn_script` what the call does where the script stands in front of
other lines and the file is new.
-/

namespace Csup.Diff

open Csup.Framework

/-! ## Files -/

/-- An open file and its offset. -/
structure File where
  data : List Byte
  off : Nat

/-- A file that was created or truncated. -/
def File.empty : File := ⟨[], 0⟩

/-- `write`: behind the end of the file, NUL bytes come first. -/
def File.write (f : File) (bs : List Byte) : File :=
  if bs = [] then f
  else ⟨(f.data ++ List.replicate (f.off - f.data.length) 0).take f.off ++ bs ++
    f.data.drop (f.off + bs.length), f.off + bs.length⟩

/-- `stream_truncate_rel` by `-n`, on a stream that was flushed. -/
def File.truncateRel (f : File) (n : Nat) : Option File :=
  if f.data.length < n then none
  else some { f with data := f.data.take (f.data.length - n) }

theorem File.write_empty (bs : List Byte) : File.empty.write bs = ⟨bs, bs.length⟩ := by
  rw [File.write]
  split
  · rename_i h
    subst h
    rfl
  · simp [File.empty]

/-! ## The call -/

/-- `applyLoop` with the lines of the stream that it leaves. -/
def applyOn (exp : Expander) (comode : Bool) :
    List Line → Nat → ApplySt → Option (Option Line × List Line × ApplySt)
  | [], 0, st => some (none, [], st)
  | [], _ + 1, _ => none
  | l :: rd, pending + 1, st =>
    applyOn exp comode rd pending
      { st with cur := { st.cur with dest := diffWrite exp st.cur.dest (addedLine comode l) } }
  | l :: rd, 0, st =>
    let line := cline l
    if line = [46] ∨ line = [46, 43] then some (some line, rd, st)
    else if line = [] then
      if st.empty then none else applyOn exp comode rd 0 { st with empty := true }
    else match diffGeteditcmd st.ec line with
      | none => none
      | some ec => match ec.cmd with
        | .add =>
          match diffCopyln exp st.cur ec.whereLine with
          | (_, false) => none
          | (cur, true) => applyOn exp comode rd ec.count.toNat { st with ec, cur }
        | .del =>
          match diffCopyln exp st.cur (ec.whereLine - 1) with
          | (_, false) => none
          | (cur, true) => match ignoreLines ec.count.toNat cur with
            | (_, false) => none
            | (cur, true) => applyOn exp comode rd 0 { st with ec, cur }

/-- `diff_apply` with the lines `rd` of the script stream to come: the file
written and the lines left, or `none` for -1. -/
def diffApplyOn (exp : Expander) (comode : Bool) (rd : List Line) (orig : List Byte) (dest : File) :
    Option (File × List Line) :=
  match applyOn exp comode rd 0 ⟨.zero, ⟨splitLines nl orig, [], 0⟩, false⟩ with
  | none => none
  | some (line, rest, st) =>
    if comode = true ∧ line = none then none
    else
      let dest := dest.write (st.cur.orig.foldl (diffWrite exp) st.cur.dest)
      if comode = true ∧ line = some [46, 43] ∧ st.empty = false then
        (dest.truncateRel 1).map fun dest => (dest, rest)
      else some (dest, rest)

/-! ## The loop -/

section

variable (exp : Expander) (comode : Bool)

theorem applyLoop_eq_applyOn (rd : List Line) (pending : Nat) (st : ApplySt) :
    applyLoop exp comode rd pending st =
      (applyOn exp comode rd pending st).map fun r => (r.1, r.2.2) := by
  induction rd generalizing pending st with
  | nil => rcases pending with - | pending <;> rfl
  | cons l rd ih =>
    rcases pending with - | pending
    · simp only [applyLoop, applyOn]
      by_cases hstop : cline l = [46] ∨ cline l = [46, 43]
      · rw [if_pos hstop, if_pos hstop]
        rfl
      rw [if_neg hstop, if_neg hstop]
      by_cases hnil : cline l = []
      · rw [if_pos hnil, if_pos hnil]
        split
        · rfl
        · exact ih 0 _
      rw [if_neg hnil, if_neg hnil]
      rcases diffGeteditcmd st.ec (cline l) with - | ec
      · rfl
      rcases hc : ec.cmd with - | -
      · simp only [hc]
        rcases diffCopyln exp st.cur ec.whereLine with ⟨cur, - | -⟩
        · rfl
        · exact ih _ _
      · simp only [hc]
        rcases diffCopyln exp st.cur (ec.whereLine - 1) with ⟨cur, - | -⟩
        · rfl
        dsimp only
        rcases ignoreLines ec.count.toNat cur with ⟨cur, - | -⟩
        · rfl
        · exact ih 0 _
    · exact ih pending _

/-- Where the lines end behind a whole command, the loop goes on with the lines
that follow. -/
theorem applyOn_append {body : List Line} {pending : Nat} {st st' : ApplySt} {rest : List Line}
    (h : applyOn exp comode body pending st = some (none, rest, st')) (rd : List Line) :
    applyOn exp comode (body ++ rd) pending st = applyOn exp comode rd 0 st' := by
  induction body generalizing pending st with
  | nil =>
    rcases pending with - | pending
    · simp only [applyOn, Option.some.injEq, Prod.mk.injEq] at h
      rw [← h.2.2]
      rfl
    · simp [applyOn] at h
  | cons l body ih =>
    rcases pending with - | pending
    · rw [List.cons_append]
      simp only [applyOn] at h ⊢
      split at h
      · simp at h
      rename_i hstop
      rw [if_neg hstop]
      split at h
      · split at h
        · simp at h
        rename_i hempty hst
        rw [if_pos hempty, if_neg hst]
        exact ih h
      rename_i hempty
      rw [if_neg hempty]
      split at h
      · simp at h
      · split at h
        · split at h
          · simp at h
          · exact ih h
        · split at h
          · simp at h
          · split at h
            · simp at h
            · exact ih h
    · exact ih h

end

/-- A script in front of a terminator and other lines, on a new file. -/
theorem diffApplyOn_script {body : List Line} {cmds : List (Cmd Line)} {forced : Bool}
    (h : Reads .zero false body ⟨cmds, forced, .eof⟩) (exp : Expander) (plus : Bool)
    (rest : List Line) (orig : List Byte)
    (haddr : Script.Addressed ⟨cmds, forced, .stop plus⟩ (splitLines nl orig).length)
    (hplus : Script.noeol ⟨cmds, forced, .stop plus⟩ true = true →
      (Script.result ⟨cmds, forced, .stop plus⟩ exp true (splitLines nl orig)).flatten ≠ []) :
    ∃ dest, diffApplyOn exp true (body ++ (stopLine plus ++ [nl]) :: rest) orig .empty =
        some (dest, rest) ∧
      dest.data =
        (if Script.noeol ⟨cmds, forced, .stop plus⟩ true = true then List.dropLast else id)
          (Script.result ⟨cmds, forced, .stop plus⟩ exp true (splitLines nl orig)).flatten := by
  have hloop := applyLoop_reads exp true ⟨.zero, ⟨splitLines nl orig, [], 0⟩, false⟩ (p := 0) h rfl
  have hall : ∀ c ∈ Script.written ⟨cmds, forced, .eof⟩ exp true,
      c.last ≤ (splitLines nl orig).length := Script.last_written.mpr haddr
  have hend : ¬ Ending.eof = .short := by decide
  rw [runFrom_zero _ (Script.ordered_written exp true h), List.length_map, if_neg hend,
    if_pos hall, applyLoop_eq_applyOn, Option.map_map, Option.map_some,
    Option.map_eq_some_iff] at hloop
  obtain ⟨⟨line, rest', st⟩, hrun, hr⟩ := hloop
  simp only [Function.comp, Ending.line, List.nil_append, Prod.mk.injEq] at hr
  obtain ⟨rfl, hdest, hempty⟩ := hr
  have hout : st.cur.orig.foldl (diffWrite exp) st.cur.dest =
      (Script.result ⟨cmds, forced, .stop plus⟩ exp true (splitLines nl orig)).flatten := by
    rw [foldl_diffWrite_eq]
    exact hdest
  have hstop : cline (stopLine plus ++ [nl]) = stopLine plus := by
    cases plus <;> decide
  simp only [diffApplyOn, applyOn_append exp true hrun]
  have hend : applyOn exp true ((stopLine plus ++ [nl]) :: rest) 0 st =
      some (some (stopLine plus), rest, st) := by
    have : stopLine plus = [46] ∨ stopLine plus = [46, 43] := by cases plus <;> simp [stopLine]
    simp only [applyOn, hstop, if_pos this]
  simp only [hend, hout, File.write_empty, hempty]
  by_cases hno : Script.noeol ⟨cmds, forced, .stop plus⟩ true = true
  · have hne := hplus hno
    simp only [Script.noeol, Bool.true_and, Bool.and_eq_true, decide_eq_true_eq,
      Ending.stop.injEq, Bool.not_eq_true'] at hno
    obtain ⟨rfl, rfl⟩ := hno
    have hlen := List.length_pos_of_ne_nil hne
    generalize (Script.result ⟨cmds, false, .stop true⟩ exp true (splitLines nl orig)).flatten = out
      at hlen ⊢
    have htrunc : File.truncateRel ⟨out, out.length⟩ 1 = some ⟨out.dropLast, out.length⟩ := by
      rw [File.truncateRel, if_neg (by simp only; omega), List.dropLast_eq_take]
    exact ⟨⟨out.dropLast, out.length⟩, by simp [stopLine, htrunc], rfl⟩
  · rw [if_neg hno]
    have hcond : ¬ (True ∧ some (stopLine plus) = some [46, 43] ∧ forced = false) := by
      rintro ⟨-, hp, rfl⟩
      apply hno
      cases plus
      · simp [stopLine] at hp
      · rfl
    rw [if_neg (by simp), if_neg hcond]
    exact ⟨_, rfl, rfl⟩

end Csup.Diff
