import Csup.Diff.Defs
import Csup.Framework.LineScript

/-!
# `diff_apply` on any command stream

A command stream as `diff_apply` reads it (`Reads`): commands that
`diff_geteditcmd` accepts one after the other, their lines, and an end. The
loop is the one run over the original of `Framework.LineScript`
(`applyLoop_reads`), so that the destination is what the script means line by
line (`diffApply_reads`), whatever the expansion of the keywords.
-/

namespace Csup.Diff

open Csup.Framework Csup.Keyword

/-- How a command stream ends: where the stream does, at a line `.` or `.+`, or
among the lines of an `a` command. -/
inductive Ending
  | eof | stop (plus : Bool) | short
  deriving DecidableEq

/-- What a command stream says. `forced`: it has the empty line of a forced
commit. -/
structure Script where
  cmds : List (Cmd Line)
  forced : Bool
  ending : Ending

/-- The line that ends a command stream. -/
def stopLine (plus : Bool) : Line := if plus then [46, 43] else [46]

/-- The lines of a command stream and what they say, behind commands that left
`ec`; `empty` if the empty line of a forced commit was read. A `d` command has a
line number of at least 1. -/
inductive Reads : EditCmd → Bool → List Line → Script → Prop
  | eof (ec : EditCmd) (empty : Bool) : Reads ec empty [] ⟨[], empty, .eof⟩
  | stop (ec : EditCmd) (empty plus : Bool) {l : Line} (rd : List Line)
      (h : cline l = stopLine plus) : Reads ec empty (l :: rd) ⟨[], empty, .stop plus⟩
  | empty {ec : EditCmd} {l : Line} {rd : List Line} {s : Script} (h : cline l = [])
      (hs : Reads ec true rd s) : Reads ec false (l :: rd) s
  | del {ec ec' : EditCmd} {empty : Bool} {l : Line} {rd : List Line} {s : Script}
      (h : diffGeteditcmd ec (cline l) = some ec') (hc : ec'.cmd = .del) (hw : 1 ≤ ec'.whereLine)
      (hs : Reads ec' empty rd s) :
      Reads ec empty (l :: rd)
        { s with cmds := .del ec'.whereLine.toNat ec'.count.toNat :: s.cmds }
  | add {ec ec' : EditCmd} {empty : Bool} {l : Line} {ls rd : List Line} {s : Script}
      (h : diffGeteditcmd ec (cline l) = some ec') (hc : ec'.cmd = .add)
      (hl : ls.length = ec'.count.toNat) (hs : Reads ec' empty rd s) :
      Reads ec empty (l :: (ls ++ rd)) { s with cmds := .add ec'.whereLine.toNat ls :: s.cmds }
  | short {ec ec' : EditCmd} (empty : Bool) {l : Line} {rd : List Line}
      (h : diffGeteditcmd ec (cline l) = some ec') (hc : ec'.cmd = .add)
      (hl : rd.length < ec'.count.toNat) :
      Reads ec empty (l :: rd) ⟨[.add ec'.whereLine.toNat rd], empty, .short⟩

namespace Script

/-- Every line the script addresses is one of the `n` of the original. -/
def Addressed (s : Script) (n : Nat) : Prop := ∀ c ∈ s.cmds, c.last ≤ n

instance (s : Script) (n : Nat) : Decidable (s.Addressed n) :=
  inferInstanceAs (Decidable (∀ c ∈ s.cmds, c.last ≤ n))

/-- Every `a` command has its lines and, in `comode`, the stream its terminator. -/
def Complete (s : Script) (comode : Bool) : Prop :=
  match s.ending with
  | .eof => comode = false
  | .stop _ => True
  | .short => False

instance (s : Script) (comode : Bool) : Decidable (s.Complete comode) := by
  unfold Complete
  split <;> infer_instance

/-- The result has no final newline. -/
def noeol (s : Script) (comode : Bool) : Bool :=
  comode && s.ending = .stop true && !s.forced

/-- The script with the lines it adds as they are written. -/
def written (s : Script) (exp : Expander) (comode : Bool) : List (Cmd Line) :=
  s.cmds.map (Cmd.map fun l => (exp (addedLine comode l)).getD (addedLine comode l))

/-- What the script makes of the lines of the original: by their numbers lines
are deleted and added, each expanded on its own. -/
def result (s : Script) (exp : Expander) (comode : Bool) (lines : List Line) : List Line :=
  edited (s.written exp comode) (lines.map fun l => (exp l).getD l)

end Script

/-! ## Commands -/

/-- What a command that was accepted says. -/
theorem diffGeteditcmd_cases {ec ec' : EditCmd} {line : Line}
    (h : diffGeteditcmd ec line = some ec') :
    0 ≤ ec'.whereLine ∧ 0 < ec'.count ∧ ec.lasta ≤ ec'.whereLine ∧
      (ec'.cmd = .add ∧ ec'.lasta = ec'.whereLine + 1 ∧ ec'.lastd = ec.lastd ∨
        ec'.cmd = .del ∧ ec.lastd ≤ ec'.whereLine ∧ ec'.lasta = ec'.whereLine ∧
          ec'.lastd = ec'.whereLine + ec'.count) := by
  simp only [diffGeteditcmd] at h
  split at h
  · cases h
  rename_i cmd t hk
  split at h
  · cases h
  rename_i hw
  split at h
  · cases h
  rename_i hc
  simp only [not_or] at hw hc
  cases cmd with
  | add =>
    simp only at h
    split at h
    · cases h
    · cases h
      exact ⟨by simp only; omega, by simp only; omega, by simp only; omega, .inl ⟨rfl, rfl, rfl⟩⟩
  | del =>
    simp only at h
    split at h
    · cases h
    · cases h
      exact ⟨by simp only; omega, by simp only; omega, by simp only; omega,
        .inr ⟨rfl, by simp only; omega, rfl, rfl⟩⟩

/-- A command is no terminator and no empty line. -/
theorem ne_of_diffGeteditcmd {ec ec' : EditCmd} {line : Line}
    (h : diffGeteditcmd ec line = some ec') : ¬ (line = [46] ∨ line = [46, 43]) ∧ line ≠ [] := by
  refine ⟨?_, ?_⟩
  · rintro (rfl | rfl) <;> simp [diffGeteditcmd] at h
  · rintro rfl
    simp [diffGeteditcmd] at h

theorem ordered_of_reads {ec : EditCmd} {empty : Bool} {rd : List Line} {s : Script}
    (h : Reads ec empty rd s) :
    Ordered ec.lasta.toNat ec.lastd.toNat s.cmds := by
  induction h with
  | eof | stop => trivial
  | empty _ _ ih => exact ih
  | @del ec ec' _ _ _ s h hc hw _ ih =>
    obtain ⟨h1, h2, h3, ⟨hadd, -⟩ | ⟨-, h4, h5, h6⟩⟩ := diffGeteditcmd_cases h
    · rw [hc] at hadd
      cases hadd
    · rw [h5, h6, Int.toNat_add h1 (by omega)] at ih
      exact ⟨by omega, by omega, by omega, by omega, ih⟩
  | @add ec ec' _ _ _ _ s h hc _ _ ih =>
    obtain ⟨h1, h2, h3, ⟨-, h5, h6⟩ | ⟨hdel, -⟩⟩ := diffGeteditcmd_cases h
    · rw [h5, h6, Int.toNat_add h1 (by decide)] at ih
      exact ⟨by omega, ih⟩
    · rw [hc] at hdel
      cases hdel
  | @short ec ec' _ _ _ h hc _ =>
    obtain ⟨h1, h2, h3, -⟩ := diffGeteditcmd_cases h
    exact ⟨by omega, trivial⟩

/-! ## The loop -/

section

variable (exp : Expander) (comode : Bool)

/-- A line as `diff_write` writes it. -/
abbrev writtenLine (l : Line) : Line := (exp l).getD l

theorem copyLines_eq (n : Nat) (c : Cursor) :
    copyLines exp n c =
      (⟨c.orig.drop n, c.dest ++ ((c.orig.take n).map (writtenLine exp)).flatten,
        c.editline + (min n c.orig.length : Nat)⟩, decide (n ≤ c.orig.length)) := by
  induction n generalizing c with
  | zero => simp [copyLines]
  | succ n ih =>
    obtain ⟨orig, dest, editline⟩ := c
    cases orig with
    | nil => simp [copyLines]
    | cons l orig =>
      simp only [copyLines, ih, diffWrite, List.drop_succ_cons, List.take_succ_cons, List.map_cons,
        List.flatten_cons, List.append_assoc, List.length_cons, Nat.add_le_add_iff_right,
        Prod.mk.injEq, Cursor.mk.injEq, true_and, and_true]
      omega

theorem ignoreLines_eq (n : Nat) (c : Cursor) :
    ignoreLines n c =
      (⟨c.orig.drop n, c.dest, c.editline + (min n c.orig.length : Nat)⟩,
        decide (n ≤ c.orig.length)) := by
  induction n generalizing c with
  | zero => simp [ignoreLines]
  | succ n ih =>
    obtain ⟨orig, dest, editline⟩ := c
    cases orig with
    | nil => simp [ignoreLines]
    | cons l orig =>
      simp only [ignoreLines, ih, List.drop_succ_cons, List.length_cons, Nat.add_le_add_iff_right,
        Prod.mk.injEq, Cursor.mk.injEq, true_and, and_true]
      omega

/-- The lines of an `a` command are written. -/
theorem applyLoop_lines (ls rd : List Line) (st : ApplySt) :
    applyLoop exp comode (ls ++ rd) ls.length st =
      applyLoop exp comode rd 0 { st with cur := { st.cur with
        dest := st.cur.dest ++
          (ls.map fun l => writtenLine exp (addedLine comode l)).flatten } } := by
  induction ls generalizing st with
  | nil => simp
  | cons l ls ih =>
    simp only [List.cons_append, List.length_cons, applyLoop]
    rw [ih]
    simp [diffWrite, List.append_assoc]

/-- The lines of an `a` command are missing. -/
theorem applyLoop_short {rd : List Line} {n : Nat} (hn : rd.length < n) (st : ApplySt) :
    applyLoop exp comode rd n st = none := by
  induction rd generalizing n st with
  | nil =>
    obtain ⟨m, rfl⟩ : ∃ m, n = m + 1 := ⟨n - 1, by simp only [List.length_nil] at hn; omega⟩
    rfl
  | cons l rd ih =>
    obtain ⟨m, rfl⟩ : ∃ m, n = m + 1 := ⟨n - 1, by omega⟩
    exact ih (by simpa using hn) _

/-- The line that ended the loop. -/
def Ending.line : Ending → Option Line
  | .stop plus => some (stopLine plus)
  | _ => none

/-- What is written when the rest of the original is copied behind the loop. -/
def ApplySt.flushed (st : ApplySt) : List Byte :=
  st.cur.dest ++ (st.cur.orig.map (writtenLine exp)).flatten

/-- The loop is the run of the script over the original. -/
theorem applyLoop_reads {rd : List Line} {s : Script} (st : ApplySt) {p : Nat}
    (h : Reads st.ec st.empty rd s) (hp : st.cur.editline = p) :
    (applyLoop exp comode rd 0 st).map
        (fun r => (r.1, r.2.flushed exp, r.2.empty)) =
      if s.ending = .short then none
      else (runFrom p (s.written exp comode) (st.cur.orig.map (writtenLine exp))).map
        (fun ls => (s.ending.line, st.cur.dest ++ ls.flatten, s.forced)) := by
  obtain ⟨ec, cur, empty⟩ := st
  simp only at h hp ⊢
  induction h generalizing cur p with
  | eof => simp [applyLoop, runFrom, Script.written, Ending.line, ApplySt.flushed]
  | stop ec empty plus rd h =>
    have hstop : stopLine plus = [46] ∨ stopLine plus = [46, 43] := by cases plus <;> simp [stopLine]
    simp [applyLoop, h, hstop, runFrom, Script.written, Ending.line, ApplySt.flushed]
  | empty h hs ih => simp [applyLoop, h, ih cur hp]
  | @del ec ec' empty l rd s h hc hw hs ih =>
    obtain ⟨hne1, hne2⟩ := ne_of_diffGeteditcmd h
    obtain ⟨-, hcount, -⟩ := diffGeteditcmd_cases h
    have hn : (ec'.whereLine - 1 - cur.editline).toNat = ec'.whereLine.toNat - 1 - p := by omega
    simp only [applyLoop, if_neg hne1, if_neg hne2, h, hc, diffCopyln, hn, Script.written,
      List.map_cons, Cmd.map, runFrom, List.length_map, copyLines_eq, ignoreLines_eq]
    generalize hk : ec'.whereLine.toNat - 1 - p = k
    generalize hm : ec'.count.toNat = m
    by_cases hlen : k + m ≤ cur.orig.length
    · have hk' : k ≤ cur.orig.length := by omega
      have hm' : m ≤ cur.orig.length - k := by omega
      simp only [hk', hlen, decide_true, if_true, List.length_drop, hm']
      rw [ih _ (p := max p (ec'.whereLine.toNat - 1) + m) (by simp only; omega)]
      simp only [List.drop_drop, Script.written, ← List.map_drop, ← List.map_take, Option.map_map]
      split
      · rfl
      · congr 1
        funext ls
        simp
    · rw [if_neg hlen]
      by_cases hk' : k ≤ cur.orig.length
      · have hm' : ¬ m ≤ cur.orig.length - k := by omega
        simp [hk', hm']
      · simp [hk']
  | @add ec ec' empty l ls rd s h hc hl hs ih =>
    obtain ⟨hne1, hne2⟩ := ne_of_diffGeteditcmd h
    obtain ⟨hw, hcount, -⟩ := diffGeteditcmd_cases h
    have hn : (ec'.whereLine - cur.editline).toNat = ec'.whereLine.toNat - p := by omega
    simp only [applyLoop, if_neg hne1, if_neg hne2, h, hc, diffCopyln, hn, Script.written,
      List.map_cons, Cmd.map, runFrom, List.length_map, copyLines_eq]
    generalize hk : ec'.whereLine.toNat - p = k
    by_cases hlen : k ≤ cur.orig.length
    · simp only [hlen, decide_true, if_true, ← hl, applyLoop_lines]
      rw [ih _ (p := max p ec'.whereLine.toNat) (by simp only; omega)]
      simp only [Script.written, ← List.map_drop, ← List.map_take, Option.map_map]
      split
      · rfl
      · congr 1
        funext ls
        simp
    · simp [hlen]
  | @short ec ec' empty l rd h hc hl =>
    obtain ⟨hne1, hne2⟩ := ne_of_diffGeteditcmd h
    simp only [applyLoop, if_neg hne1, if_neg hne2, h, hc, if_true]
    split
    · rfl
    · rw [applyLoop_short exp comode hl]
      rfl

theorem foldl_diffWrite_eq (ls : List Line) (dest : List Byte) :
    ls.foldl (diffWrite exp) dest = dest ++ (ls.map (writtenLine exp)).flatten := by
  induction ls generalizing dest with
  | nil => simp
  | cons l ls ih => simp [ih, diffWrite, List.append_assoc]

end

/-! ## The call -/

theorem Script.last_written {s : Script} {exp : Expander} {comode : Bool} {n : Nat} :
    (∀ c ∈ s.written exp comode, c.last ≤ n) ↔ s.Addressed n := by
  have hlast : ∀ (f : Line → Line) (c : Cmd Line), (c.map f).last = c.last := by
    intro f c
    cases c <;> rfl
  simp only [Script.written, List.forall_mem_map, hlast]
  rfl

theorem Script.ordered_written {s : Script} {rd : List Line} (exp : Expander) (comode : Bool)
    (h : Reads .zero false rd s) : Ordered 0 0 (s.written exp comode) := by
  have hmap : ∀ (f : Line → Line) {cs : List (Cmd Line)} {la ld : Nat}, Ordered la ld cs →
      Ordered la ld (cs.map (Cmd.map f)) := by
    intro f cs
    induction cs with
    | nil => exact fun _ => trivial
    | cons c cs ih =>
      intro la ld hc
      cases c with
      | del w n => exact ⟨hc.1, hc.2.1, hc.2.2.1, hc.2.2.2.1, ih hc.2.2.2.2⟩
      | add w ls => exact ⟨hc.1, ih hc.2⟩
  exact hmap _ (ordered_of_reads h)

/-- `diff_apply` on a command stream: it succeeds iff the lines that the script
addresses exist and the stream is complete, and writes what the script means. -/
theorem diffApply_reads {rd : List Byte} {s : Script} (h : Reads .zero false (splitLines nl rd) s)
    (exp : Expander) (comode : Bool) (orig : List Byte) :
    diffApply exp comode rd orig =
      if s.Addressed (splitLines nl orig).length ∧ s.Complete comode then
        let dest := (s.result exp comode (splitLines nl orig)).flatten
        if s.noeol comode = true then (if dest = [] then none else some dest.dropLast)
        else some dest
      else none := by
  have hloop := applyLoop_reads exp comode ⟨.zero, ⟨splitLines nl orig, [], 0⟩, false⟩
    (p := 0) h rfl
  rw [runFrom_zero _ (Script.ordered_written exp comode h), List.length_map] at hloop
  simp only [Script.last_written, List.nil_append] at hloop
  simp only [diffApply]
  by_cases hshort : s.ending = .short
  · have hno : ¬ s.Complete comode := by simp [Script.Complete, hshort]
    rw [if_pos hshort, Option.map_eq_none_iff] at hloop
    rw [hloop, if_neg (by simp [hno])]
  rw [if_neg hshort] at hloop
  by_cases haddr : s.Addressed (splitLines nl orig).length
  · rw [if_pos haddr, Option.map_some] at hloop
    obtain ⟨⟨line, st⟩, hrun, hr⟩ := Option.map_eq_some_iff.mp hloop
    simp only [Prod.mk.injEq] at hr
    obtain ⟨rfl, hdest, hempty⟩ := hr
    have hout : st.cur.orig.foldl (diffWrite exp) st.cur.dest =
        (s.result exp comode (splitLines nl orig)).flatten := by
      rw [foldl_diffWrite_eq]
      exact hdest
    simp only [hrun, hout, hempty]
    cases hend : s.ending with
    | eof => cases comode <;> simp [haddr, Script.Complete, Script.noeol, hend, Ending.line]
    | stop plus =>
      cases comode <;> cases plus <;> cases hf : s.forced <;>
        simp [haddr, Script.Complete, Script.noeol, hend, Ending.line, stopLine, hf]
    | short => exact absurd hend hshort
  · rw [if_neg haddr, Option.map_none, Option.map_eq_none_iff] at hloop
    rw [hloop, if_neg (by simp [haddr])]

/-- Where `.+` comes behind a script whose result ends in a newline, the newline
is what is removed. -/
theorem diffApply_noeol {rd : List Byte} {s : Script} (h : Reads .zero false (splitLines nl rd) s)
    {exp : Expander} {comode : Bool} {orig : List Byte}
    (hplus : s.noeol comode = true → s.Addressed (splitLines nl orig).length →
      (s.result exp comode (splitLines nl orig)).flatten.getLast? = some nl) :
    ((∃ dest, diffApply exp comode rd orig = some dest) ↔
      s.Addressed (splitLines nl orig).length ∧ s.Complete comode) ∧
    ∀ dest, diffApply exp comode rd orig = some dest →
      (s.result exp comode (splitLines nl orig)).flatten =
        if s.noeol comode = true then dest ++ [nl] else dest := by
  rw [diffApply_reads h]
  by_cases hok : s.Addressed (splitLines nl orig).length ∧ s.Complete comode
  · simp only [if_pos hok]
    by_cases hno : s.noeol comode = true
    · obtain ⟨w, hw⟩ := List.getLast?_eq_some_iff.mp (hplus hno hok.1)
      simp [hno, hok, hw]
    · simp [hno, hok]
  · simp [hok]

/-! ## Without keywords -/

namespace Script

/-- What the script makes of the lines of the original when no keyword is
expanded: in `comode` the added lines lose one leading dot. -/
def reference (s : Script) (comode : Bool) (lines : List Line) : List Line :=
  edited (s.cmds.map (Cmd.map (addedLine comode))) lines

/-- The last line added is the last line of the result. -/
def EndsAdded (s : Script) (comode : Bool) (lines : List Line) : Prop :=
  ∃ l, (s.cmds.flatMap Cmd.added).getLast? = some l ∧
    (s.reference comode lines).getLast? = some (addedLine comode l)

theorem result_expandOld (s : Script) (scan : Line → Option Line) (comode : Bool)
    (lines : List Line) :
    s.result (expandOld scan) comode lines = s.reference comode lines := by
  simp [result, written, reference, expandOld]

end Script

/-- Lines that a terminator follows have their newlines. -/
theorem fullLine_of_reads {ec : EditCmd} {empty : Bool} {rd : List Line} {s : Script}
    (h : Reads ec empty rd s) (ht : IsText nl rd) {plus : Bool} (hs : s.ending = .stop plus) :
    ∀ l ∈ s.cmds.flatMap Cmd.added, FullLine nl l := by
  induction h with
  | eof | short => cases hs
  | stop => simp
  | empty _ _ ih => exact ih ht.tail hs
  | del _ _ _ _ ih => simpa [Cmd.added] using ih ht.tail hs
  | @add _ _ _ _ ls rd s' _ _ _ hr ih =>
    have hne : rd ≠ [] := by
      rintro rfl
      cases hr
      cases hs
    have hls := ((isText_append hne).mp ht.tail).1
    have := ih ht.tail.append_right hs
    simp only [List.flatMap_cons, Cmd.added, List.mem_append]
    rintro l (hl | hl)
    · exact hls l hl
    · exact this l hl

theorem getLast?_addedLine {l : Line} (h : FullLine nl l) (comode : Bool) :
    (addedLine comode l).getLast? = some nl := by
  obtain ⟨w, -, rfl⟩ := h
  rw [addedLine]
  split
  · rename_i hd
    cases w with
    | nil => exact absurd hd.2 (by decide)
    | cons b w => simp
  · simp

theorem getLast?_flatten_of_getLast? {ls : List Line} {l : Line} (h : ls.getLast? = some l)
    (hl : l.getLast? = some nl) : ls.flatten.getLast? = some nl := by
  obtain ⟨ls', rfl⟩ := List.getLast?_eq_some_iff.mp h
  obtain ⟨w, rfl⟩ := List.getLast?_eq_some_iff.mp hl
  simp [← List.append_assoc]

/-- `diff_apply` implements the edit scripts of RCS: it returns 0 iff the lines
that the script addresses exist and the stream is complete, and the destination
is then the reference result, less its final newline where the terminator says
so. -/
theorem diffApply_reference (scan : Line → Option Line) (comode : Bool) (rd orig : List Byte)
    {s : Script} (h : Reads .zero false (splitLines nl rd) s)
    (hplus : s.noeol comode = true → s.Addressed (splitLines nl orig).length →
      s.EndsAdded comode (splitLines nl orig)) :
    ((∃ dest, diffApply (expandOld scan) comode rd orig = some dest) ↔
      s.Addressed (splitLines nl orig).length ∧ s.Complete comode) ∧
    ∀ dest, diffApply (expandOld scan) comode rd orig = some dest →
      (s.reference comode (splitLines nl orig)).flatten =
        if s.noeol comode = true then dest ++ [nl] else dest := by
  rw [← s.result_expandOld scan]
  refine diffApply_noeol h fun hno haddr => ?_
  obtain ⟨l, hl, hres⟩ := hplus hno haddr
  have hend : s.ending = .stop true := by
    simp only [Script.noeol, Bool.and_eq_true, decide_eq_true_eq] at hno
    exact hno.1.2
  have hfull := fullLine_of_reads h (isText_splitLines nl rd) hend l (List.mem_of_getLast? hl)
  rw [s.result_expandOld scan]
  exact getLast?_flatten_of_getLast? hres (getLast?_addedLine hfull comode)

/-- `d1 1`, `a2 1`, `..y` and `.+` on the lines `x` and `z`. -/
theorem diffApply_reference_noeol :
    ∃ dest, diffApply (expandOld fun _ => none) true
      [100, 49, 32, 49, 10, 97, 50, 32, 49, 10, 46, 46, 121, 10, 46, 43, 10]
      [120, 10, 122, 10] = some dest ∧ dest ++ [nl] = [122, 10, 46, 121, 10] := by
  have hdel : diffGeteditcmd .zero (cline [100, 49, 32, 49, 10]) =
      some ⟨.del, 0, false, 0, 1, 1, 1, 2⟩ := by decide
  have hadd : diffGeteditcmd ⟨.del, 0, false, 0, 1, 1, 1, 2⟩ (cline [97, 50, 32, 49, 10]) =
      some ⟨.add, 0, false, 0, 2, 1, 3, 2⟩ := by decide
  have hsplit : splitLines nl
      [100, 49, 32, 49, 10, 97, 50, 32, 49, 10, 46, 46, 121, 10, 46, 43, 10] =
      [[100, 49, 32, 49, 10], [97, 50, 32, 49, 10], [46, 46, 121, 10], [46, 43, 10]] := by decide
  have hstop : Reads ⟨.add, 0, false, 0, 2, 1, 3, 2⟩ false [[46, 43, 10]]
      ⟨[], false, .stop true⟩ := .stop _ false true [] (by decide)
  have hlines : Reads ⟨.del, 0, false, 0, 1, 1, 1, 2⟩ false
      ([97, 50, 32, 49, 10] :: ([[46, 46, 121, 10]] ++ [[46, 43, 10]]))
      ⟨[.add 2 [[46, 46, 121, 10]]], false, .stop true⟩ := .add hadd rfl rfl hstop
  have hreads : Reads .zero false
      (splitLines nl [100, 49, 32, 49, 10, 97, 50, 32, 49, 10, 46, 46, 121, 10, 46, 43, 10])
      ⟨[.del 1 1, .add 2 [[46, 46, 121, 10]]], false, .stop true⟩ := by
    rw [hsplit]
    exact .del hdel rfl (by decide) hlines
  have h := diffApply_reference (fun _ => none) true _ [120, 10, 122, 10] hreads
    fun _ _ => ⟨[46, 46, 121, 10], by decide, by decide⟩
  obtain ⟨dest, hdest⟩ := h.1.mpr ⟨by decide, trivial⟩
  exact ⟨dest, hdest, (h.2 dest hdest).symm⟩

end Csup.Diff
