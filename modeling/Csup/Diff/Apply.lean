import Csup.Diff.Script
import Csup.Framework.EditScript
import Mathlib.Data.List.TakeWhile

/-!
# `diff_apply` on canonical scripts

The text of a canonical script (`render`) and what `diff_apply` makes of it:
`applyLoop_cmdLines` runs the loop over the hunks of a script from any point of
the original on, `diffApply_render` is the whole call. Keywords are not
expanded (`exp` changes no line).
-/

namespace Csup.Diff

open Csup.Framework Csup.Keyword

/-- The lines of a hunk in a script: a `d` command, an `a` command with its
lines, or both, the `a` at the last deleted line. -/
def cmdLines (h : Hunk Line) : List Line :=
  (if h.del = 0 then [] else [printCmd 100 ((h.pos + 1 : Nat) : Int) (h.del : Nat)]) ++
    (if h.add = [] then [] else printCmd 97 (h.stop : Nat) (h.add.length : Nat) :: h.add)

/-- The text of a script. -/
def render (hs : List (Hunk Line)) : List Byte := (hs.flatMap cmdLines).flatten

/-! ## Command lines -/

theorem printCmd_eq (c : Byte) (w n : Nat) :
    printCmd c w n = (c :: printNat w ++ 32 :: printNat n) ++ [nl] := by
  simp [printCmd]

theorem notMem_printNat {b : Byte} (hb : isdigit b = false) (n : Nat) : b ∉ printNat n :=
  fun h => by rw [isdigit_of_mem_printNat h] at hb; cases hb

theorem fullLine_printCmd {c : Byte} (hc : c ≠ nl) (w n : Nat) : FullLine nl (printCmd c w n) := by
  refine ⟨c :: printNat w ++ 32 :: printNat n, ?_, printCmd_eq c w n⟩
  simp only [List.cons_append, List.mem_cons, List.mem_append, not_or]
  exact ⟨hc.symm, notMem_printNat (by decide) w, by decide, notMem_printNat (by decide) n⟩

theorem cline_printCmd {c : Byte} (hc : c ≠ 0) (w n : Nat) :
    cline (printCmd c w n) = c :: printNat w ++ 32 :: printNat n := by
  rw [printCmd_eq, cline, if_pos (by rw [List.getLast?_concat]), List.dropLast_concat, cstr]
  refine List.takeWhile_eq_self_iff.mpr fun b hb => ?_
  simp only [List.cons_append, List.mem_cons, List.mem_append] at hb
  have hdig : ∀ k, b ∈ printNat k → b ≠ 0 := fun k hk h => notMem_printNat (by decide) k (h ▸ hk)
  rcases hb with rfl | hb | rfl | hb
  · simpa using hc
  · simpa using hdig w hb
  · decide
  · simpa using hdig n hb

theorem strtol_where {w n : Nat} (hw : (w : Int) ≤ longMax) :
    strtol (printNat w ++ 32 :: printNat n) = ((w : Int), 32 :: printNat n, false) :=
  strtol_printNat hw (by simp [isdigit])

theorem strtol_count {n : Nat} (hn : (n : Int) ≤ longMax) :
    strtol (printNat n) = ((n : Int), [], false) := by
  have hnil : ∀ b ∈ ([] : List Byte).head?, isdigit b = false := by simp
  simpa using strtol_printNat hn hnil

/-- The command read from an `a` line. -/
def addCmd (ec : EditCmd) (w n : Nat) : EditCmd :=
  { ec with cmd := .add, whereLine := w, count := n, lasta := (w : Int) + 1 }

/-- The command read from a `d` line. -/
def delCmd (ec : EditCmd) (w n : Nat) : EditCmd :=
  { ec with cmd := .del, whereLine := w, count := n, lasta := w, lastd := (w : Int) + n }

theorem diffGeteditcmd_add {ec : EditCmd} {w n : Nat} (hw : (w : Int) ≤ longMax) (hn : 0 < n)
    (hnm : (n : Int) ≤ longMax) (ha : ec.lasta ≤ w) :
    diffGeteditcmd ec (cline (printCmd 97 w n)) = some (addCmd ec w n) := by
  rw [cline_printCmd (by decide)]
  simp only [diffGeteditcmd, List.cons_append, strtol_where hw, List.tail_cons, strtol_count hnm,
    List.head?_cons]
  rw [if_neg (by simp), if_neg (by simp; omega), if_neg (by omega)]
  rfl

theorem diffGeteditcmd_del {ec : EditCmd} {w n : Nat} (hw : (w : Int) ≤ longMax) (hn : 0 < n)
    (hnm : (n : Int) ≤ longMax) (ha : ec.lasta ≤ w) (hd : ec.lastd ≤ w) :
    diffGeteditcmd ec (cline (printCmd 100 w n)) = some (delCmd ec w n) := by
  rw [cline_printCmd (by decide)]
  simp only [diffGeteditcmd, List.cons_append, strtol_where hw, List.tail_cons, strtol_count hnm,
    List.head?_cons]
  rw [if_neg (by simp), if_neg (by simp; omega), if_neg (by omega)]
  rfl

/-! ## The original -/

variable {exp : Expander}

/-- Without an expansion the lines are written as they are. -/
theorem map_writtenLine (he : ∀ l, exp l = none) (ls : List Line) :
    ls.map (writtenLine exp) = ls := by
  have hl : ∀ l ∈ ls, writtenLine exp l = id l := fun l _ => by simp [writtenLine, he l]
  rw [List.map_congr_left hl, List.map_id]

theorem copyLines_of_le (he : ∀ l, exp l = none) {n : Nat} {c : Cursor} (hn : n ≤ c.orig.length) :
    copyLines exp n c =
      (⟨c.orig.drop n, c.dest ++ (c.orig.take n).flatten, c.editline + n⟩, true) := by
  rw [copyLines_eq, map_writtenLine he, Nat.min_eq_left hn, decide_eq_true hn]

theorem ignoreLines_of_le {n : Nat} {c : Cursor} (hn : n ≤ c.orig.length) :
    ignoreLines n c = (⟨c.orig.drop n, c.dest, c.editline + n⟩, true) := by
  rw [ignoreLines_eq, Nat.min_eq_left hn, decide_eq_true hn]

/-- The cursor in front of line `o` of the original. -/
structure Cursor.At (c : Cursor) (orig : List Line) (o : Nat) : Prop where
  orig_eq : c.orig = orig.drop o
  editline_eq : c.editline = o

theorem diffCopyln_at (he : ∀ l, exp l = none) {orig : List Line} {c : Cursor} {o p : Nat}
    (h : c.At orig o) (hop : o ≤ p) (hp : p ≤ orig.length) :
    diffCopyln exp c p =
      (⟨orig.drop p, c.dest ++ ((orig.drop o).take (p - o)).flatten, p⟩, true) := by
  have hn : ((p : Int) - c.editline).toNat = p - o := by rw [h.editline_eq]; omega
  rw [diffCopyln, hn, copyLines_of_le he (by rw [h.orig_eq, List.length_drop]; omega), h.orig_eq,
    h.editline_eq, List.drop_drop, Nat.add_sub_cancel' hop]
  simp only [Prod.mk.injEq, Cursor.mk.injEq, true_and, and_true]
  omega

theorem diffIgnoreln_at {orig : List Line} {c : Cursor} {o p : Nat}
    (h : c.At orig o) (hop : o ≤ p) (hp : p ≤ orig.length) :
    diffIgnoreln c p = (⟨orig.drop p, c.dest, p⟩, true) := by
  have hn : ((p : Int) - c.editline).toNat = p - o := by rw [h.editline_eq]; omega
  rw [diffIgnoreln, hn, ignoreLines_of_le (by rw [h.orig_eq, List.length_drop]; omega), h.orig_eq,
    h.editline_eq, List.drop_drop, Nat.add_sub_cancel' hop]
  simp only [Prod.mk.injEq, Cursor.mk.injEq, true_and, and_true]
  omega

/-! ## The loop -/

/-- The lines of an `a` command are written. -/
theorem applyLoop_added (he : ∀ l, exp l = none) (add rest : List Line) (st : ApplySt) :
    applyLoop exp false (add ++ rest) add.length st =
      applyLoop exp false rest 0
        { st with cur := { st.cur with dest := st.cur.dest ++ add.flatten } } := by
  have hadd := map_writtenLine he add
  rw [applyLoop_lines]
  simp only [addedLine, Bool.false_eq_true, false_and, if_false]
  rw [show (add.map fun l => writtenLine exp l) = add from hadd]

theorem cline_printCmd_ne {c : Byte} (hc : c ≠ 0) (w n : Nat) :
    cline (printCmd c w n) ≠ [46] ∧ cline (printCmd c w n) ≠ [46, 43] ∧
      cline (printCmd c w n) ≠ [] := by
  rw [cline_printCmd hc]
  refine ⟨fun h => ?_, fun h => ?_, by simp⟩
  · simp at h
  · have := congrArg List.length h
    have h1 := List.length_pos_of_ne_nil (printNat_ne_nil w)
    have h2 := List.length_pos_of_ne_nil (printNat_ne_nil n)
    simp only [List.cons_append, List.length_cons, List.length_append, List.length_nil] at this
    omega

/-- A `d` command in front of a hunk. -/
theorem applyLoop_del (he : ∀ l, exp l = none) {orig rest : List Line} {st : ApplySt} {o p n : Nat}
    (hc : st.cur.At orig o) (hop : o ≤ p) (hn : 0 < n) (hp : p + n ≤ orig.length)
    (hl : (orig.length : Int) ≤ longMax) (ha : st.ec.lasta ≤ p + 1) (hd : st.ec.lastd ≤ p + 1) :
    applyLoop exp false (printCmd 100 ((p + 1 : Nat) : Int) (n : Nat) :: rest) 0 st =
      applyLoop exp false rest 0
        { st with
          ec := delCmd st.ec (p + 1) n
          cur := ⟨orig.drop (p + n), st.cur.dest ++ ((orig.drop o).take (p - o)).flatten,
            (p + n : Nat)⟩ } := by
  obtain ⟨h1, h2, h3⟩ := cline_printCmd_ne (c := 100) (by decide) (p + 1) n
  have hcmd : diffGeteditcmd st.ec (cline (printCmd 100 ((p + 1 : Nat) : Int) (n : Nat))) =
      some (delCmd st.ec (p + 1) n) :=
    diffGeteditcmd_del (by push_cast; omega) hn (by omega) (by push_cast; omega)
      (by push_cast; omega)
  simp only [applyLoop, h1, h2, h3, or_self, if_false, hcmd]
  have hcur := diffCopyln_at he hc hop (by omega : p ≤ orig.length)
  simp only [delCmd]
  rw [show ((p + 1 : Nat) : Int) - 1 = (p : Int) by push_cast; omega, hcur]
  simp only [Int.toNat_natCast]
  rw [ignoreLines_of_le (by simp only [List.length_drop]; omega)]
  simp [List.drop_drop]

/-- An `a` command in front of its lines. -/
theorem applyLoop_add (he : ∀ l, exp l = none) {orig rest add : List Line} {st : ApplySt}
    {o p : Nat} (hc : st.cur.At orig o) (hop : o ≤ p) (hne : add ≠ []) (hp : p ≤ orig.length)
    (hl : (orig.length : Int) ≤ longMax) (hm : (add.length : Int) ≤ longMax)
    (ha : st.ec.lasta ≤ p) :
    applyLoop exp false (printCmd 97 (p : Nat) (add.length : Nat) :: (add ++ rest)) 0 st =
      applyLoop exp false rest 0
        { st with
          ec := addCmd st.ec p add.length
          cur := ⟨orig.drop p,
            st.cur.dest ++ ((orig.drop o).take (p - o)).flatten ++ add.flatten, (p : Nat)⟩ } := by
  obtain ⟨h1, h2, h3⟩ := cline_printCmd_ne (c := 97) (by decide) p add.length
  have hcmd : diffGeteditcmd st.ec (cline (printCmd 97 (p : Nat) (add.length : Nat))) =
      some (addCmd st.ec p add.length) :=
    diffGeteditcmd_add (by omega) (List.length_pos_of_ne_nil hne) hm ha
  simp only [applyLoop, h1, h2, h3, or_self, if_false, hcmd]
  have hcur := diffCopyln_at he hc hop hp
  simp only [addCmd]
  rw [hcur]
  simp only [Int.toNat_natCast]
  rw [applyLoop_added he]

/-- The line numbers of the commands read so far are at most `o`. -/
structure EditCmd.Upto (ec : EditCmd) (o : Nat) : Prop where
  lasta_le : ec.lasta ≤ o
  lastd_le : ec.lastd ≤ o

/-- One hunk: the lines in front of it are copied, those it deletes are
skipped and those it adds are written. -/
theorem applyLoop_hunk (he : ∀ l, exp l = none) (rest : List Line) {orig : List Line}
    {st : ApplySt} {o : Nat} {h : Hunk Line} (hc : st.cur.At orig o) (hop : o ≤ h.pos) (hp : h.stop ≤ orig.length)
    (hne : 0 < h.del ∨ h.add ≠ []) (hl : (orig.length : Int) ≤ longMax)
    (hm : (h.add.length : Int) ≤ longMax) {lo : Nat} (hlo : lo ≤ h.pos) (hec : st.ec.Upto lo) :
    ∃ ec, EditCmd.Upto ec (h.stop + 1) ∧
      applyLoop exp false (cmdLines h ++ rest) 0 st =
        applyLoop exp false rest 0
          { st with
            ec := ec
            cur := ⟨orig.drop h.stop,
              st.cur.dest ++ ((orig.drop o).take (h.pos - o)).flatten ++ h.add.flatten,
              (h.stop : Nat)⟩ } := by
  obtain ⟨ha, hd⟩ := hec
  simp only [Hunk.stop] at *
  by_cases hdel : h.del = 0
  · have hadd : h.add ≠ [] := hne.resolve_left (by omega)
    refine ⟨addCmd st.ec h.pos h.add.length, ⟨?_, ?_⟩, ?_⟩
    · simp only [addCmd]; omega
    · simp only [addCmd]; omega
    · simp only [cmdLines, hdel, if_true, if_neg hadd, List.nil_append, List.cons_append,
        Hunk.stop, Nat.add_zero]
      exact applyLoop_add he hc hop hadd (by omega) hl hm (by omega)
  · simp only [cmdLines, if_neg hdel, List.cons_append, List.nil_append]
    rw [applyLoop_del he hc hop (by omega) hp hl (by omega) (by omega)]
    by_cases hadd : h.add = []
    · refine ⟨delCmd st.ec (h.pos + 1) h.del, ⟨?_, ?_⟩, ?_⟩
      · simp only [delCmd]; omega
      · simp only [delCmd]; omega
      · simp only [hadd, if_true, List.nil_append, List.flatten_nil, List.append_nil]
    · refine ⟨addCmd (delCmd st.ec (h.pos + 1) h.del) h.stop h.add.length, ⟨?_, ?_⟩, ?_⟩
      · simp only [addCmd, Hunk.stop]; omega
      · simp only [addCmd, delCmd]; omega
      · rw [if_neg hadd, List.cons_append, applyLoop_add he ⟨rfl, rfl⟩ (Nat.le_refl _) hadd hp hl hm
          (by simp only [delCmd]; omega)]
        simp [Hunk.stop]

/-- The loop over the hunks of a canonical script: what was written and what
is left of the original is the edited text. -/
theorem applyLoop_cmdLines (he : ∀ l, exp l = none) {orig : List Line} {hs : List (Hunk Line)}
    {st : ApplySt} {o lo : Nat} (hlo : o ≤ lo) (hcan : CanonicalFrom orig.length lo hs)
    (hc : st.cur.At orig o) (hec : st.ec.Upto lo) (hl : (orig.length : Int) ≤ longMax)
    (hm : ∀ h ∈ hs, (h.add.length : Int) ≤ longMax) :
    ∃ st', applyLoop exp false (hs.flatMap cmdLines) 0 st = some (none, st') ∧
      st'.cur.dest ++ st'.cur.orig.flatten = st.cur.dest ++ (applyFrom orig o hs).flatten := by
  induction hs generalizing st o lo with
  | nil => exact ⟨st, by simp [applyLoop], by simp [applyFrom, hc.orig_eq]⟩
  | cons h hs ih =>
    obtain ⟨hpos, hstop, hne, hcs⟩ := hcan
    obtain ⟨ec, hec', hstep⟩ := applyLoop_hunk he (hs.flatMap cmdLines) hc
      (Nat.le_trans hlo hpos) hstop hne hl (hm h (by simp)) hpos hec
    have hat : (ApplySt.mk ec ⟨orig.drop h.stop, st.cur.dest ++
        ((orig.drop o).take (h.pos - o)).flatten ++ h.add.flatten, (h.stop : Nat)⟩ st.empty).cur.At
        orig h.stop := ⟨rfl, rfl⟩
    obtain ⟨st', hrun, hdest⟩ := ih (Nat.le_succ _) hcs hat hec' fun k hk => hm k (by simp [hk])
    refine ⟨st', by rw [List.flatMap_cons, hstep]; exact hrun, ?_⟩
    rw [hdest]
    simp [applyFrom, List.append_assoc]

/-! ## The call -/

/-- The lines of a script are the lines of its text: the added lines are full
ones but for the last of the script. -/
theorem isText_cmdLines {orig : List Line} {hs : List (Hunk Line)} {o lo : Nat} (hlo : o ≤ lo)
    (hcan : CanonicalFrom orig.length lo hs) (ht : IsText nl (applyFrom orig o hs)) :
    IsText nl (hs.flatMap cmdLines) := by
  induction hs generalizing o lo with
  | nil => trivial
  | cons h hs ih =>
    obtain ⟨hpos, hstop, hne, hcs⟩ := hcan
    simp only [applyFrom, List.append_assoc] at ht
    have htail := ht.append_right
    have hrest := ih (Nat.le_succ _) hcs htail.append_right
    have hcmd : ∀ l ∈ (if h.del = 0 then [] else
        [printCmd 100 ((h.pos + 1 : Nat) : Int) (h.del : Nat)]), FullLine nl l := by
      intro l hl
      split at hl
      · cases hl
      · rw [List.mem_singleton.mp hl]; exact fullLine_printCmd (by decide) _ _
    rw [List.flatMap_cons]
    by_cases hhs : hs.flatMap cmdLines = []
    · -- the last hunk: its lines are a text
      rw [hhs, List.append_nil, cmdLines]
      by_cases hadd : h.add = []
      · rw [if_pos hadd, List.append_nil]
        exact isText_of_full hcmd
      · rw [if_neg hadd, List.append_cons, isText_append hadd]
        refine ⟨fun l hl => ?_, htail.append_left⟩
        rcases List.mem_append.mp hl with hl | hl
        · exact hcmd l hl
        · rw [List.mem_singleton.mp hl]; exact fullLine_printCmd (by decide) _ _
    · -- a later hunk keeps a line, so that the added lines are full
      rw [isText_append hhs]
      refine ⟨fun l hl => ?_, hrest⟩
      obtain ⟨k, ks, rfl⟩ : ∃ k ks, hs = k :: ks := by
        cases hs with
        | nil => exact absurd rfl hhs
        | cons k ks => exact ⟨k, ks, rfl⟩
      have hkeep : applyFrom orig h.stop (k :: ks) ≠ [] := by
        have := applyFrom_ne_nil hcs
        simp only [applyFrom, ne_eq, List.append_eq_nil_iff, not_and]
        exact fun h => absurd h.1 this
      have hfull := ((isText_append hkeep).mp htail).1
      rw [cmdLines] at hl
      rcases List.mem_append.mp hl with hl | hl
      · exact hcmd l hl
      · split at hl
        · cases hl
        · rcases List.mem_cons.mp hl with rfl | hl
          · exact fullLine_printCmd (by decide) _ _
          · exact hfull l hl

theorem length_add_le {orig : List Line} {hs : List (Hunk Line)} {o lo : Nat} (hlo : o ≤ lo)
    (hcan : CanonicalFrom orig.length lo hs) :
    ∀ h ∈ hs, h.add.length ≤ (applyFrom orig o hs).length := by
  induction hs generalizing o lo with
  | nil => intro h hh; cases hh
  | cons k hs ih =>
    obtain ⟨hpos, hstop, hne, hcs⟩ := hcan
    intro h hh
    rw [length_applyFrom_cons (Nat.le_trans hlo hpos) hstop]
    rcases List.mem_cons.mp hh with rfl | hh
    · omega
    · have := ih (Nat.le_succ _) hcs h hh; omega

/-- `diff_apply` on the text of a canonical script gives the edited text. -/
theorem diffApply_render (he : ∀ l, exp l = none) {orig : List Line} {hs : List (Hunk Line)}
    (ho : IsText nl orig) (hcan : Canonical orig.length hs) (hr : IsText nl (applyScript orig hs))
    (hlo : (orig.length : Int) ≤ longMax) (hlr : ((applyScript orig hs).length : Int) ≤ longMax) :
    diffApply exp false (render hs) orig.flatten = some (applyScript orig hs).flatten := by
  have hat : (ApplySt.mk .zero ⟨orig, [], 0⟩ false).cur.At orig 0 := ⟨rfl, rfl⟩
  obtain ⟨st, hrun, hdest⟩ := applyLoop_cmdLines he (Nat.le_refl 0) hcan hat
    ⟨Int.le_refl 0, Int.le_refl 0⟩ hlo
    fun h hh => by
      have := length_add_le (Nat.le_refl 0) hcan h hh
      simp only [applyScript] at hlr
      omega
  rw [diffApply, render, splitLines_flatten (isText_cmdLines (Nat.le_refl 0) hcan hr),
    splitLines_flatten ho, hrun]
  simp only [Bool.false_eq_true, false_and, if_false, foldl_diffWrite_eq, map_writtenLine he, hdest,
    List.nil_append]

end Csup.Diff
