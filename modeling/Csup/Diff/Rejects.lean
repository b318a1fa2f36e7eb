import Csup.Diff.Reverse
import Csup.Diff.Script

/-!
# Scripts that `diff_apply` and `diff_reverse` reject

`diff_apply` takes a script whose commands fit the original (`Fits`). Of this
`diff_reverse` sees no more than the commands in front of the first line that is
none: it fails where the added lines of one of them are cut short (`CutShort`),
and writes a reverse of what it has read in every other case.

* `applyLoop_iff`, `reverseLoop_iff`: the two loops;
* `rejects_iff`: the scripts that are rejected by both or taken by `diff_apply`.
-/

namespace Csup.Diff

open Csup.Framework

/-- The lines of a script that can be applied to an original of `n` lines, `done` of
which are read: commands and their lines, one empty line at most, to the end or to
a line that ends it. -/
inductive Fits (n : Int) : EditCmd → Bool → Int → List Line → Prop
  | eof (ec : EditCmd) (empty : Bool) (done : Int) : Fits n ec empty done []
  | stop (ec : EditCmd) (empty : Bool) (done : Int) (plus : Bool) {l : Line} (rd : List Line)
      (h : cline l = stopLine plus) : Fits n ec empty done (l :: rd)
  | empty {ec : EditCmd} {done : Int} {l : Line} {rd : List Line} (h : cline l = [])
      (hs : Fits n ec true done rd) : Fits n ec false done (l :: rd)
  | del {ec ec' : EditCmd} {empty : Bool} {done : Int} {l : Line} {rd : List Line}
      (h : diffGeteditcmd ec (cline l) = some ec') (hc : ec'.cmd = .del)
      (hn : max done (ec'.whereLine - 1) + ec'.count ≤ n)
      (hs : Fits n ec' empty (max done (ec'.whereLine - 1) + ec'.count) rd) :
      Fits n ec empty done (l :: rd)
  | add {ec ec' : EditCmd} {empty : Bool} {done : Int} {l : Line} {ls rd : List Line}
      (h : diffGeteditcmd ec (cline l) = some ec') (hc : ec'.cmd = .add)
      (hl : ls.length = ec'.count.toNat) (hn : max done ec'.whereLine ≤ n)
      (hs : Fits n ec' empty (max done ec'.whereLine) rd) : Fits n ec empty done (l :: (ls ++ rd))

/-- Commands and their lines, and then an `a` command with fewer lines than it says. -/
inductive CutShort : EditCmd → List Line → Prop
  | short {ec ec' : EditCmd} {l : Line} {rd : List Line}
      (h : diffGeteditcmd ec (cline l) = some ec') (hc : ec'.cmd = .add)
      (hl : rd.length < ec'.count.toNat) : CutShort ec (l :: rd)
  | del {ec ec' : EditCmd} {l : Line} {rd : List Line}
      (h : diffGeteditcmd ec (cline l) = some ec') (hc : ec'.cmd = .del) (hs : CutShort ec' rd) :
      CutShort ec (l :: rd)
  | add {ec ec' : EditCmd} {l : Line} {ls rd : List Line}
      (h : diffGeteditcmd ec (cline l) = some ec') (hc : ec'.cmd = .add)
      (hl : ls.length = ec'.count.toNat) (hs : CutShort ec' rd) : CutShort ec (l :: (ls ++ rd))

/-- The lines behind so many others. -/
theorem exists_append_of_le {α : Type*} {rd : List α} {k : Nat} (h : k ≤ rd.length) :
    ∃ ls rest, rd = ls ++ rest ∧ ls.length = k ∧ rest.length ≤ rd.length :=
  ⟨rd.take k, rd.drop k, (List.take_append_drop k rd).symm, List.length_take_of_le h,
    by rw [List.length_drop]; omega⟩

/-! ## `diff_apply` -/

variable {exp : Expander} {n : Int}

/-- The cursor behind `done` of `n` lines. -/
structure Cursor.Done (c : Cursor) (n done : Int) : Prop where
  editline_eq : c.editline = done
  left : done + c.orig.length = n

variable (exp) in
theorem Cursor.Done.copyln {c : Cursor} {done : Int} (h : c.Done n done) (dst : Int) :
    (diffCopyln exp c dst).2 = decide (max done dst ≤ n) ∧
      (max done dst ≤ n → (diffCopyln exp c dst).1.Done n (max done dst)) := by
  obtain ⟨he, hl⟩ := h
  rw [diffCopyln, copyLines_eq, he]
  refine ⟨?_, fun hle => ⟨?_, ?_⟩⟩
  · simp only [decide_eq_decide]
    omega
  · show done + (min (dst - done).toNat c.orig.length : Nat) = max done dst
    omega
  · show max done dst + ((c.orig.drop (dst - done).toNat).length : Nat) = n
    rw [List.length_drop]
    omega

theorem Cursor.Done.ignore {c : Cursor} {done count : Int} (h : c.Done n done) (h0 : 0 < count) :
    (ignoreLines count.toNat c).2 = decide (done + count ≤ n) ∧
      (done + count ≤ n → (ignoreLines count.toNat c).1.Done n (done + count)) := by
  obtain ⟨he, hl⟩ := h
  rw [ignoreLines_eq]
  refine ⟨?_, fun hle => ⟨?_, ?_⟩⟩
  · simp only [decide_eq_decide]
    omega
  · show c.editline + (min count.toNat c.orig.length : Nat) = done + count
    omega
  · show done + count + ((c.orig.drop count.toNat).length : Nat) = n
    rw [List.length_drop]
    omega

variable (exp) in
/-- A `d` command is carried out if its lines are there. -/
theorem applyLoop_del_iff (st : ApplySt) {done : Int} (hd : st.cur.Done n done) {ec : EditCmd}
    {l : Line} (rd : List Line) (h : diffGeteditcmd st.ec (cline l) = some ec) (hc : ec.cmd = .del) :
    (max done (ec.whereLine - 1) + ec.count ≤ n → ∃ cur : Cursor,
      cur.Done n (max done (ec.whereLine - 1) + ec.count) ∧
        applyLoop exp false (l :: rd) 0 st = applyLoop exp false rd 0 { st with ec, cur }) ∧
    (¬max done (ec.whereLine - 1) + ec.count ≤ n →
      applyLoop exp false (l :: rd) 0 st = none) := by
  obtain ⟨hne1, hne2⟩ := ne_of_diffGeteditcmd h
  obtain ⟨-, hcount, -⟩ := diffGeteditcmd_cases h
  obtain ⟨hok, hcur⟩ := hd.copyln exp (ec.whereLine - 1)
  simp only [applyLoop, if_neg hne1, if_neg hne2, h, hc]
  rcases hcopy : diffCopyln exp st.cur (ec.whereLine - 1) with ⟨cur, ok⟩
  rw [hcopy] at hok hcur
  simp only at hok hcur
  constructor
  · intro hn
    have hcur := hcur (by omega)
    obtain ⟨hok', hcur'⟩ := hcur.ignore hcount
    rw [decide_eq_true (by omega)] at hok hok'
    subst hok
    refine ⟨_, hcur' hn, ?_⟩
    have hign : ignoreLines ec.count.toNat cur = ((ignoreLines ec.count.toNat cur).1, true) :=
      Prod.ext rfl hok'
    simp only
    rw [hign]
  · intro hn
    by_cases hle : max done (ec.whereLine - 1) ≤ n
    · obtain ⟨hok', -⟩ := (hcur hle).ignore hcount
      rw [decide_eq_true hle] at hok
      rw [decide_eq_false hn] at hok'
      subst hok
      have hign : ignoreLines ec.count.toNat cur = ((ignoreLines ec.count.toNat cur).1, false) :=
        Prod.ext rfl hok'
      simp only
      rw [hign]
    · rw [decide_eq_false hle] at hok
      subst hok
      rfl

variable (exp) in
/-- So is an `a` command whose own lines are there. -/
theorem applyLoop_add_iff (st : ApplySt) {done : Int} (hd : st.cur.Done n done) {ec : EditCmd}
    {l : Line} {ls : List Line} (rd : List Line) (h : diffGeteditcmd st.ec (cline l) = some ec)
    (hc : ec.cmd = .add) (hl : ls.length = ec.count.toNat) :
    (max done ec.whereLine ≤ n → ∃ cur : Cursor, cur.Done n (max done ec.whereLine) ∧
      applyLoop exp false (l :: (ls ++ rd)) 0 st = applyLoop exp false rd 0 { st with ec, cur }) ∧
    (¬max done ec.whereLine ≤ n → applyLoop exp false (l :: (ls ++ rd)) 0 st = none) := by
  obtain ⟨hne1, hne2⟩ := ne_of_diffGeteditcmd h
  obtain ⟨hok, hcur⟩ := hd.copyln exp ec.whereLine
  simp only [applyLoop, if_neg hne1, if_neg hne2, h, hc]
  rcases hcopy : diffCopyln exp st.cur ec.whereLine with ⟨cur, ok⟩
  rw [hcopy] at hok hcur
  simp only at hok hcur
  constructor
  · intro hn
    obtain ⟨he, hleft⟩ := hcur hn
    rw [decide_eq_true hn] at hok
    subst hok
    refine ⟨{ cur with dest := cur.dest ++
      (ls.map fun l => writtenLine exp (addedLine false l)).flatten }, ⟨he, hleft⟩, ?_⟩
    rw [← hl]
    exact applyLoop_lines exp false ls rd _
  · intro hn
    rw [decide_eq_false hn] at hok
    subst hok
    rfl

theorem applyLoop_of_fits {ec : EditCmd} {empty : Bool} {done : Int} {rd : List Line}
    (h : Fits n ec empty done rd) {cur : Cursor} (hd : cur.Done n done) :
    (applyLoop exp false rd 0 ⟨ec, cur, empty⟩).isSome = true := by
  induction h generalizing cur with
  | eof => rfl
  | @stop ec empty done plus l rd h =>
    have hstop : stopLine plus = [46] ∨ stopLine plus = [46, 43] := by cases plus <;> simp [stopLine]
    simp only [applyLoop, h, if_pos hstop]
    rfl
  | empty h _ ih =>
    simp only [applyLoop, h]
    exact ih hd
  | @del ec ec' empty done l rd h hc hn _ ih =>
    obtain ⟨cur', hd', heq⟩ := (applyLoop_del_iff exp ⟨ec, cur, empty⟩ hd rd h hc).1 hn
    rw [heq]
    exact ih hd'
  | @add ec ec' empty done l ls rd h hc hl hn _ ih =>
    obtain ⟨cur', hd', heq⟩ := (applyLoop_add_iff exp ⟨ec, cur, empty⟩ hd rd h hc hl).1 hn
    rw [heq]
    exact ih hd'

theorem fits_of_applyLoop (k : Nat) {ec : EditCmd} {empty : Bool} {done : Int} {rd : List Line}
    (hk : rd.length ≤ k) {cur : Cursor} (hd : cur.Done n done)
    (h : (applyLoop exp false rd 0 ⟨ec, cur, empty⟩).isSome = true) : Fits n ec empty done rd := by
  induction k generalizing ec empty done rd cur with
  | zero =>
    obtain rfl : rd = [] := List.length_eq_zero_iff.mp (by omega)
    exact .eof ec empty done
  | succ k ih =>
    cases rd with
    | nil => exact .eof ec empty done
    | cons l rd =>
      have hrd : rd.length ≤ k := by simpa using hk
      by_cases hstop : cline l = [46] ∨ cline l = [46, 43]
      · rcases hstop with hstop | hstop
        · exact .stop ec empty done false rd hstop
        · exact .stop ec empty done true rd hstop
      by_cases hempty : cline l = []
      · simp only [applyLoop, if_neg hstop, if_pos hempty] at h
        cases empty with
        | true => cases h
        | false => exact .empty hempty (ih hrd hd h)
      rcases hcmd : diffGeteditcmd ec (cline l) with - | ec'
      · simp only [applyLoop, if_neg hstop, if_neg hempty, hcmd] at h
        cases h
      cases hc : ec'.cmd with
      | del =>
        obtain ⟨hyes, hno⟩ := applyLoop_del_iff exp ⟨ec, cur, empty⟩ hd rd hcmd hc
        by_cases hn : max done (ec'.whereLine - 1) + ec'.count ≤ n
        · obtain ⟨cur', hd', heq⟩ := hyes hn
          rw [heq] at h
          exact .del hcmd hc hn (ih hrd hd' h)
        · rw [hno hn] at h
          cases h
      | add =>
        by_cases hshort : rd.length < ec'.count.toNat
        · simp only [applyLoop, if_neg hstop, if_neg hempty, hcmd, hc] at h
          split at h
          · cases h
          · rw [applyLoop_short exp false hshort] at h
            cases h
        · obtain ⟨ls, rest, rfl, hl, hrest⟩ := exists_append_of_le (Nat.le_of_not_lt hshort)
          obtain ⟨hyes, hno⟩ :=
            applyLoop_add_iff exp ⟨ec, cur, empty⟩ hd rest hcmd hc hl
          by_cases hn : max done ec'.whereLine ≤ n
          · obtain ⟨cur', hd', heq⟩ := hyes hn
            rw [heq] at h
            exact .add hcmd hc hl hn (ih (by omega) hd' h)
          · rw [hno hn] at h
            cases h

/-- `diff_apply` without `comode` takes the scripts that fit. -/
theorem diffApply_none_iff (exp : Expander) (rd orig : List Byte) :
    diffApply exp false rd orig = none ↔
      ¬Fits (splitLines nl orig).length .zero false 0 (splitLines nl rd) := by
  have hd : Cursor.Done ⟨splitLines nl orig, [], 0⟩ (splitLines nl orig).length 0 :=
    ⟨rfl, Int.zero_add _⟩
  have hiff : (applyLoop exp false (splitLines nl rd) 0
      ⟨.zero, ⟨splitLines nl orig, [], 0⟩, false⟩).isSome = true ↔
        Fits (splitLines nl orig).length .zero false 0 (splitLines nl rd) :=
    ⟨fits_of_applyLoop _ (Nat.le_refl _) hd, fun h => applyLoop_of_fits h hd⟩
  rw [← hiff, diffApply]
  rcases applyLoop exp false (splitLines nl rd) 0 ⟨.zero, ⟨splitLines nl orig, [], 0⟩, false⟩ with
    - | ⟨line, st⟩
  · simp
  · simp

/-! ## `diff_reverse` -/

theorem reverseLoop_short {rd : List Line} {k : Nat} (hk : rd.length < k) (st : ReverseSt) :
    reverseLoop rd k st = none := by
  induction rd generalizing k with
  | nil =>
    obtain ⟨m, rfl⟩ : ∃ m, k = m + 1 := ⟨k - 1, by simp only [List.length_nil] at hk; omega⟩
    rfl
  | cons l rd ih =>
    obtain ⟨m, rfl⟩ : ∃ m, k = m + 1 := ⟨k - 1, by omega⟩
    exact ih (by simpa using hk)

theorem reverseLoop_of_cutShort {ec : EditCmd} {rd : List Line} (h : CutShort ec rd) {st : ReverseSt}
    (hst : st.ec = ec) : reverseLoop rd 0 st = none := by
  induction h generalizing st with
  | short h hc hl =>
    subst hst
    simp only [reverseLoop, h, hc]
    exact reverseLoop_short hl _
  | del h hc _ ih =>
    subst hst
    simp only [reverseLoop, h, hc]
    exact ih rfl
  | add h hc hl _ ih =>
    subst hst
    simp only [reverseLoop, h, hc, ← hl, reverseLoop_pending]
    exact ih rfl

theorem cutShort_of_reverseLoop (k : Nat) {rd : List Line} (hk : rd.length ≤ k) {st : ReverseSt}
    (h : reverseLoop rd 0 st = none) : CutShort st.ec rd := by
  induction k generalizing rd st with
  | zero =>
    obtain rfl : rd = [] := List.length_eq_zero_iff.mp (by omega)
    cases h
  | succ k ih =>
    cases rd with
    | nil => cases h
    | cons l rd =>
      have hrd : rd.length ≤ k := by simpa using hk
      rcases hcmd : diffGeteditcmd st.ec (cline l) with - | ec'
      · simp only [reverseLoop, hcmd] at h
        cases h
      cases hc : ec'.cmd with
      | del =>
        simp only [reverseLoop, hcmd, hc] at h
        exact .del hcmd hc (ih hrd h)
      | add =>
        by_cases hshort : rd.length < ec'.count.toNat
        · exact .short hcmd hc hshort
        · obtain ⟨ls, rest, rfl, hl, hrest⟩ := exists_append_of_le (Nat.le_of_not_lt hshort)
          simp only [reverseLoop, hcmd, hc, ← hl, reverseLoop_pending] at h
          exact .add hcmd hc hl (ih (by omega) h)

/-- `diff_reverse` rejects the scripts that are cut short behind commands. -/
theorem diffReverse_none_iff (exp : Expander) (rd orig : List Byte) :
    diffReverse exp rd orig = none ↔ CutShort .zero (splitLines nl rd) := by
  have hiff : reverseLoop (splitLines nl rd) 0 ⟨.zero, none, 0, []⟩ = none ↔
      CutShort .zero (splitLines nl rd) :=
    ⟨fun h => cutShort_of_reverseLoop _ (Nat.le_refl _) h, fun h => reverseLoop_of_cutShort h rfl⟩
  rw [← hiff, diffReverse]
  rcases reverseLoop (splitLines nl rd) 0 ⟨.zero, none, 0, []⟩ with - | st
  · simp
  · simp

/-- A script that `diff_apply` fails on is rejected by `diff_reverse` if and only if it
is cut short behind commands. -/
theorem rejects_iff (scan : Line → Option Line) (rd orig : List Byte) :
    (diffApply (expandOld scan) false rd orig = none →
      diffReverse (expandOld scan) rd orig = none) ↔
    Fits (splitLines nl orig).length .zero false 0 (splitLines nl rd) ∨
      CutShort .zero (splitLines nl rd) := by
  rw [diffApply_none_iff, diffReverse_none_iff, Classical.or_iff_not_imp_left]

/-- `d5 1` on a file of one line. -/
theorem not_rejects : ¬ ∀ (scan : Line → Option Line) (rd orig : List Byte),
    diffApply (expandOld scan) false rd orig = none →
      diffReverse (expandOld scan) rd orig = none := by
  intro h
  have hnone := h (fun _ => none) (bytes "d5 1\n".toList) (bytes "x\n".toList) (by decide)
  exact absurd hnone (by decide)

end Csup.Diff
