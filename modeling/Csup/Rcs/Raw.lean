import Csup.Rcs.Format

/-!
# Texts with doubled `@`

The texts of a file are kept as they are written: each `@` is there twice. So are their lines, and a
script between two such texts.

* `IsScript.isRaw_text`, `IsScript.isRaw_res`: the script for a raw text, and what a raw script makes;
* `RcsDoc.Gives.isRaw`, `RcsDoc.Intact.isRaw_text`: the revisions of a file have raw texts if its
  entries have, and the other way round.
-/

namespace Csup.Rcs

open Csup.Framework Csup.Diff Csup.Lexer
open Csup.Rcsparse

section

variable {l l' : List Byte} {ls : List (List Byte)}

theorem isRaw_iff : IsRaw l ↔ ∃ s, double s = l :=
  ⟨fun h => ⟨halve l, h⟩, fun ⟨s, hs⟩ => hs ▸ isRaw_double s⟩

theorem isRaw_of_notMem (h : 64 ∉ l) : IsRaw l := isRaw_iff.mpr ⟨l, double_of_notMem h⟩

theorem isRaw_writestring (s : List Byte) : IsRaw (writestring s) := isRaw_double s

theorem isRaw_append (h : IsRaw l) (h' : IsRaw l') : IsRaw (l ++ l') := by
  obtain ⟨s, rfl⟩ := isRaw_iff.mp h
  obtain ⟨s', rfl⟩ := isRaw_iff.mp h'
  exact isRaw_iff.mpr ⟨s ++ s', double_append s s'⟩

theorem isRaw_flatten (h : ∀ l ∈ ls, IsRaw l) : IsRaw ls.flatten := by
  induction ls with
  | nil => exact isRaw_of_notMem (by simp)
  | cons l ls ih =>
    exact isRaw_append (h l List.mem_cons_self) (ih fun l hl => h l (.tail _ hl))

/-- A raw text may be cut behind a newline. -/
theorem isRaw_cut (h : IsRaw (l ++ nl :: l')) : IsRaw (l ++ [nl]) ∧ IsRaw l' := by
  obtain ⟨s, hs⟩ := isRaw_iff.mp h
  clear h
  induction s generalizing l with
  | nil => simp at hs
  | cons b s ih =>
    rw [double_cons] at hs
    by_cases hb : b = 64
    · rw [if_pos hb] at hs
      rcases l with - | ⟨c, - | ⟨d, l⟩⟩
      · exact absurd (List.cons.inj hs).1 (by decide)
      · exact absurd (List.cons.inj (List.cons.inj hs).2).1 (by decide)
      · obtain ⟨hc, hds⟩ := List.cons.inj hs
        obtain ⟨hd, hrest⟩ := List.cons.inj hds
        obtain ⟨hl, hl'⟩ := ih hrest
        rw [← hc, ← hd]
        have htwo := isRaw_append (isRaw_double [64]) hl
        exact ⟨htwo, hl'⟩
    · rw [if_neg hb] at hs
      rcases l with - | ⟨c, l⟩
      · exact ⟨isRaw_of_notMem (by decide), isRaw_iff.mpr ⟨s, (List.cons.inj hs).2⟩⟩
      · obtain ⟨hc, hrest⟩ := List.cons.inj hs
        obtain ⟨hl, hl'⟩ := ih hrest
        have hone : IsRaw [c] := isRaw_of_notMem (by simpa [← hc] using Ne.symm hb)
        have hline := isRaw_append hone hl
        exact ⟨hline, hl'⟩

/-- The lines of a raw text. -/
theorem isRaw_lines (ht : IsText nl ls) (h : IsRaw ls.flatten) : ∀ l ∈ ls, IsRaw l := by
  induction ls with
  | nil => exact fun _ hl => by cases hl
  | cons l ls ih =>
    by_cases hls : ls = []
    · subst hls
      exact fun l' hl' => by
        rw [List.mem_singleton.mp hl']
        simpa using h
    · obtain ⟨⟨w, hw, rfl⟩, hrest⟩ := (isText_cons hls).mp ht
      rw [List.flatten_cons, List.append_assoc] at h
      obtain ⟨hl, hl'⟩ := isRaw_cut h
      exact fun l' hmem => (List.mem_cons.mp hmem).elim (fun heq => heq ▸ hl) (ih hrest hl' l')

end

/-! ## Scripts -/

section

variable {orig text res : List Byte}

theorem isRaw_cmdLines {h : Hunk Line} (ha : ∀ l ∈ h.add, IsRaw l) : ∀ l ∈ cmdLines h, IsRaw l := by
  have hcmd {c : Byte} (hc : c ≠ 64) (w n : Nat) : IsRaw (printCmd c w n) := by
    refine isRaw_of_notMem ?_
    rw [printCmd_eq]
    simp only [List.cons_append, List.mem_cons, List.mem_append, not_or]
    exact ⟨hc.symm, ⟨notMem_printNat (by decide) w, by decide, notMem_printNat (by decide) n⟩,
      by decide, by simp⟩
  intro l hl
  rcases List.mem_append.mp hl with hl | hl
  · split at hl
    · cases hl
    · exact List.mem_singleton.mp hl ▸ hcmd (by decide) _ _
  · split at hl
    · cases hl
    · exact (List.mem_cons.mp hl).elim (fun heq => heq ▸ hcmd (by decide) _ _) (ha l)

/-- The script for a raw text. -/
theorem IsScript.isRaw_text (h : IsScript orig text res) (hres : IsRaw res) : IsRaw text := by
  obtain ⟨ls, hs, -, -, hr, -, -, -, rfl, rfl⟩ := h.canonical
  refine isRaw_flatten fun l hl => ?_
  obtain ⟨k, hk, hl⟩ := List.mem_flatMap.mp hl
  exact isRaw_cmdLines (fun l hl => isRaw_lines hr hres l (add_mem_applyFrom hk hl 0)) l hl

/-- What a raw script makes of a raw text. -/
theorem IsScript.isRaw_res (h : IsScript orig text res) (horig : IsRaw orig) (htext : IsRaw text) :
    IsRaw res := by
  obtain ⟨ls, hs, ho, hcan, hr, -, -, rfl, rfl, rfl⟩ := h.canonical
  have hlines := isRaw_lines (isText_cmdLines (Nat.le_refl 0) hcan hr) htext
  refine isRaw_flatten fun l hl => ?_
  rcases mem_applyFrom hl with hl | ⟨k, hk, hl⟩
  · exact isRaw_lines ho horig l hl
  · refine hlines l (List.mem_flatMap.mpr ⟨k, hk, List.mem_append_right _ ?_⟩)
    rw [if_neg (List.ne_nil_of_mem hl)]
    exact .tail _ hl

end

/-! ## Files -/

/-- All revisions have raw texts. -/
def Repo.Raw (s : Repo) : Prop := ∀ r rev, s r = some rev → IsRaw rev.text

namespace RcsDoc

variable {doc : RcsDoc} {r : Revnum} {rev : Rev}

theorem Gives.isRaw (ht : ∀ t ∈ doc.texts, IsRaw t.text) (h : doc.Gives r rev) : IsRaw rev.text := by
  induction h with
  | head hm _ => exact ht _ hm
  | child _ _ _ hm hs ih => exact hs.isRaw_res ih (ht _ hm)

theorem Intact.raw (hd : doc.Intact) (ht : ∀ t ∈ doc.texts, IsRaw t.text) : doc.repo.Raw :=
  fun _ _ hr => (hd.layout.repo_eq_some.mp hr).isRaw ht

theorem Intact.isRaw_text (hd : doc.Intact) (hraw : doc.repo.Raw) : ∀ t ∈ doc.texts, IsRaw t.text := by
  intro t ht
  have hl := hd.layout
  obtain ⟨rev, hg⟩ := hd.gives t.revnum (hl.mem_of_text ht)
  have hrev := hraw _ _ (hl.repo_eq_some.mpr hg)
  by_cases hhead : t.revnum = doc.head
  · rw [hhead] at hg
    have := hg.unique hl (.head ht hhead)
    rwa [this] at hrev
  · obtain ⟨t', ht', _, _, _, hrevt, -, -, hs, rfl⟩ := hg.child_of_ne hl hhead
    rw [hl.text_unique ht' ht hrevt] at hs
    exact hs.isRaw_text hrev

end RcsDoc

end Csup.Rcs
