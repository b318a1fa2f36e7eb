import Mathlib.Data.List.ReduceOption
import Csup.Proto.Codec

/-!
# The words of a line: `proto.c`

A word is what stands between two blanks. A word that is a lone backslash is not
empty, so that `proto_get_ascii` takes it, but the string it returns is:
`protoUnescape_eq_nil`.

* `getAsciis_of_accepts`: the test behind the last field covers the fields in front
  of it;
* `mem_getAsciis`: the empty string among the fields that are read.
-/

namespace Csup.Proto

open Csup.Framework

/-! ## Strings -/

/-- A word stands for the empty string when it is empty or a lone backslash. -/
theorem protoUnescape_eq_nil {w : List Byte} : protoUnescape w = [] ↔ w = [] ∨ w = [92] := by
  fun_cases protoUnescape w with
  | case1 c s => simp
  | case2 => simp
  | case3 c s h1 h2 =>
    refine iff_of_false (List.cons_ne_nil _ _) ?_
    rintro (h | h)
    · cases h
    · cases h
      exact h2 rfl rfl
  | case4 => simp

theorem zero_notMem_protoUnescape {s : List Byte} (h : 0 ∉ s) : 0 ∉ protoUnescape s := by
  fun_induction protoUnescape s with
  | case1 c s ih =>
    simp only [List.mem_cons, not_or] at h ⊢
    refine ⟨?_, ih h.2.2⟩
    split_ifs <;> first | decide | exact h.2.1
  | case2 => exact List.not_mem_nil
  | case3 c s _ _ ih =>
    simp only [List.mem_cons, not_or] at h ⊢
    exact ⟨h.1, ih h.2⟩
  | case4 => exact List.not_mem_nil

theorem zero_notMem_cline (l : List Byte) : 0 ∉ cline l := zero_notMem_cstr _

/-- What is behind a field is a part of the line. -/
theorem subset_rest {line r : List Byte} (h : (protoGetAscii (some line)).2 = some r) :
    r ⊆ line := by
  rcases line_cases line with hl | ⟨hne, hf⟩ | ⟨f, t, hne, hf, rfl⟩
  · rw [protoGetAscii_empty hl] at h
    cases h
  · rw [protoGetAscii_last hne hf] at h
    cases h
  · rw [protoGetAscii_field hne hf] at h
    cases h
    exact fun b hb => by simp [hb]

theorem subset_joined {fs : List (List Byte)} {f : List Byte} (hf : f ∈ fs) : f ⊆ joined fs := by
  induction fs with
  | nil => cases hf
  | cons g fs ih =>
    by_cases hfs : fs = []
    · subst hfs
      rw [List.mem_singleton.mp hf]
      exact List.Subset.refl _
    · rw [joined_cons g hfs]
      rcases List.mem_cons.mp hf with rfl | hmem
      · exact List.subset_append_left _ _
      · exact fun b hb => by simp [ih hmem hb]

/-! ## The fields of a command -/

/-- The test behind the last field covers the fields in front of it: there are so many
words, none of them is empty, and the fields are what they stand for. -/
theorem getAsciis_of_accepts {k : Nat} (hk : 1 ≤ k) {line : Option (List Byte)}
    (h : Accepts k line) :
    ∃ fs : List (List Byte), fs.length = k ∧ (∀ f ∈ fs, IsField f) ∧ line = some (joined fs) ∧
      getAsciis k line = (fs.map fun f => some (protoUnescape f), none) := by
  rcases line with - | line
  · exact absurd h (not_accepts_null k)
  · obtain ⟨fs, hlen, hfs, rfl⟩ := (accepts_iff hk line).mp h
    have hne : fs ≠ [] := by
      intro h0
      rw [h0, List.length_nil] at hlen
      omega
    refine ⟨fs, hlen, hfs, rfl, ?_⟩
    rw [← hlen]
    exact getAsciis_joined hne hfs

/-! ## Lone backslashes -/

/-- One of the next `n` words, up to an empty one, is a lone backslash. -/
def LoneAmong : Nat → List Byte → Prop
  | 0, _ => False
  | n + 1, line =>
    match cut 32 line with
    | none => line = [92]
    | some (w, r) => w = [92] ∨ w ≠ [] ∧ LoneAmong n r

/-- One field, then the others. -/
theorem mem_getAsciis_succ (n : Nat) (line : Option (List Byte)) :
    some [] ∈ (getAsciis (n + 1) line).1 ↔
      (protoGetAscii line).1 = some [] ∨ some [] ∈ (getAsciis n (protoGetAscii line).2).1 := by
  simp only [getAsciis, List.mem_cons]
  exact or_congr_left eq_comm

theorem notMem_getAsciis_null (n : Nat) : some [] ∉ (getAsciis n none).1 := by
  rw [getAsciis_null]
  simp [List.mem_replicate]

/-- The empty string among the fields that are read. -/
theorem mem_getAsciis (n : Nat) (line : List Byte) :
    some [] ∈ (getAsciis n (some line)).1 ↔ LoneAmong n line := by
  induction n generalizing line with
  | zero => simp [getAsciis, LoneAmong]
  | succ n ih =>
    rw [mem_getAsciis_succ]
    rcases line_cases line with hl | ⟨hne, hf⟩ | ⟨f, r, hne, hf, rfl⟩
    · have hlone : ¬LoneAmong (n + 1) line := by
        rcases hl with rfl | ⟨r, rfl⟩
        · simp [LoneAmong, cut]
        · simp [LoneAmong, cut]
      rw [protoGetAscii_empty hl]
      simpa [notMem_getAsciis_null] using hlone
    · rw [protoGetAscii_last hne hf, LoneAmong, cut_eq_none.mpr hf]
      simp [notMem_getAsciis_null, protoUnescape_eq_nil, hne]
    · rw [protoGetAscii_field hne hf, LoneAmong, cut_append hf]
      simp [ih, protoUnescape_eq_nil, hne]

/-- The first word is a lone backslash. -/
theorem protoGetAscii_lone (line : List Byte) :
    (protoGetAscii (some line)).1 = some [] ↔ LoneAmong 1 line := by
  rw [← mem_getAsciis, mem_getAsciis_succ]
  simp [getAsciis]

end Csup.Proto
