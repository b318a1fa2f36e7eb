import Mathlib.Data.List.Basic

/-!
# Edit scripts

A script is a list of hunks on a list of lines `orig`. A hunk replaces `del`
lines behind the first `pos` lines by the lines `add`. In a canonical script
(`Canonical`) the hunks come in increasing positions, two of them separated by
at least one line that stays, and none of them is empty.

* `applyFrom`: the lines from the `o`th on, edited;
* `reverseFrom`: the script that undoes a script. `o` and `n` count the lines of
  `orig` and of the result that lie behind.
* `applyFrom_reverseFrom`, `canonicalFrom_reverseFrom`: it does, and is
  canonical.
-/

namespace Csup.Framework

variable {α : Type*}

structure Hunk (α : Type*) where
  pos : Nat
  del : Nat
  add : List α

/-- The line behind a hunk. -/
abbrev Hunk.stop (h : Hunk α) : Nat := h.pos + h.del

/-- A canonical script on `n` lines whose first hunk lies at `lo` or behind. -/
def CanonicalFrom (n : Nat) : Nat → List (Hunk α) → Prop
  | _, [] => True
  | lo, h :: hs =>
    lo ≤ h.pos ∧ h.stop ≤ n ∧ (0 < h.del ∨ h.add ≠ []) ∧ CanonicalFrom n (h.stop + 1) hs

/-- A canonical script on `n` lines. -/
abbrev Canonical (n : Nat) (hs : List (Hunk α)) : Prop := CanonicalFrom n 0 hs

/-- The lines of `orig` from the `o`th on, edited. -/
def applyFrom (orig : List α) : Nat → List (Hunk α) → List α
  | o, [] => orig.drop o
  | o, h :: hs => (orig.drop o).take (h.pos - o) ++ h.add ++ applyFrom orig h.stop hs

/-- `applyFrom` from the first line on. -/
abbrev applyScript (orig : List α) (hs : List (Hunk α)) : List α := applyFrom orig 0 hs

/-- The script that undoes `hs`. -/
def reverseFrom (orig : List α) : Nat → Nat → List (Hunk α) → List (Hunk α)
  | _, _, [] => []
  | o, n, h :: hs =>
    ⟨n + (h.pos - o), h.add.length, (orig.drop h.pos).take h.del⟩ ::
      reverseFrom orig h.stop (n + (h.pos - o) + h.add.length) hs

abbrev reverseScript (orig : List α) (hs : List (Hunk α)) : List (Hunk α) :=
  reverseFrom orig 0 0 hs

theorem CanonicalFrom.mono {n lo lo' : Nat} (hl : lo' ≤ lo) {hs : List (Hunk α)}
    (h : CanonicalFrom n lo hs) : CanonicalFrom n lo' hs := by
  cases hs with
  | nil => trivial
  | cons k hs => exact ⟨Nat.le_trans hl h.1, h.2⟩

section

variable {orig : List α} {lo o n : Nat} {hs : List (Hunk α)}

theorem length_applyFrom_cons {h : Hunk α} (ho : o ≤ h.pos) (hn : h.stop ≤ orig.length) :
    (applyFrom orig o (h :: hs)).length =
      (h.pos - o) + h.add.length + (applyFrom orig h.stop hs).length := by
  simp only [Hunk.stop] at hn
  simp only [applyFrom, List.length_append, List.length_take, List.length_drop]
  omega

/-- A script with a hunk behind line `o` keeps a line. -/
theorem applyFrom_ne_nil {h : Hunk α} (hc : CanonicalFrom orig.length (o + 1) (h :: hs)) :
    (orig.drop o).take (h.pos - o) ≠ [] := by
  obtain ⟨hpos, hstop, -⟩ := hc
  simp only [Hunk.stop] at hstop
  have : ((orig.drop o).take (h.pos - o)).length = h.pos - o := by
    simp only [List.length_take, List.length_drop]; omega
  intro h0
  rw [h0] at this
  simp only [List.length_nil] at this
  omega

theorem applyFrom_reverseFrom (ho : o ≤ lo) (hc : CanonicalFrom orig.length lo hs) {res : List α}
    (hres : res.drop n = applyFrom orig o hs) :
    applyFrom res n (reverseFrom orig o n hs) = orig.drop o := by
  induction hs generalizing lo o n with
  | nil => simpa [applyFrom, reverseFrom] using hres
  | cons h hs ih =>
    obtain ⟨hpos, hstop, -, hcs⟩ := hc
    simp only [applyFrom, reverseFrom] at hres ⊢
    simp only [Hunk.stop] at hstop
    have hkeep : ((orig.drop o).take (h.pos - o)).length = h.pos - o := by
      simp only [List.length_take, List.length_drop]; omega
    -- the kept lines of the result are those of `orig`
    have htake : (res.drop n).take (n + (h.pos - o) - n) = (orig.drop o).take (h.pos - o) := by
      rw [hres, Nat.add_sub_cancel_left, List.append_assoc, List.take_left' hkeep]
    have hdrop : res.drop (n + (h.pos - o) + h.add.length) = applyFrom orig h.stop hs := by
      rw [Nat.add_assoc, ← List.drop_drop, hres]
      exact List.drop_left' (by rw [List.length_append, hkeep])
    rw [htake, ih (Nat.le_succ _) hcs hdrop, Hunk.stop]
    rw [List.append_assoc, ← List.drop_drop, List.take_append_drop]
    have hsum : orig.drop h.pos = (orig.drop o).drop (h.pos - o) := by
      rw [List.drop_drop, Nat.add_sub_cancel' (Nat.le_trans ho hpos)]
    rw [hsum, List.take_append_drop]

theorem canonicalFrom_reverseFrom (ho : o ≤ lo) (hc : CanonicalFrom orig.length lo hs) {m : Nat}
    (hm : n + (applyFrom orig o hs).length ≤ m) :
    CanonicalFrom m (n + (lo - o)) (reverseFrom orig o n hs) := by
  induction hs generalizing lo o n with
  | nil => trivial
  | cons h hs ih =>
    obtain ⟨hpos, hstop, hne, hcs⟩ := hc
    rw [length_applyFrom_cons (Nat.le_trans ho hpos) hstop] at hm
    simp only [reverseFrom]
    refine ⟨by simp only; omega, by simp only [Hunk.stop]; omega, ?_, ?_⟩
    · rcases hne with hd | ha
      · refine .inr fun h0 => ?_
        have := congrArg List.length h0
        simp only [List.length_take, List.length_drop, List.length_nil] at this
        simp only [Hunk.stop] at hstop
        omega
      · exact .inl (List.length_pos_of_ne_nil ha)
    · have := ih (Nat.le_succ _) hcs (n := n + (h.pos - o) + h.add.length) (by omega)
      simpa using this

end

/-- The reverse of a script turns the result back into the original. -/
theorem applyScript_reverseScript {orig : List α} {hs : List (Hunk α)}
    (hc : Canonical orig.length hs) :
    applyScript (applyScript orig hs) (reverseScript orig hs) = orig :=
  applyFrom_reverseFrom (Nat.le_refl 0) hc rfl

theorem canonical_reverseScript {orig : List α} {hs : List (Hunk α)}
    (hc : Canonical orig.length hs) :
    Canonical (applyScript orig hs).length (reverseScript orig hs) :=
  canonicalFrom_reverseFrom (Nat.le_refl 0) hc (by simp)

/-- The lines of the result. -/
theorem mem_applyFrom {orig : List α} {o : Nat} {hs : List (Hunk α)} {l : α}
    (h : l ∈ applyFrom orig o hs) : l ∈ orig ∨ ∃ k ∈ hs, l ∈ k.add := by
  induction hs generalizing o with
  | nil => exact .inl (List.mem_of_mem_drop h)
  | cons k hs ih =>
    rw [applyFrom, List.append_assoc] at h
    rcases List.mem_append.mp h with h | h
    · exact .inl (List.mem_of_mem_drop (List.mem_of_mem_take h))
    · rcases List.mem_append.mp h with h | h
      · exact .inr ⟨k, List.mem_cons_self, h⟩
      · exact (ih h).imp_right fun ⟨k', hk', hl⟩ => ⟨k', .tail _ hk', hl⟩

theorem add_mem_applyFrom {orig : List α} {hs : List (Hunk α)} {k : Hunk α} (hk : k ∈ hs) {l : α}
    (hl : l ∈ k.add) (o : Nat) : l ∈ applyFrom orig o hs := by
  induction hs generalizing o with
  | nil => cases hk
  | cons k' hs ih =>
    rw [applyFrom, List.append_assoc]
    refine List.mem_append_right _ ?_
    rcases List.mem_cons.mp hk with rfl | hk
    · exact List.mem_append_left _ hl
    · exact List.mem_append_right _ (ih hk _)

/-! ## Other lines -/

section

variable {β : Type*} (f : α → β)

def Hunk.map (h : Hunk α) : Hunk β := ⟨h.pos, h.del, h.add.map f⟩

theorem applyFrom_map (orig : List α) (o : Nat) (hs : List (Hunk α)) :
    applyFrom (orig.map f) o (hs.map (Hunk.map f)) = (applyFrom orig o hs).map f := by
  induction hs generalizing o with
  | nil => simp [applyFrom]
  | cons h hs ih =>
    rw [List.map_cons, applyFrom, applyFrom, show (h.map f).stop = h.stop from rfl, ih]
    simp [Hunk.map]

theorem canonicalFrom_map {n lo : Nat} {hs : List (Hunk α)} (h : CanonicalFrom n lo hs) :
    CanonicalFrom n lo (hs.map (Hunk.map f)) := by
  induction hs generalizing lo with
  | nil => trivial
  | cons k hs ih =>
    obtain ⟨hlo, hstop, hne, hrest⟩ := h
    exact ⟨hlo, hstop, by simpa [Hunk.map] using hne, ih hrest⟩

end

end Csup.Framework
