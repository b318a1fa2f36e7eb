import Mathlib.Data.List.Basic

/-!
# Scripts that address lines by their number

A script of commands on a list of lines, numbered from 1: delete `n` lines from
line `w` on, or add lines behind line `w`. Every number is one of the original.

* `edited`: what a script means, line by line: a line stays unless a command
  deletes it, and what is added behind it follows it;
* `runFrom`: what a program does that reads the original once, `p` lines of it
  so far, and takes the commands as they come;
* `runFrom_zero`: for commands in order (`Ordered`) the two agree, and the
  program fails iff a command addresses a line that is not there.
-/

namespace Csup.Framework

variable {α β : Type*}

inductive Cmd (α : Type*)
  | del (w n : Nat)
  | add (w : Nat) (ls : List α)

namespace Cmd

/-- The last line a command addresses. -/
def last : Cmd α → Nat
  | del w n => w + n - 1
  | add w _ => w

/-- The lines a command adds behind line `i`. -/
def addsAt (i : Nat) : Cmd α → List α
  | del _ _ => []
  | add w ls => if w = i then ls else []

/-- The lines a command adds behind one of the first `p` lines. -/
def addsUpTo (p : Nat) : Cmd α → List α
  | del _ _ => []
  | add w ls => if w ≤ p then ls else []

/-- A command deletes line `i`. -/
def deletes (i : Nat) : Cmd α → Bool
  | del w n => w ≤ i && i < w + n
  | add _ _ => false

/-- The lines a command adds. -/
def added : Cmd α → List α
  | del _ _ => []
  | add _ ls => ls

/-- The command with other lines. -/
def map (f : α → β) : Cmd α → Cmd β
  | del w n => del w n
  | add w ls => add w (ls.map f)

end Cmd

/-- What a script makes of lines, the first of which is line `i`. -/
def editFrom (cs : List (Cmd α)) : Nat → List α → List α
  | _, [] => []
  | i, l :: rest =>
    (if cs.any (Cmd.deletes i) then [] else [l]) ++ cs.flatMap (Cmd.addsAt i) ++
      editFrom cs (i + 1) rest

/-- What a script makes of all the lines. -/
def edited (cs : List (Cmd α)) (lines : List α) : List α :=
  cs.flatMap (Cmd.addsAt 0) ++ editFrom cs 1 lines

/-- Commands in order: `la` and `ld` are the first line behind which lines may
be added, and the first that may be deleted. -/
def Ordered : Nat → Nat → List (Cmd α) → Prop
  | _, _, [] => True
  | la, ld, .del w n :: cs => la ≤ w ∧ ld ≤ w ∧ 1 ≤ w ∧ 0 < n ∧ Ordered w (w + n) cs
  | la, ld, .add w _ :: cs => la ≤ w ∧ Ordered (w + 1) ld cs

/-- The original is read once: `p` lines of it are read, `rest` is to come. -/
def runFrom : Nat → List (Cmd α) → List α → Option (List α)
  | _, [], rest => some rest
  | p, .del w n :: cs, rest =>
    if w - 1 - p + n ≤ rest.length then
      (runFrom (max p (w - 1) + n) cs (rest.drop (w - 1 - p + n))).map (rest.take (w - 1 - p) ++ ·)
    else none
  | p, .add w ls :: cs, rest =>
    if w - p ≤ rest.length then
      (runFrom (max p w) cs (rest.drop (w - p))).map (rest.take (w - p) ++ ls ++ ·)
    else none

/-! ## The meaning of a script -/

section

variable {cs cs' : List (Cmd α)}

theorem editFrom_congr {i : Nat} (hd : ∀ j, i ≤ j → cs.any (Cmd.deletes j) = cs'.any (Cmd.deletes j))
    (ha : ∀ j, i ≤ j → cs.flatMap (Cmd.addsAt j) = cs'.flatMap (Cmd.addsAt j)) (lines : List α) :
    editFrom cs i lines = editFrom cs' i lines := by
  induction lines generalizing i with
  | nil => rfl
  | cons l lines ih =>
    simp only [editFrom]
    rw [hd i (Nat.le_refl i), ha i (Nat.le_refl i),
      ih (fun j hj => hd j (by omega)) (fun j hj => ha j (by omega))]

/-- Lines that are not deleted and have nothing added behind them. -/
theorem editFrom_keep (cs : List (Cmd α)) {i k : Nat} (lines : List α) (hk : k ≤ lines.length)
    (hd : ∀ j, i ≤ j → j < i + k → cs.any (Cmd.deletes j) = false)
    (ha : ∀ j, i ≤ j → j < i + k → cs.flatMap (Cmd.addsAt j) = []) :
    editFrom cs i lines = lines.take k ++ editFrom cs (i + k) (lines.drop k) := by
  induction k generalizing i lines with
  | zero => simp
  | succ k ih =>
    cases lines with
    | nil => simp at hk
    | cons l lines =>
      have hlen : k ≤ lines.length := by simpa using hk
      have h := ih (i := i + 1) lines hlen (fun j h1 h2 => hd j (by omega) (by omega))
        (fun j h1 h2 => ha j (by omega) (by omega))
      simp only [editFrom, hd i (Nat.le_refl i) (by omega), ha i (Nat.le_refl i) (by omega), h]
      simp [show i + 1 + k = i + (k + 1) by omega]

/-- Lines that are deleted. -/
theorem editFrom_delete (cs : List (Cmd α)) {i k : Nat} (lines : List α) (hk : k ≤ lines.length)
    (hd : ∀ j, i ≤ j → j < i + k → cs.any (Cmd.deletes j) = true) :
    editFrom cs i lines =
      (List.range' i k).flatMap (fun j => cs.flatMap (Cmd.addsAt j)) ++
        editFrom cs (i + k) (lines.drop k) := by
  induction k generalizing i lines with
  | zero => simp
  | succ k ih =>
    cases lines with
    | nil => simp at hk
    | cons l lines =>
      have hlen : k ≤ lines.length := by simpa using hk
      have h := ih (i := i + 1) lines hlen (fun j h1 h2 => hd j (by omega) (by omega))
      simp only [editFrom, hd i (Nat.le_refl i) (by omega), h, List.range'_succ, List.flatMap_cons]
      simp [show i + 1 + k = i + (k + 1) by omega]

theorem addsAt_zero (cs : List (Cmd α)) :
    cs.flatMap (Cmd.addsAt 0) = cs.flatMap (Cmd.addsUpTo 0) := by
  congr 1
  funext c
  cases c <;> simp [Cmd.addsAt, Cmd.addsUpTo]

end

/-- A script on other lines. -/
theorem edited_map (f : α → β) (cs : List (Cmd α)) (lines : List α) :
    edited (cs.map (Cmd.map f)) (lines.map f) = (edited cs lines).map f := by
  have hadds : ∀ i, (cs.map (Cmd.map f)).flatMap (Cmd.addsAt i) =
      (cs.flatMap (Cmd.addsAt i)).map f := by
    intro i
    rw [List.flatMap_map, List.map_flatMap]
    congr 1
    funext c
    cases c with
    | del w n => rfl
    | add w ls =>
      simp only [Cmd.map, Cmd.addsAt]
      split <;> rfl
  have hdel : ∀ i, (cs.map (Cmd.map f)).any (Cmd.deletes i) = cs.any (Cmd.deletes i) := by
    intro i
    rw [List.any_map]
    congr 1
    funext c
    cases c <;> rfl
  have hfrom : ∀ i, editFrom (cs.map (Cmd.map f)) i (lines.map f) =
      (editFrom cs i lines).map f := by
    induction lines with
    | nil => exact fun _ => rfl
    | cons l lines ih =>
      intro i
      simp only [List.map_cons, editFrom, hadds, hdel, ih, List.map_append]
      split <;> rfl
  rw [edited, edited, hadds, hfrom, List.map_append]

/-! ## Commands in order -/

namespace Ordered

variable {cs : List (Cmd α)} {la ld : Nat}

theorem le_add (h : Ordered la ld cs) {w : Nat} {ls : List α} (hc : .add w ls ∈ cs) : la ≤ w := by
  induction cs generalizing la ld with
  | nil => cases hc
  | cons c cs ih =>
    cases c with
    | del w' n =>
      obtain ⟨h1, -, -, -, h5⟩ := h
      have := ih h5 (by simpa using hc)
      omega
    | add w' ls' =>
      obtain ⟨h1, h2⟩ := h
      rcases List.mem_cons.mp hc with heq | hc
      · cases heq
        exact h1
      · have := ih h2 hc
        omega

theorem le_del (h : Ordered la ld cs) {w n : Nat} (hc : .del w n ∈ cs) :
    la ≤ w ∧ ld ≤ w ∧ 1 ≤ w ∧ 0 < n := by
  induction cs generalizing la ld with
  | nil => cases hc
  | cons c cs ih =>
    cases c with
    | del w' n' =>
      obtain ⟨h1, h2, h3, h4, h5⟩ := h
      rcases List.mem_cons.mp hc with heq | hc
      · cases heq
        exact ⟨h1, h2, h3, h4⟩
      · have := ih h5 hc
        omega
    | add w' ls' =>
      obtain ⟨h1, h2⟩ := h
      have := ih h2 (by simpa using hc)
      omega

theorem addsAt_nil (h : Ordered la ld cs) {i : Nat} (hi : i < la) :
    cs.flatMap (Cmd.addsAt i) = [] := by
  rw [List.flatMap_eq_nil_iff]
  intro c hc
  cases c with
  | del w n => rfl
  | add w ls =>
    have := h.le_add hc
    exact if_neg (by omega)

theorem addsUpTo_nil (h : Ordered la ld cs) {p : Nat} (hp : p < la) :
    cs.flatMap (Cmd.addsUpTo p) = [] := by
  rw [List.flatMap_eq_nil_iff]
  intro c hc
  cases c with
  | del w n => rfl
  | add w ls =>
    have := h.le_add hc
    exact if_neg (by omega)

theorem deletes_false (h : Ordered la ld cs) {i : Nat} (hi : i < la ∨ i < ld) :
    cs.any (Cmd.deletes i) = false := by
  rw [List.any_eq_false]
  intro c hc
  cases c with
  | del w n =>
    have := h.le_del hc
    simp only [Cmd.deletes, Bool.and_eq_true, decide_eq_true_eq]
    omega
  | add w ls => simp [Cmd.deletes]

/-- The additions of commands in order come by increasing line numbers. -/
theorem addsUpTo_succ (h : Ordered la ld cs) (p : Nat) :
    cs.flatMap (Cmd.addsUpTo (p + 1)) =
      cs.flatMap (Cmd.addsUpTo p) ++ cs.flatMap (Cmd.addsAt (p + 1)) := by
  induction cs generalizing la ld with
  | nil => rfl
  | cons c cs ih =>
    cases c with
    | del w n => simpa [Cmd.addsUpTo, Cmd.addsAt] using ih h.2.2.2.2
    | add w ls =>
      have h2 : Ordered (w + 1) ld cs := h.2
      simp only [List.flatMap_cons, ih h2, Cmd.addsUpTo, Cmd.addsAt]
      by_cases hp : w ≤ p
      · rw [if_pos (by omega), if_pos hp, if_neg (by omega)]
        simp
      · by_cases he : w = p + 1
        · rw [if_pos (by omega), if_neg hp, if_pos he, h2.addsUpTo_nil (by omega)]
          simp
        · rw [if_neg (by omega), if_neg hp, if_neg he]
          simp

theorem addsUpTo_add (h : Ordered la ld cs) (p k : Nat) :
    cs.flatMap (Cmd.addsUpTo (p + k)) =
      cs.flatMap (Cmd.addsUpTo p) ++
        (List.range' (p + 1) k).flatMap (fun j => cs.flatMap (Cmd.addsAt j)) := by
  induction k with
  | zero => simp
  | succ k ih =>
    rw [← Nat.add_assoc, h.addsUpTo_succ, ih, List.range'_concat, List.flatMap_append,
      List.append_assoc]
    simp [show p + 1 + k = p + k + 1 by omega]

end Ordered

/-! ## The run -/

/-- What is left to write behind the first `p` lines. -/
def editBehind (cs : List (Cmd α)) (p : Nat) (rest : List α) : List α :=
  cs.flatMap (Cmd.addsUpTo p) ++ editFrom cs (p + 1) rest

section

variable {cs : List (Cmd α)} {la ld p w n : Nat} {ls rest : List α}

/-- Lines are added behind a line that is read already. -/
theorem editBehind_add_le (hw : w ≤ p) :
    editBehind (.add w ls :: cs) p rest = ls ++ editBehind cs p rest := by
  have : editFrom (.add w ls :: cs) (p + 1) rest = editFrom cs (p + 1) rest :=
    editFrom_congr (fun j hj => by simp [Cmd.deletes])
      (fun j hj => by simp [Cmd.addsAt, show w ≠ j by omega]) rest
  simp [editBehind, this, Cmd.addsUpTo, hw]

theorem editBehind_add (h : Ordered (w + 1) ld cs) (hw : p ≤ w) (hlen : w - p ≤ rest.length) :
    editBehind (.add w ls :: cs) p rest =
      rest.take (w - p) ++ ls ++ editBehind cs w (rest.drop (w - p)) := by
  rcases Nat.eq_or_lt_of_le hw with rfl | hlt
  · simp [editBehind_add_le]
  -- the line behind which lines are added is the last of those copied
  have hkeep : editFrom (.add w ls :: cs) (p + 1) rest =
      rest.take (w - p) ++ ls ++ editFrom cs (w + 1) (rest.drop (w - p)) := by
    have h1 := editFrom_keep (.add w ls :: cs) (i := p + 1) (k := w - p - 1) rest (by omega)
      (fun j hj hj' => by
        simpa [Cmd.deletes] using h.deletes_false (i := j) (.inl (by omega)))
      (fun j hj hj' => by
        simpa [Cmd.addsAt, show w ≠ j by omega] using h.addsAt_nil (i := j) (by omega))
    obtain ⟨l, tl, hl⟩ : ∃ l tl, rest.drop (w - p - 1) = l :: tl := by
      apply List.exists_cons_of_ne_nil
      intro h0
      have := congrArg List.length h0
      simp only [List.length_drop, List.length_nil] at this
      omega
    have htl : tl = rest.drop (w - p) := by
      rw [show w - p = w - p - 1 + 1 by omega, ← List.drop_drop, hl]
      rfl
    have htake : rest.take (w - p) = rest.take (w - p - 1) ++ [l] := by
      rw [show w - p = w - p - 1 + 1 by omega, List.take_add, Nat.add_sub_cancel, hl]
      rfl
    rw [h1, hl, htake, ← htl, show p + 1 + (w - p - 1) = w by omega, editFrom]
    have hd : (Cmd.add w ls :: cs).any (Cmd.deletes w) = false := by
      simpa [Cmd.deletes] using h.deletes_false (i := w) (.inl (by omega))
    have ha : (Cmd.add w ls :: cs).flatMap (Cmd.addsAt w) = ls := by
      simpa [Cmd.addsAt] using h.addsAt_nil (i := w) (by omega)
    have hc : editFrom (.add w ls :: cs) (w + 1) tl = editFrom cs (w + 1) tl :=
      editFrom_congr (fun j hj => by simp [Cmd.deletes])
        (fun j hj => by simp [Cmd.addsAt, show w ≠ j by omega]) tl
    simp [hd, ha, hc]
  have hnil : (Cmd.add w ls :: cs).flatMap (Cmd.addsUpTo p) = [] := by
    simpa [Cmd.addsUpTo, show ¬ w ≤ p by omega] using h.addsUpTo_nil (p := p) (by omega)
  rw [editBehind, hnil, hkeep, editBehind, h.addsUpTo_nil (by omega)]
  simp

theorem editBehind_del (h : Ordered w (w + n) cs) (hw : p + 1 ≤ w) (hn : 0 < n)
    (hlen : w - 1 - p + n ≤ rest.length) :
    editBehind (.del w n :: cs) p rest =
      rest.take (w - 1 - p) ++ editBehind cs (w - 1 + n) (rest.drop (w - 1 - p + n)) := by
  have hnil : (Cmd.del w n :: cs).flatMap (Cmd.addsUpTo p) = [] := by
    simpa [Cmd.addsUpTo] using h.addsUpTo_nil (p := p) (by omega)
  have hadds : ∀ j, (Cmd.del w n :: cs).flatMap (Cmd.addsAt j) = cs.flatMap (Cmd.addsAt j) := by
    intro j
    simp [Cmd.addsAt]
  have hkeep := editFrom_keep (.del w n :: cs) (i := p + 1) (k := w - 1 - p) rest (by omega)
    (fun j hj hj' => by
      simpa [Cmd.deletes, show ¬ w ≤ j by omega] using h.deletes_false (i := j) (.inl (by omega)))
    (fun j hj hj' => by rw [hadds]; exact h.addsAt_nil (by omega))
  have hdel := editFrom_delete (.del w n :: cs) (i := w) (k := n)
    (rest.drop (w - 1 - p)) (by rw [List.length_drop]; omega)
    (fun j hj hj' => by simp [Cmd.deletes, hj, hj'])
  have hrest : editFrom (.del w n :: cs) (w + n) (rest.drop (w - 1 - p + n)) =
      editFrom cs (w + n) (rest.drop (w - 1 - p + n)) :=
    editFrom_congr (fun j hj => by simp [Cmd.deletes, show ¬ j < w + n by omega])
      (fun j hj => hadds j) _
  -- what is added behind the deleted lines is next in the script
  have hearly : cs.flatMap (Cmd.addsUpTo (w - 1 + n)) =
      (List.range' w n).flatMap (fun j => cs.flatMap (Cmd.addsAt j)) := by
    rw [h.addsUpTo_add, h.addsUpTo_nil (p := w - 1) (by omega), show w - 1 + 1 = w by omega]
    rfl
  rw [editBehind, hnil, List.nil_append, hkeep, show p + 1 + (w - 1 - p) = w by omega, hdel,
    List.drop_drop, hrest, editBehind, hearly, show w - 1 + n + 1 = w + n by omega]
  simp only [hadds]

end

/-- The run of commands in order, `p` being the last line they leave behind. -/
theorem runFrom_eq {cs : List (Cmd α)} {la ld p : Nat} {rest : List α} (h : Ordered la ld cs)
    (hp : p + 1 = max 1 (max la ld)) :
    runFrom p cs rest =
      if ∀ c ∈ cs, c.last ≤ p + rest.length then some (editBehind cs p rest) else none := by
  induction cs generalizing la ld p rest with
  | nil =>
    have : editFrom ([] : List (Cmd α)) (p + 1) rest = rest := by
      simpa [editFrom] using editFrom_keep ([] : List (Cmd α)) (i := p + 1) rest
        (Nat.le_refl rest.length) (fun _ _ _ => rfl) (fun _ _ _ => rfl)
    simp [runFrom, editBehind, this]
  | cons c cs ih =>
    cases c with
    | del w n =>
      obtain ⟨h1, h2, h3, h4, h5⟩ := h
      have hpw : p + 1 ≤ w := by omega
      simp only [runFrom]
      by_cases hlen : w - 1 - p + n ≤ rest.length
      · rw [if_pos hlen, Nat.max_eq_right (by omega), ih (p := w - 1 + n) h5 (by omega),
          editBehind_del h5 hpw h4 hlen, List.length_drop]
        have hiff : (∀ c ∈ cs, c.last ≤ w - 1 + n + (rest.length - (w - 1 - p + n))) ↔
            ∀ c ∈ .del w n :: cs, c.last ≤ p + rest.length := by
          rw [List.forall_mem_cons, Cmd.last]
          constructor
          · intro hc
            exact ⟨by omega, fun c hc' => by have := hc c hc'; omega⟩
          · rintro ⟨-, hc⟩ c hc'
            have := hc c hc'
            omega
        simp only [hiff]
        split <;> rfl
      · rw [if_neg hlen, if_neg]
        intro hc
        have := hc (.del w n) (by simp)
        simp only [Cmd.last] at this
        omega
    | add w ls =>
      obtain ⟨h1, h2⟩ := h
      simp only [runFrom]
      by_cases hlen : w - p ≤ rest.length
      · rw [if_pos hlen]
        have hedit : editBehind (.add w ls :: cs) p rest =
            rest.take (w - p) ++ ls ++ editBehind cs (max p w) (rest.drop (w - p)) := by
          by_cases hw : p ≤ w
          · rw [editBehind_add h2 hw hlen, Nat.max_eq_right hw]
          · rw [editBehind_add_le (by omega), Nat.max_eq_left (by omega),
              show w - p = 0 by omega]
            simp
        rw [ih (p := max p w) h2 (by omega), hedit, List.length_drop]
        have hiff : (∀ c ∈ cs, c.last ≤ max p w + (rest.length - (w - p))) ↔
            ∀ c ∈ .add w ls :: cs, c.last ≤ p + rest.length := by
          rw [List.forall_mem_cons, Cmd.last]
          constructor
          · intro hc
            exact ⟨by omega, fun c hc' => by have := hc c hc'; omega⟩
          · rintro ⟨-, hc⟩ c hc'
            have := hc c hc'
            omega
        simp only [hiff]
        split <;> simp
      · rw [if_neg hlen, if_neg]
        intro hc
        have := hc (.add w ls) (by simp)
        simp only [Cmd.last] at this
        omega

/-- The run of commands in order on all the lines. -/
theorem runFrom_zero {cs : List (Cmd α)} (lines : List α) (h : Ordered 0 0 cs) :
    runFrom 0 cs lines =
      if ∀ c ∈ cs, c.last ≤ lines.length then some (edited cs lines) else none := by
  rw [runFrom_eq h rfl, Nat.zero_add]
  simp only [editBehind, edited, addsAt_zero]

/-- A script without commands. -/
@[simp] theorem edited_nil (lines : List α) : edited [] lines = lines := by
  have h := runFrom_zero lines (show Ordered 0 0 [] from trivial)
  rw [if_pos (by simp), runFrom, Option.some.injEq] at h
  exact h.symm

end Csup.Framework
