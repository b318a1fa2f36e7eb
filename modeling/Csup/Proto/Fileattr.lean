import Csup.Fattr.Defs
import Csup.Proto.Tokens

/-!
# Attribute support negotiation: `proto_fileattr`

The client sends the attributes that it supports of each file type, and the
server answers with a count, so many masks and a line with a dot. `support` has what is
written to the table of the function, with the index of each write, whether it
is an index of the table or not.

`readMasks_ok` and `clearFrom_lookup` are the two loops; `protoFileattr_iff` says
that all writes are in the table, and the table is the intersection of the masks,
if and only if the count that is announced is not negative.
-/

namespace Csup.Proto

open Csup.Attrs

/-- `FT_NUMBER` -/
def ftNumber : Int := 6

/-- The writes to `support`, the last one first. -/
abbrev Writes := List (Int × Mask)

/-- What is sent before the answer. -/
def attrRequest (fflags : Bool) : List Byte :=
  bytes "ATTR ".toList ++ printInt ftNumber ++ nl ::
    [FileType.unknown, .file, .directory, .cdev, .bdev, .symlink].flatMap (fun t =>
      printRadix 16 (fattrSupported fflags t).toNat ++ [nl]) ++ [46, nl]

/-- The loop over the masks, from the index `i` on: the writes, and the lines that
are left when all masks could be read. -/
def readMasks (fflags : Bool) :
    Nat → Nat → List (List Byte) → Writes → Writes × Option (List (List Byte))
  | 0, _, lines, ws => (ws, some lines)
  | _ + 1, _, [], ws => (ws, none)
  | n + 1, i, l :: lines, ws =>
    match (protoGetInt 16 (some (cline l))).1 with
    | none => (ws, none)
    | some attr =>
      readMasks fflags n (i + 1) lines
        ((i, fattrSupported fflags (.ofInt i) &&& BitVec.ofInt 32 attr) :: ws)

/-- The loop over the other types, from the index `i` on. -/
def clearFrom : Nat → Int → Writes → Writes
  | 0, _, ws => ws
  | n + 1, i, ws => clearFrom n (i + 1) ((i, 0) :: ws)

/-- The count of the first line, when it is accepted, and the lines behind it. -/
def announced : List (List Byte) → Option (Int × List (List Byte))
  | [] => none
  | l :: lines =>
    let (cmd, line) := protoGetAscii (some (cline l))
    match protoGetInt 10 line with
    | (some n, none) =>
      if cmd = some (bytes "ATTR".toList) ∧ n ≤ ftNumber then some (n, lines) else none
    | _ => none

structure Outcome where
  sent : List Byte
  support : Writes
  /-- `STATUS_SUCCESS`, with the table copied to the configuration -/
  success : Bool

/-- `proto_fileattr` on the lines of the answer. -/
def protoFileattr (fflags : Bool) (lines : List (List Byte)) : Outcome :=
  match announced lines with
  | none => ⟨attrRequest fflags, [], false⟩
  | some (n, lines) =>
    match readMasks fflags n.toNat 0 lines [] with
    | (ws, none) => ⟨attrRequest fflags, ws, false⟩
    | (ws, some lines) =>
      ⟨attrRequest fflags, clearFrom (ftNumber - n).toNat n ws,
        lines.head?.any fun l => cline l = [46]⟩

/-- What the negotiation is for. -/
structure Negotiated (fflags : Bool) (lines : List (List Byte)) (r : Outcome) : Prop where
  bounds : ∀ w ∈ r.support, 0 ≤ w.1 ∧ w.1 < ftNumber
  /-- The table when it succeeds. -/
  table : r.success = true → ∃ n masks, announced lines = some (n, masks) ∧
    ∀ i : Nat, i < ftNumber →
    (i < n → ∃ l attr, masks[i]? = some l ∧ (protoGetInt 16 (some (cline l))).1 = some attr ∧
      r.support.lookup (i : Int) =
        some (fattrSupported fflags (.ofInt i) &&& BitVec.ofInt 32 attr)) ∧
    (n ≤ i → r.support.lookup (i : Int) = some 0)

variable {fflags : Bool} {lines : List (List Byte)}

/-! ## The loops -/

theorem clearFrom_lookup (n : Nat) (i : Int) (ws : Writes) (j : Int) :
    (clearFrom n i ws).lookup j = if i ≤ j ∧ j < i + n then some 0 else ws.lookup j := by
  induction n generalizing i ws with
  | zero =>
    rw [clearFrom, if_neg (by omega)]
  | succ n ih =>
    rw [clearFrom, ih, List.lookup_cons]
    by_cases hj : j = i
    · subst hj
      rw [if_neg (by omega), if_pos (by omega), beq_self_eq_true]
    · have hb : (j == i) = false := beq_false_of_ne hj
      rw [hb]
      by_cases hr : i + 1 ≤ j ∧ j < i + 1 + n
      · rw [if_pos hr, if_pos (by omega)]
      · rw [if_neg hr, if_neg (by omega)]

theorem mem_clearFrom {n : Nat} {i : Int} {ws : Writes} {w : Int × Mask}
    (h : w ∈ clearFrom n i ws) : w ∈ ws ∨ i ≤ w.1 ∧ w.1 < i + n := by
  induction n generalizing i ws with
  | zero => exact .inl h
  | succ n ih =>
    rcases ih h with h | h
    · rcases List.mem_cons.mp h with rfl | h
      · exact .inr ⟨Int.le_refl _, by simp only; omega⟩
      · exact .inl h
    · exact .inr (by omega)

theorem mem_clearFrom_first (n : Nat) (i : Int) (ws : Writes) : (i, 0) ∈ clearFrom (n + 1) i ws := by
  suffices H : ∀ m j ws, (i, 0) ∈ ws → (i, 0) ∈ clearFrom m j ws from
    H n (i + 1) _ List.mem_cons_self
  intro m
  induction m with
  | zero => exact fun _ _ h => h
  | succ m ih => exact fun j ws h => ih (j + 1) _ (.tail _ h)

theorem mem_readMasks {n i : Nat} {ws ws' : Writes} {rest : Option (List (List Byte))}
    (h : readMasks fflags n i lines ws = (ws', rest)) {w : Int × Mask} (hw : w ∈ ws') :
    w ∈ ws ∨ i ≤ w.1 ∧ w.1 < i + n := by
  induction n generalizing i lines ws with
  | zero =>
    cases h
    exact .inl hw
  | succ n ih =>
    cases lines with
    | nil =>
      cases h
      exact .inl hw
    | cons l lines =>
      rw [readMasks] at h
      split at h
      · cases h
        exact .inl hw
      · rcases ih h with hw | hw
        · rcases List.mem_cons.mp hw with rfl | hw
          · exact .inr ⟨Int.le_refl _, by simp only; omega⟩
          · exact .inl hw
        · exact .inr (by omega)

/-- When all masks are read, each is where it belongs, and no other entry has
changed. -/
theorem readMasks_ok {n i : Nat} {ws ws' : Writes} {rest : List (List Byte)}
    (h : readMasks fflags n i lines ws = (ws', some rest)) :
    (∀ j : Int, j < i ∨ i + n ≤ j → ws'.lookup j = ws.lookup j) ∧
    ∀ k < n, ∃ l attr, lines[k]? = some l ∧ (protoGetInt 16 (some (cline l))).1 = some attr ∧
      ws'.lookup ((i + k : Nat) : Int) =
        some (fattrSupported fflags (.ofInt (i + k : Nat)) &&& BitVec.ofInt 32 attr) := by
  induction n generalizing i lines ws with
  | zero =>
    cases h
    exact ⟨fun _ _ => rfl, fun k hk => absurd hk (by omega)⟩
  | succ n ih =>
    cases lines with
    | nil => cases h
    | cons l lines =>
      rw [readMasks] at h
      split at h
      · cases h
      · rename_i attr hattr
        obtain ⟨hother, hmask⟩ := ih h
        refine ⟨fun j hj => ?_, fun k hk => ?_⟩
        · have hne : (j == (i : Int)) = false := beq_false_of_ne (by omega)
          rw [hother j (by omega), List.lookup_cons, hne]
        · cases k with
          | zero =>
            refine ⟨l, attr, rfl, hattr, ?_⟩
            rw [Nat.add_zero, hother i (.inl (by omega)), List.lookup_cons, beq_self_eq_true]
          | succ k =>
            have := hmask k (by omega)
            rwa [show i + 1 + k = i + (k + 1) by omega] at this

/-! ## The answer -/

theorem announced_le {n : Int} {masks : List (List Byte)} (h : announced lines = some (n, masks)) :
    n ≤ ftNumber := by
  cases lines with
  | nil => cases h
  | cons l lines =>
    simp only [announced] at h
    split at h
    · split at h
      · rename_i hle
        cases h
        exact hle.2
      · cases h
    · cases h

/-- With a count that is not negative, every write is in the table. -/
theorem negotiated_of_nonneg {n : Int} {masks : List (List Byte)}
    (h : announced lines = some (n, masks)) (hn : 0 ≤ n) :
    Negotiated fflags lines (protoFileattr fflags lines) := by
  have hle := announced_le h
  rcases hr : readMasks fflags n.toNat 0 masks [] with ⟨ws, - | rest⟩
  · have hp : protoFileattr fflags lines = ⟨attrRequest fflags, ws, false⟩ := by
      simp only [protoFileattr, h, hr]
    rw [hp]
    refine ⟨fun w hw => ?_, fun h => by cases h⟩
    rcases mem_readMasks hr hw with hw | hw
    · cases hw
    · omega
  · have hp : protoFileattr fflags lines = ⟨attrRequest fflags,
        clearFrom (ftNumber - n).toNat n ws, rest.head?.any fun l => cline l = [46]⟩ := by
      simp only [protoFileattr, h, hr]
    rw [hp]
    obtain ⟨-, hmask⟩ := readMasks_ok hr
    constructor
    · intro w hw
      rcases mem_clearFrom hw with hw | hw
      · rcases mem_readMasks hr hw with hw | hw
        · cases hw
        · omega
      · omega
    · intro _
      refine ⟨n, masks, h, fun i hi => ⟨fun hin => ?_, fun hni => ?_⟩⟩
      · obtain ⟨l, attr, hl, hattr, hlook⟩ := hmask i (by omega)
        refine ⟨l, attr, hl, hattr, ?_⟩
        rw [Nat.zero_add] at hlook
        rw [clearFrom_lookup, if_neg (by omega), hlook]
      · rw [clearFrom_lookup, if_pos (by omega)]

/-- A negative count is the first index of the loop that clears the other types. -/
theorem outside_of_neg {n : Int} {masks : List (List Byte)} (h : announced lines = some (n, masks))
    (hn : n < 0) : (n, 0) ∈ (protoFileattr fflags lines).support := by
  have hread : readMasks fflags n.toNat 0 masks [] = ([], some masks) := by
    rw [Int.toNat_of_nonpos (by omega), readMasks]
  obtain ⟨k, hk⟩ : ∃ k, (ftNumber - n).toNat = k + 1 :=
    ⟨(ftNumber - n).toNat - 1, by simp only [ftNumber]; omega⟩
  simp only [protoFileattr, h, hread, hk]
  exact mem_clearFrom_first k n []

/-- The negotiation stays in the table, and fills it with the attributes that both
sides support, if and only if the count that is announced is not negative. -/
theorem protoFileattr_iff (fflags : Bool) (lines : List (List Byte)) :
    Negotiated fflags lines (protoFileattr fflags lines) ↔
      ∀ n masks, announced lines = some (n, masks) → 0 ≤ n := by
  constructor
  · intro h n masks ha
    by_contra hn
    have := (h.bounds _ (outside_of_neg ha (by omega))).1
    exact hn this
  · intro h
    rcases ha : announced lines with - | ⟨n, masks⟩
    · have hp : protoFileattr fflags lines = ⟨attrRequest fflags, [], false⟩ := by
        simp only [protoFileattr, ha]
      rw [hp]
      exact ⟨fun w hw => (List.not_mem_nil hw).elim, fun h => by cases h⟩
    · exact negotiated_of_nonneg ha (h n masks ha)

/-- The server announces a count of -1: the first write is in front of the table. -/
theorem not_negotiated :
    ¬ ∀ (fflags : Bool) (lines : List (List Byte)),
      Negotiated fflags lines (protoFileattr fflags lines) := by
  intro h
  have ha : announced [bytes "ATTR -1\n".toList, bytes ".\n".toList] =
      some (-1, [bytes ".\n".toList]) := by decide
  exact absurd ((h false _).bounds _ (outside_of_neg ha (by decide))).1 (by decide)

end Csup.Proto
