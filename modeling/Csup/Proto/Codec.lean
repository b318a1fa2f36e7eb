import Csup.Base.Radix
import Csup.Framework.Fields
import Csup.Proto.Fields

/-!
# Writing and reading lines of fields: `proto.c`

`proto_printf` with all its formats, and the calls of `proto_get_ascii` that
read a line. `protoUnescapeAt` is `proto_unescape` as it works in the line, from
the pointer `cp` on; `protoUnescapeAt_append` says that it does what
`protoUnescape` does.

`line_codec`: strings are read back as they were written, and the test that
every command makes behind its last field accepts exactly the lines of so many
fields.
-/

namespace Csup.Proto

open Csup.Framework

/-! ## `proto_printf` -/

/-- What stands for a byte in an escaped string. -/
def escapeByte (c : Byte) : List Byte :=
  if c = 32 then [92, 95]
  else if c = 9 then [92, 116]
  else if c = 13 then [92, 114]
  else if c = 10 then [92, 110]
  else if c = 92 then [92, 92]
  else [c]

/-- `proto_escape` -/
def protoEscape (s : List Byte) : List Byte := s.flatMap escapeByte

/-- An argument of `proto_printf`. `attr` is the text that `fattr_encode` makes
of the file attributes. -/
inductive Arg
  | char (c : Byte)
  | int (i : Int)
  | off (i : Int)
  | str (s : List Byte)
  | time (i : Int)
  | size (n : Nat)
  | attr (text : List Byte)

/-- An `int` printed as `unsigned`. -/
def unsigned (i : Int) : Nat := (i % 2 ^ 32).toNat

/-- A conversion; `none` where the argument is not the one it takes. -/
def conversion (c : Byte) (args : List Arg) : Option (List Byte × List Arg) :=
  match Char.ofUInt8 c, args with
  | 'c', .char b :: args => some ([b], args)
  | 'd', .int i :: args => some (printInt i, args)
  | 'i', .int i :: args => some (printInt i, args)
  | 'x', .int i :: args => some (printRadix 16 (unsigned i), args)
  | 'o', .int i :: args => some (printRadix 8 (unsigned i), args)
  | 'O', .off i :: args => some (printInt i, args)
  | 'S', .str s :: args => some (s, args)
  | 's', .str s :: args => some (protoEscape s, args)
  | 't', .time i :: args => some (printInt i, args)
  | 'a', .attr text :: args => some (protoEscape text, args)
  | 'A', .attr text :: args => some (protoEscape text, args)
  | 'z', .size n :: args => some (printRadix 10 n, args)
  | '%', args => some ([37], args)
  | c, args => if c ∈ ['c', 'd', 'i', 'x', 'o', 'O', 'S', 's', 't', 'a', 'A', 'z'] then none
    else some ([], args)

/-- `proto_printf`: what is written, when the arguments fit the format. A `%` at
the end of the format ends it. -/
def protoPrintf : List Byte → List Arg → Option (List Byte)
  | [], _ => some []
  | [c], _ => if c = 37 then some [] else some [c]
  | c :: d :: fmt, args =>
    if c = 37 then
      match conversion d args with
      | none => none
      | some (out, args) => (protoPrintf fmt args).map (out ++ ·)
    else (protoPrintf (d :: fmt) args).map (c :: ·)

/-- `%s` so many times, with blanks between and a newline behind. -/
def strsFormat : Nat → List Byte
  | 0 => [nl]
  | 1 => [37, 115, nl]
  | n + 2 => 37 :: 115 :: 32 :: strsFormat (n + 1)

/-! ## Reading -/

/-- The byte an escaped byte stands for. -/
def unescaped (c : Byte) : Byte :=
  if c = 95 then 32 else if c = 116 then 9 else if c = 114 then 13 else if c = 110 then 10 else c

/-- The loop of `proto_unescape` from `cp` on: the backslash found is written
over, and what follows the escaped byte moves left. At the end of the string the
NUL takes the place of the backslash. -/
def protoUnescapeAt (s : List Byte) (cp : Nat) : List Byte :=
  match _h : (s.drop cp).idxOf? 92 with
  | none => s
  | some i =>
    let cp := cp + i
    match s[cp + 1]? with
    | none => s.take cp
    | some c => protoUnescapeAt (s.take cp ++ unescaped c :: s.drop (cp + 2)) (cp + 1)
  termination_by s.length - cp
  decreasing_by
    have hlt : i < (s.drop _).length := (List.idxOf?_eq_some_iff.mp _h).1
    simp only [List.length_append, List.length_take, List.length_cons, List.length_drop] at hlt ⊢
    omega

/-- So many calls of `proto_get_ascii`: what they return, and the pointer they
leave. -/
def getAsciis : Nat → Option (List Byte) → List (Option (List Byte)) × Option (List Byte)
  | 0, line => ([], line)
  | n + 1, line =>
    let (ret, line) := protoGetAscii line
    let (rets, line) := getAsciis n line
    (ret :: rets, line)

/-- Fields with single blanks between them. -/
def joined : List (List Byte) → List Byte
  | [] => []
  | [f] => f
  | f :: fs => f ++ 32 :: joined fs

/-! ## Escapes -/

theorem protoUnescape_cons {c : Byte} (hc : c ≠ 92) (s : List Byte) :
    protoUnescape (c :: s) = c :: protoUnescape s := by
  rw [protoUnescape]
  · exact fun _ _ h _ => hc h
  · exact fun h _ => hc h

theorem protoUnescape_escape (c : Byte) (s : List Byte) :
    protoUnescape (92 :: c :: s) = unescaped c :: protoUnescape s := by
  simp only [protoUnescape, unescaped]

theorem protoUnescape_append {w : List Byte} (hw : 92 ∉ w) (s : List Byte) :
    protoUnescape (w ++ s) = w ++ protoUnescape s := by
  induction w with
  | nil => rfl
  | cons c w ih =>
    simp only [List.mem_cons, not_or] at hw
    rw [List.cons_append, protoUnescape_cons (Ne.symm hw.1), ih hw.2, List.cons_append]

/-- `proto_unescape` works in the line as `protoUnescape` does on its own. -/
theorem protoUnescapeAt_append (a s : List Byte) :
    protoUnescapeAt (a ++ s) a.length = a ++ protoUnescape s := by
  induction hn : s.length using Nat.strongRecOn generalizing a s with
  | _ n ih =>
    have hidx : ((a ++ s).drop a.length).idxOf? 92 = (cut 92 s).map fun p => p.1.length := by
      rw [List.drop_left, idxOf?_eq_cut]
    rw [protoUnescapeAt]
    split
    · rename_i h
      rw [hidx, Option.map_eq_none_iff, cut_eq_none] at h
      have := protoUnescape_append h []
      rw [List.append_nil] at this
      rw [this]
      simp [protoUnescape]
    · rename_i i h
      rw [hidx, Option.map_eq_some_iff] at h
      obtain ⟨⟨w, r⟩, hcut, rfl⟩ := h
      obtain ⟨rfl, hw⟩ := cut_eq_some.mp hcut
      have htake : (a ++ (w ++ 92 :: r)).take (a.length + w.length) = a ++ w := by
        rw [← List.append_assoc, ← List.length_append, List.take_left]
      have hget : (a ++ (w ++ 92 :: r))[a.length + w.length + 1]? = r.head? := by
        rw [← List.append_assoc, ← List.length_append, List.getElem?_append_right (by omega)]
        cases r <;> simp
      rw [protoUnescape_append hw]
      simp only [htake, hget]
      rcases r with - | ⟨c, r⟩
      · simp [protoUnescape]
      · have hdrop : (a ++ (w ++ 92 :: c :: r)).drop (a.length + w.length + 2) = r := by
          rw [← List.append_assoc, ← List.length_append, ← List.drop_drop, List.drop_left]
          rfl
        simp only [List.length_append, List.length_cons] at hn
        have := ih r.length (by omega) (a ++ w ++ [unescaped c]) r rfl
        simp only [List.head?_cons, hdrop]
        rw [protoUnescape_escape]
        simpa [Nat.add_assoc] using this

theorem protoUnescape_protoEscape (s : List Byte) : protoUnescape (protoEscape s) = s := by
  induction s with
  | nil => rfl
  | cons c s ih =>
    rw [protoEscape, List.flatMap_cons, ← protoEscape]
    have hcase : escapeByte c = [c] ∧ c ≠ 92 ∨ ∃ e, escapeByte c = [92, e] ∧ unescaped e = c := by
      by_cases hc : c = 32 ∨ c = 9 ∨ c = 13 ∨ c = 10 ∨ c = 92
      · right
        rcases hc with rfl | rfl | rfl | rfl | rfl
        · exact ⟨95, by decide, by decide⟩
        · exact ⟨116, by decide, by decide⟩
        · exact ⟨114, by decide, by decide⟩
        · exact ⟨110, by decide, by decide⟩
        · exact ⟨92, by decide, by decide⟩
      · simp only [not_or] at hc
        exact .inl ⟨by simp [escapeByte, hc], hc.2.2.2.2⟩
    rcases hcase with ⟨he, hc⟩ | ⟨e, he, hu⟩
    · rw [he, List.singleton_append, protoUnescape_cons hc, ih]
    · rw [he]
      show protoUnescape (92 :: e :: protoEscape s) = _
      rw [protoUnescape_escape, hu, ih]

/-- An escaped string has no white space of a line. -/
theorem notMem_protoEscape (s : List Byte) {b : Byte} (hb : b = 32 ∨ b = 9 ∨ b = 13 ∨ b = 10) :
    b ∉ protoEscape s := by
  intro h
  obtain ⟨c, -, hc⟩ := List.mem_flatMap.mp h
  by_cases hesc : c = 32 ∨ c = 9 ∨ c = 13 ∨ c = 10 ∨ c = 92
  · rcases hesc with rfl | rfl | rfl | rfl | rfl <;> rcases hb with rfl | rfl | rfl | rfl <;>
      revert hc <;> decide
  · simp only [not_or] at hesc
    have he : escapeByte c = [c] := by simp [escapeByte, hesc]
    rw [he, List.mem_singleton] at hc
    subst hc
    exact absurd hb (by simp [hesc])

theorem zero_notMem_protoEscape {s : List Byte} (h : 0 ∉ s) : 0 ∉ protoEscape s := by
  intro h0
  obtain ⟨c, hc, h0⟩ := List.mem_flatMap.mp h0
  have hne : c ≠ 0 := fun hz => h (hz ▸ hc)
  simp only [escapeByte] at h0
  split_ifs at h0 <;> simp at h0
  exact hne h0.symm

theorem protoEscape_ne_nil {s : List Byte} (h : s ≠ []) : protoEscape s ≠ [] := by
  obtain ⟨c, s, rfl⟩ := List.exists_cons_of_ne_nil h
  rw [protoEscape, List.flatMap_cons]
  simp only [escapeByte]
  split_ifs <;> simp

/-! ## Fields -/

theorem strsep_some (s : List Byte) :
    strsep (some s) = match cut 32 s with
      | none => (some s, none)
      | some (w, r) => (some w, some r) := by
  rw [strsep]
  rcases h : cut 32 s with - | ⟨w, r⟩
  · have hpos : ∀ b ∈ s, decide (b ≠ 32) = true := fun b hb => by
      have : b ≠ 32 := fun h0 => cut_eq_none.mp h (h0 ▸ hb)
      simpa using this
    rw [List.takeWhile_eq_self_iff.mpr hpos, List.dropWhile_eq_nil_iff.mpr hpos]
  · obtain ⟨rfl, hw⟩ := cut_eq_some.mp h
    have hpos : ∀ b ∈ w, decide (b ≠ 32) = true := fun b hb => by
      have : b ≠ 32 := fun h0 => hw (h0 ▸ hb)
      simpa using this
    rw [List.takeWhile_append_of_pos hpos, List.dropWhile_append_of_pos hpos]
    simp

/-- An empty field is an error, and leaves no line. -/
theorem protoGetAscii_empty {line : List Byte} (h : line = [] ∨ ∃ r, line = 32 :: r) :
    protoGetAscii (some line) = (none, none) := by
  rcases h with rfl | ⟨r, rfl⟩
  · rfl
  · have hc : cut 32 (32 :: r) = some ([], r) := cut_eq_some.mpr ⟨rfl, List.not_mem_nil⟩
    rw [protoGetAscii, strsep_some, hc]

/-- The last field of a line. -/
theorem protoGetAscii_last {f : List Byte} (hne : f ≠ []) (hf : 32 ∉ f) :
    protoGetAscii (some f) = (some (protoUnescape f), none) := by
  rw [protoGetAscii, strsep_some, cut_eq_none.mpr hf]
  obtain ⟨c, f, rfl⟩ := List.exists_cons_of_ne_nil hne
  rfl

/-- A field in front of others. -/
theorem protoGetAscii_field {f : List Byte} (hne : f ≠ []) (hf : 32 ∉ f) (r : List Byte) :
    protoGetAscii (some (f ++ 32 :: r)) = (some (protoUnescape f), some r) := by
  rw [protoGetAscii, strsep_some, cut_append hf]
  obtain ⟨c, f, rfl⟩ := List.exists_cons_of_ne_nil hne
  rfl

/-- How a line begins: with no field, with the last one, or with a field in front
of others. -/
theorem line_cases (line : List Byte) :
    (line = [] ∨ ∃ r, line = 32 :: r) ∨ (line ≠ [] ∧ 32 ∉ line) ∨
      ∃ f r, f ≠ [] ∧ 32 ∉ f ∧ line = f ++ 32 :: r := by
  match h : cut 32 line with
  | none =>
    by_cases hne : line = []
    · exact .inl (.inl hne)
    · exact .inr (.inl ⟨hne, cut_eq_none.mp h⟩)
  | some (w, r) =>
    obtain ⟨rfl, hw⟩ := cut_eq_some.mp h
    by_cases hne : w = []
    · subst hne
      exact .inl (.inr ⟨r, rfl⟩)
    · exact .inr (.inr ⟨w, r, hne, hw, rfl⟩)

/-- A field of a line. -/
def IsField (f : List Byte) : Prop := f ≠ [] ∧ 32 ∉ f

theorem joined_cons (f : List Byte) {fs : List (List Byte)} (h : fs ≠ []) :
    joined (f :: fs) = f ++ 32 :: joined fs := by
  obtain ⟨g, gs, rfl⟩ := List.exists_cons_of_ne_nil h
  rfl

theorem notMem_joined {b : Byte} (hb : b ≠ 32) {fs : List (List Byte)} (h : ∀ f ∈ fs, b ∉ f) :
    b ∉ joined fs := by
  induction fs with
  | nil => exact List.not_mem_nil
  | cons f fs ih =>
    by_cases hfs : fs = []
    · subst hfs
      exact h f (by simp)
    · rw [joined_cons f hfs]
      have := ih fun g hg => h g (by simp [hg])
      simp [h f (by simp), hb, this]

theorem getAsciis_null (k : Nat) : getAsciis k none = (List.replicate k none, none) := by
  induction k with
  | zero => rfl
  | succ k ih => rw [getAsciis, protoGetAscii_none]; simp [ih, List.replicate_succ]

/-- The fields of a line are read one by one. -/
theorem getAsciis_joined {fs : List (List Byte)} (hne : fs ≠ []) (h : ∀ f ∈ fs, IsField f) :
    getAsciis fs.length (some (joined fs)) = (fs.map fun f => some (protoUnescape f), none) := by
  induction fs with
  | nil => exact absurd rfl hne
  | cons f fs ih =>
    obtain ⟨hf, hblank⟩ := h f (by simp)
    by_cases hfs : fs = []
    · subst hfs
      show getAsciis 1 (some f) = _
      rw [getAsciis, protoGetAscii_last hf hblank]
      rfl
    · rw [joined_cons f hfs, List.length_cons, getAsciis, protoGetAscii_field hf hblank]
      have := ih hfs fun g hg => h g (by simp [hg])
      simp [this]

/-- The test behind the last field: it is there, and nothing follows it. -/
def Accepts (k : Nat) (line : Option (List Byte)) : Prop :=
  (∃ ret, (getAsciis k line).1.getLast? = some (some ret)) ∧ (getAsciis k line).2 = none

theorem not_accepts_null (k : Nat) : ¬ Accepts k none := by
  rintro ⟨⟨ret, hret⟩, -⟩
  rw [getAsciis_null] at hret
  have := List.mem_of_getLast? hret
  simp at this

/-- One call, then the rest. -/
theorem accepts_succ (k : Nat) (line : Option (List Byte)) :
    Accepts (k + 2) line ↔ Accepts (k + 1) (protoGetAscii line).2 := by
  have hne : (getAsciis (k + 1) (protoGetAscii line).2).1 ≠ [] := by simp [getAsciis]
  rw [Accepts, Accepts, getAsciis]
  simp only [List.getLast?_cons_of_ne_nil hne]

theorem accepts_one (line : Option (List Byte)) :
    Accepts 1 line ↔ (∃ ret, (protoGetAscii line).1 = some ret) ∧ (protoGetAscii line).2 = none := by
  simp [Accepts, getAsciis]

theorem accepts_iff {k : Nat} (hk : 1 ≤ k) (line : List Byte) :
    Accepts k (some line) ↔
      ∃ fs : List (List Byte), fs.length = k ∧ (∀ f ∈ fs, IsField f) ∧ line = joined fs := by
  obtain ⟨k, rfl⟩ : ∃ n, k = n + 1 := ⟨k - 1, by omega⟩
  clear hk
  constructor
  · intro h
    induction k generalizing line with
    | zero =>
      rw [accepts_one] at h
      rcases line_cases line with hl | ⟨hne, hf⟩ | ⟨f, r, hne, hf, rfl⟩
      · simp [protoGetAscii_empty hl] at h
      · exact ⟨[line], rfl, by simpa using ⟨hne, hf⟩, rfl⟩
      · simp [protoGetAscii_field hne hf] at h
    | succ k ih =>
      rw [accepts_succ] at h
      rcases line_cases line with hl | ⟨hne, hf⟩ | ⟨f, r, hne, hf, rfl⟩
      · rw [protoGetAscii_empty hl] at h
        exact absurd h (not_accepts_null _)
      · rw [protoGetAscii_last hne hf] at h
        exact absurd h (not_accepts_null _)
      · rw [protoGetAscii_field hne hf] at h
        obtain ⟨fs, hlen, hfs, rfl⟩ := ih r h
        refine ⟨f :: fs, by rw [List.length_cons, hlen], ?_, ?_⟩
        · simpa using ⟨⟨hne, hf⟩, hfs⟩
        · rw [joined_cons f (by intro h0; simp [h0] at hlen)]
  · rintro ⟨fs, hlen, hfs, rfl⟩
    have hne : fs ≠ [] := by
      intro h0
      simp [h0] at hlen
    rw [Accepts, ← hlen, getAsciis_joined hne hfs]
    refine ⟨⟨protoUnescape (fs.getLast hne), ?_⟩, rfl⟩
    rw [List.getLast?_map, List.getLast?_eq_some_getLast hne]
    rfl

/-! ## The codec -/

theorem conversion_str (s : List Byte) (args : List Arg) :
    conversion 115 (.str s :: args) = some (protoEscape s, args) := rfl

theorem protoPrintf_blank (n : Nat) (args : List Arg) :
    protoPrintf (32 :: strsFormat (n + 1)) args =
      (protoPrintf (strsFormat (n + 1)) args).map (32 :: ·) := by
  rcases n with - | n <;> exact if_neg (by decide)

theorem protoPrintf_strs {strs : List (List Byte)} (h : strs ≠ []) :
    protoPrintf (strsFormat strs.length) (strs.map .str) =
      some (joined (strs.map protoEscape) ++ [nl]) := by
  induction strs with
  | nil => exact absurd rfl h
  | cons s strs ih =>
    by_cases hnil : strs = []
    · subst hnil
      show protoPrintf [37, 115, nl] [.str s] = _
      have hnl : nl ≠ 37 := by decide
      simp [protoPrintf, conversion_str, joined, hnl]
    · have hrest := ih hnil
      have hjoin : joined ((s :: strs).map protoEscape) =
          protoEscape s ++ 32 :: joined (strs.map protoEscape) :=
        joined_cons (protoEscape s) (by simpa using hnil)
      obtain ⟨t, ts, rfl⟩ := List.exists_cons_of_ne_nil hnil
      show (if (37 : Byte) = 37 then
        match conversion 115 (.str s :: (t :: ts).map .str) with
        | none => none
        | some (out, args) =>
          (protoPrintf (32 :: strsFormat (ts.length + 1)) args).map (out ++ ·)
        else _) = _
      rw [if_pos rfl, conversion_str]
      show (protoPrintf (32 :: strsFormat (ts.length + 1)) ((t :: ts).map .str)).map _ = _
      rw [protoPrintf_blank, show ts.length + 1 = (t :: ts).length from rfl, hrest, hjoin]
      simp

/-- Strings written by `%s` are read back, in order, and the line is used up; and
the test behind a last field accepts the lines of so many fields, none of them
empty. -/
theorem line_codec :
    (∀ strs : List (List Byte), strs ≠ [] → (∀ s ∈ strs, s ≠ [] ∧ 0 ∉ s) →
      ∃ fs : List (List Byte), fs.length = strs.length ∧
        protoPrintf (strsFormat strs.length) (strs.map .str) = some (joined fs ++ [nl]) ∧
        (∀ f ∈ fs, 32 ∉ f ∧ 9 ∉ f ∧ 13 ∉ f ∧ 10 ∉ f) ∧
        getAsciis strs.length (some (cline (joined fs ++ [nl]))) = (strs.map some, none)) ∧
    ∀ (line : List Byte) (k : Nat), 1 ≤ k →
      ((∃ ret, (getAsciis k (some line)).1.getLast? = some (some ret)) ∧
          (getAsciis k (some line)).2 = none ↔
        ∃ fs : List (List Byte), fs.length = k ∧ (∀ f ∈ fs, f ≠ [] ∧ 32 ∉ f) ∧
          line = joined fs) := by
  refine ⟨fun strs hne h => ?_, fun line k hk => accepts_iff hk line⟩
  refine ⟨strs.map protoEscape, List.length_map .., protoPrintf_strs hne, ?_, ?_⟩
  · intro f hf
    obtain ⟨s, -, rfl⟩ := List.mem_map.mp hf
    exact ⟨notMem_protoEscape s (by simp), notMem_protoEscape s (by simp),
      notMem_protoEscape s (by simp), notMem_protoEscape s (by simp)⟩
  · have hnul : 0 ∉ joined (strs.map protoEscape) := by
      apply notMem_joined (by decide)
      intro f hf
      obtain ⟨s, hs, rfl⟩ := List.mem_map.mp hf
      exact zero_notMem_protoEscape (h s hs).2
    have hfields : ∀ f ∈ strs.map protoEscape, IsField f := by
      intro f hf
      obtain ⟨s, hs, rfl⟩ := List.mem_map.mp hf
      exact ⟨protoEscape_ne_nil (h s hs).1, notMem_protoEscape s (.inl rfl)⟩
    have hget := getAsciis_joined (by simpa using hne) hfields
    have hback : ((fun f => some (protoUnescape f)) ∘ protoEscape) = some := by
      funext s
      exact congrArg some (protoUnescape_protoEscape s)
    rw [List.length_map, List.map_map, hback] at hget
    rwa [cline_append_nl hnul]

/-- The strings `a b` and `\`, and a line of two fields. -/
theorem line_codec_two :
    getAsciis 2 (some [97, 92, 95, 98, 32, 92, 92]) = ([some [97, 32, 98], some [92]], none) ∧
      Accepts 2 (some [97, 32, 98]) := by
  refine ⟨?_, (line_codec.2 [97, 32, 98] 2 (by decide)).mpr ⟨[[97], [98]], rfl, by decide, rfl⟩⟩
  obtain ⟨fs, -, hfs, -, hget⟩ := line_codec.1 [[97, 32, 98], [92]] (by decide) (by decide)
  have hline : protoPrintf (strsFormat 2) [.str [97, 32, 98], .str [92]] =
      some [97, 92, 95, 98, 32, 92, 92, 10] := rfl
  have hjoined : joined fs ++ [nl] = [97, 92, 95, 98, 32, 92, 92, 10] :=
    Option.some.inj (hfs.symm.trans hline)
  rwa [hjoined] at hget

end Csup.Proto
