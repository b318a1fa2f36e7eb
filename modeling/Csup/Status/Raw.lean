import Csup.Proto.Words
import Csup.Status.File

/-!
# Records copied without their fields

`status_wrraw` writes a line whose name has been read and whose other fields have
not: the name is escaped again, and the rest is copied as it is. The line of a
directory that is opened is written with `%S`, so its name is not escaped.

* `statusRdraw_eq_some`: when a record is read;
* `statusWrraw_iff`: which records are read back.
-/

namespace Csup.Status

open Csup.Framework
open Csup.Proto

/-! ## Names -/

theorem length_protoUnescape_le (s : List Byte) : (protoUnescape s).length ≤ s.length := by
  fun_induction protoUnescape s with
  | case1 c s ih => simp only [List.length_cons]; omega
  | case2 => simp
  | case3 c s _ _ ih => simp only [List.length_cons]; omega
  | case4 => simp

/-- An escape makes a string shorter. -/
theorem length_protoUnescape_lt {s : List Byte} (h : 92 ∈ s) :
    (protoUnescape s).length < s.length := by
  fun_induction protoUnescape s with
  | case1 c s ih =>
    have := length_protoUnescape_le s
    simp only [List.length_cons]
    omega
  | case2 => simp
  | case3 c s h1 h2 ih =>
    have hs : 92 ∈ s := by
      rcases List.mem_cons.mp h with rfl | hs
      · rcases s with - | ⟨d, s⟩
        · exact absurd rfl (h2 rfl)
        · exact absurd rfl (h1 d s rfl)
      · exact hs
    have := ih hs
    simp only [List.length_cons]
    omega
  | case4 => cases h

/-! ## Lines -/

/-- What a call takes off a line, and what it leaves. -/
theorem protoGetAscii_some {s f : List Byte} {r : Option (List Byte)}
    (h : protoGetAscii (some s) = (some f, r)) :
    ∃ w, w ≠ [] ∧ 32 ∉ w ∧ f = protoUnescape w ∧
      (s = w ∧ r = none ∨ ∃ l, s = w ++ 32 :: l ∧ r = some l) := by
  rcases line_cases s with hl | ⟨hne, hf⟩ | ⟨w, l, hne, hf, rfl⟩
  · rw [protoGetAscii_empty hl] at h
    cases h
  · rw [protoGetAscii_last hne hf] at h
    cases h
    exact ⟨s, hne, hf, rfl, .inl ⟨rfl, rfl⟩⟩
  · rw [protoGetAscii_field hne hf] at h
    cases h
    exact ⟨w, hne, hf, rfl, .inr ⟨l, rfl, rfl⟩⟩

/-- The type and the name of a line, and what is left of it. -/
def lineRec (line : List Byte) : Option (SrType × List Byte × Option (List Byte)) :=
  let (cmd, l) := protoGetChar (some line)
  match protoGetAscii l with
  | (none, _) => none
  | (some file, l) => (typeOf cmd).map fun type => (type, file, l)

theorem protoGetChar_some {s : List Byte} {c : Option Byte} {l : List Byte}
    (h : protoGetChar (some s) = (c, some l)) : ∃ w, s = w ++ 32 :: l := by
  rw [protoGetChar] at h
  rcases hg : protoGetAscii (some s) with ⟨- | f, r⟩
  · rw [hg] at h
    cases h
    rcases line_cases s with hl | ⟨hne, hf⟩ | ⟨w, l, hne, hf, rfl⟩
    · rw [protoGetAscii_empty hl] at hg
      cases hg
    · rw [protoGetAscii_last hne hf] at hg
      cases hg
    · rw [protoGetAscii_field hne hf] at hg
      cases hg
  · have hr : r = some l := by
      rw [hg] at h
      split at h <;> simp_all
    subst hr
    obtain ⟨w, -, -, -, ⟨-, hn⟩ | ⟨l', hs, hl⟩⟩ := protoGetAscii_some hg
    · cases hn
    · cases hl
      exact ⟨w, hs⟩

/-- The name and what is left are parts of the line. -/
theorem lineRec_some {line file : List Byte} {type : SrType} {l : Option (List Byte)}
    (h : lineRec line = some (type, file, l)) :
    ∃ u w, w ≠ [] ∧ 32 ∉ w ∧ file = protoUnescape w ∧
      (line = u ++ 32 :: w ∧ l = none ∨ ∃ r, line = u ++ 32 :: (w ++ 32 :: r) ∧ l = some r) := by
  rw [lineRec] at h
  rcases hc : protoGetChar (some line) with ⟨c, - | s⟩
  · rw [hc] at h
    cases h
  · obtain ⟨u, rfl⟩ := protoGetChar_some hc
    rcases hg : protoGetAscii (some s) with ⟨- | f, r⟩
    · simp only [hc, hg] at h
      cases h
    · simp only [hc, hg] at h
      obtain ⟨t, -, ht⟩ := Option.map_eq_some_iff.mp h
      cases ht
      obtain ⟨w, hne, hw, hf, ⟨rfl, rfl⟩ | ⟨r', rfl, rfl⟩⟩ := protoGetAscii_some hg
      · exact ⟨u, s, hne, hw, hf, .inl ⟨rfl, rfl⟩⟩
      · exact ⟨u, w, hne, hw, hf, .inr ⟨r', rfl, rfl⟩⟩

/-- A line that begins with the letter of a type. -/
theorem lineRec_cmdOf (type : SrType) (s : List Byte) :
    lineRec (cmdOf type :: 32 :: s) =
      match protoGetAscii (some s) with
      | (none, _) => none
      | (some file, l) => some (type, file, l) := by
  have hcmd : 32 ∉ [cmdOf type] ∧ protoUnescape [cmdOf type] = [cmdOf type] ∧
      typeOf (some (cmdOf type)) = some type := by
    cases type <;> exact ⟨by decide, rfl, rfl⟩
  have hfield := protoGetAscii_field (List.cons_ne_nil (cmdOf type) []) hcmd.1 s
  rw [List.singleton_append, hcmd.2.1] at hfield
  rw [lineRec, protoGetChar, hfield]
  simp only
  split <;> simp_all

/-! ## Reading -/

/-- Whether the status takes a record as the next one. -/
structure Takes (st : State) (sr : StatusRec) : Prop where
  eof : st.eof = false
  sorted : st.previous.any (fun p => 0 ≤ statusrecCmp p sr) = false
  opened : sr.type = .dirup → st.depth ≠ 0

theorem statusRdraw_some {st st' : State} {sr : StatusRec} {l : Option (List Byte)}
    (h : statusRdraw st = (st', some (sr, l))) :
    ∃ rd, st.rd = some rd ∧ lineRec (cline (lineOf nl rd)) = some (sr.type, sr.file, l) ∧
      sr = rawRec sr.type sr.file ∧ Takes st sr := by
  rw [statusRdraw] at h
  split at h
  · cases h
  · rename_i rd hrd
    split at h
    · cases h
    · rename_i heof
      rw [streamGetln] at h
      by_cases hne : rd = []
      · rw [if_pos hne] at h
        simp only at h
        split at h <;> cases h
      · rw [if_neg hne] at h
        simp only at h
        rcases hc : protoGetChar (some (cline (lineOf nl rd))) with ⟨cmd, s⟩
        rcases hg : protoGetAscii s with ⟨- | file, r⟩
        · simp only [hc, hg] at h
          cases h
        · rcases ht : typeOf cmd with - | type
          · simp only [hc, hg, ht] at h
            cases h
          · simp only [hc, hg, ht] at h
            split at h
            · cases h
            · rename_i hup
              split at h
              · cases h
              · rename_i hsorted
                obtain ⟨rfl, rfl⟩ : rawRec type file = sr ∧ r = l := by
                  simpa using congrArg Prod.snd h
                refine ⟨rd, hrd, ?_, rfl, by simpa using heof, ?_, fun h1 h2 => hup ⟨h1, h2⟩⟩
                · simp only [lineRec, hc, hg, ht]
                  rfl
                · simpa using hsorted

theorem statusRdraw_of {st : State} {rd file : List Byte} {type : SrType} {l : Option (List Byte)}
    (hrd : st.rd = some rd) (hne : rd ≠ [])
    (hline : lineRec (cline (lineOf nl rd)) = some (type, file, l))
    (ht : Takes st (rawRec type file)) :
    statusRdraw st = ({ st with
      rd := some (behindLine nl rd)
      linenum := st.linenum + 1
      depth := depthAfter type st.depth
      previous := some (rawRec type file) }, some (rawRec type file, l)) := by
  obtain ⟨heof, hsorted, hup⟩ := ht
  have hup : ¬ (type = .dirup ∧ st.depth = 0) := fun h => hup h.1 h.2
  rw [lineRec] at hline
  rcases hc : protoGetChar (some (cline (lineOf nl rd))) with ⟨cmd, s⟩
  rcases hg : protoGetAscii s with ⟨- | f, r⟩
  · simp only [hc, hg] at hline
    cases hline
  · simp only [hc, hg] at hline
    obtain ⟨t, htype, heq⟩ := Option.map_eq_some_iff.mp hline
    cases heq
    simp only [statusRdraw, hrd, heof, streamGetln, if_neg hne, hc, hg, htype, Bool.false_eq_true,
      if_false, if_neg hup]
    rw [if_neg]
    simpa using hsorted

/-- A line that is read has no newline and no NUL in it. -/
theorem notMem_cline_lineOf (rd : List Byte) :
    nl ∉ cline (lineOf nl rd) ∧ 0 ∉ cline (lineOf nl rd) := by
  refine ⟨?_, zero_notMem_cline _⟩
  have hsub : ∀ l : List Byte, nl ∉ l → nl ∉ cstr l := fun l hl h =>
    hl ((List.takeWhile_sublist _).subset h)
  rw [lineOf]
  rcases hs : splitLines nl rd with - | ⟨l, ls⟩
  · exact List.not_mem_nil
  · have hlast : LastLine nl l := (isText_splitLines nl rd).lastLine l (by simp [hs])
    rw [List.headD_cons, cline]
    apply hsub
    split
    · exact hlast.2
    · rename_i hne
      intro hmem
      obtain ⟨w, a, rfl⟩ := (List.eq_nil_or_concat l).resolve_left hlast.1
      rw [List.concat_eq_append] at hlast hmem hne
      rw [LastLine, List.dropLast_concat] at hlast
      obtain rfl : nl = a := by simpa [hlast.2] using hmem
      exact hne (by simp)

/-- A name that is read has no NUL in it. -/
theorem zero_notMem_file {rd file : List Byte} {type : SrType} {l : Option (List Byte)}
    (h : lineRec (cline (lineOf nl rd)) = some (type, file, l)) : 0 ∉ file := by
  obtain ⟨-, h0⟩ := notMem_cline_lineOf rd
  obtain ⟨u, w, -, -, rfl, hparts⟩ := lineRec_some h
  apply zero_notMem_protoUnescape
  rcases hparts with ⟨heq, -⟩ | ⟨r, heq, -⟩ <;> exact fun h => h0 (by simp [heq, h])

/-- Neither has what is left of its line. -/
theorem notMem_rest {rd file : List Byte} {type : SrType} {l : Option (List Byte)}
    (h : lineRec (cline (lineOf nl rd)) = some (type, file, l)) :
    ∀ r, l = some r → nl ∉ r ∧ 0 ∉ r := by
  rintro r rfl
  obtain ⟨hnl, h0⟩ := notMem_cline_lineOf rd
  obtain ⟨u, w, -, -, -, ⟨-, hn⟩ | ⟨r', heq, hr⟩⟩ := lineRec_some h
  · cases hn
  · cases hr
    rw [heq] at hnl h0
    exact ⟨fun h => hnl (by simp [h]), fun h => h0 (by simp [h])⟩

/-- A line in front of others. -/
theorem lineOf_append {w : List Byte} (hw : nl ∉ w) (q : List Byte) :
    lineOf nl (w ++ nl :: q) = w ++ [nl] := by
  rw [lineOf, splitLines_append_full hw]
  rfl

/-! ## Copies -/

variable {env : Env}

/-- Cooking adds the fields to the record; a directory that is opened has none. -/
theorem statusrecCook_some {sr rec : StatusRec} {l : Option (List Byte)}
    (h : statusrecCook env sr l = some rec) :
    rec.type = sr.type ∧ rec.file = sr.file ∧
      (sr.type = .dirdown ∧ l = none ∨ sr.type ≠ .dirdown ∧ ∃ r, l = some r) := by
  have hline : sr.type ≠ .dirdown → ∃ r, l = some r := by
    intro hne
    rcases l with - | r
    · rw [statusrecCook] at h
      cases ht : sr.type <;> simp [ht] at h
      exact absurd ht hne
    · exact ⟨r, rfl⟩
  rw [statusrecCook] at h
  cases ht : sr.type with
  | dirdown =>
    simp only [ht] at h
    split at h
    · rename_i hl
      cases h
      exact ⟨ht, rfl, .inl ⟨rfl, hl⟩⟩
    · cases h
  | filelive | filedead | dirup =>
    refine ⟨?_, ?_, .inr ⟨by simp, hline (by simp [ht])⟩⟩ <;>
    · simp only [ht] at h
      split at h
      · obtain ⟨fa, -, rfl⟩ := Option.map_eq_some_iff.mp h
        first | exact ht | rfl
      · cases h
  | checkoutlive =>
    refine ⟨?_, ?_, .inr ⟨by simp, hline (by simp [ht])⟩⟩ <;>
    · simp only [ht] at h
      split at h
      · split at h
        · cases h
          first | exact ht | rfl
        · cases h
      · cases h
  | checkoutdead =>
    refine ⟨?_, ?_, .inr ⟨by simp, hline (by simp [ht])⟩⟩ <;>
    · simp only [ht] at h
      split at h
      · obtain ⟨fa, -, rfl⟩ := Option.map_eq_some_iff.mp h
        first | exact ht | rfl
      · cases h

/-- The next line is read as the record, with all its fields. -/
def ReadsBack (env : Env) (st : State) (rec : StatusRec) : Prop :=
  ∃ st' sr l, statusRdraw st = (st', some (sr, l)) ∧ statusrecCook env sr l = some rec

/-- The names that are read as they were. -/
def Kept (sr : StatusRec) : Prop :=
  sr.file ≠ [] ∧ (sr.type = .dirdown → 32 ∉ sr.file ∧ nl ∉ sr.file ∧ 92 ∉ sr.file)

/-- The text that `status_wrraw` writes. -/
def rawText (sr : StatusRec) (l : Option (List Byte)) : List Byte :=
  match l with
  | none => cmdOf sr.type :: 32 :: sr.file
  | some r => cmdOf sr.type :: 32 :: (protoEscape sr.file ++ 32 :: r)

theorem printf_dirdown (c : Byte) (s : List Byte) :
    printf "%c %S\n".toList [some (.char c), some (.str s)] = .ok (c :: 32 :: s ++ [nl]) := rfl

theorem printf_raw (c : Byte) (s r : List Byte) :
    printf "%c %s %S\n".toList [some (.char c), some (.str s), some (.str r)] =
      .ok (c :: 32 :: (protoEscape s ++ 32 :: r) ++ [nl]) := by
  show Except.ok (c :: 32 :: (protoEscape s ++ 32 :: (r ++ [nl]))) = _
  simp

theorem statusWrraw_ok {st st' : State} {sr : StatusRec} {l : Option (List Byte)} {w : List Byte}
    (h : statusWrraw st sr l = .ok st') (hw : st.wr = some w)
    (hl : sr.type = .dirdown ∧ l = none ∨ sr.type ≠ .dirdown ∧ ∃ r, l = some r) :
    st'.wr = some (w ++ (rawText sr l ++ [nl])) := by
  simp only [statusWrraw, hw, Option.isNone_some, Bool.false_eq_true, if_false, bind,
    Except.bind] at h
  rcases hp : putRecord st.pc sr with f | ⟨events, pc⟩
  · simp only [hp] at h
    cases h
  · simp only [hp] at h
    split at h
    · rcases hl with ⟨ht, rfl⟩ | ⟨ht, r, rfl⟩
      · simp only [if_pos ht, printf_dirdown] at h
        cases h
        simp [State.add, rawText]
      · simp only [if_neg ht, Option.map_some, printf_raw] at h
        cases h
        simp [State.add, rawText]
    · cases h

/-! ## Reading a copy -/

theorem protoUnescape_self {s : List Byte} (h : 92 ∉ s) : protoUnescape s = s := by
  have := protoUnescape_append h []
  rwa [List.append_nil, show protoUnescape [] = [] from rfl, List.append_nil] at this

/-- The next line of a file, when it is known. -/
theorem readsBack_line {st : State} {rec : StatusRec} {w : List Byte} (hw : nl ∉ w) (h0 : 0 ∉ w)
    (q : List Byte) :
    (ReadsBack env { st with rd := some (w ++ nl :: q) } rec →
      ∃ sr l, lineRec w = some (sr.type, sr.file, l) ∧ statusrecCook env sr l = some rec) ∧
    ∀ type file l, lineRec w = some (type, file, l) → Takes st (rawRec type file) →
      statusrecCook env (rawRec type file) l = some rec →
      ReadsBack env { st with rd := some (w ++ nl :: q) } rec := by
  have hline : cline (lineOf nl (w ++ nl :: q)) = w := by
    rw [lineOf_append hw, cline_append_nl h0]
  constructor
  · rintro ⟨st', sr, l, hrd, hcook⟩
    obtain ⟨rd, hrd', hrec, -, -⟩ := statusRdraw_some hrd
    cases hrd'
    rw [hline] at hrec
    exact ⟨sr, l, hrec, hcook⟩
  · intro type file l hrec ht hcook
    refine ⟨_, _, l, statusRdraw_of rfl (by simp) (by rw [hline, hrec]) ?_, hcook⟩
    exact ⟨ht.eof, ht.sorted, ht.opened⟩

/-- The first line of a name with newlines. -/
theorem exists_first_line (s q : List Byte) :
    ∃ w q', s ++ nl :: q = w ++ nl :: q' ∧ nl ∉ w ∧ w <+: s := by
  rcases hc : cut nl (s ++ nl :: q) with - | ⟨w, q'⟩
  · exact absurd (by simp) (cut_eq_none.mp hc)
  · obtain ⟨heq, hw⟩ := cut_eq_some.mp hc
    refine ⟨w, q', heq, hw, ?_⟩
    rcases List.append_eq_append_iff.mp heq with ⟨t, rfl, ht⟩ | ⟨t, rfl, -⟩
    · rcases t with - | ⟨b, t⟩
      · simp
      · rw [List.cons_append] at ht
        exact absurd (by simp [(List.cons.inj ht).1]) hw
    · exact List.prefix_append w t

theorem cmdOf_ne (type : SrType) : nl ≠ cmdOf type ∧ 0 ≠ cmdOf type := by
  cases type <;> exact ⟨by decide, by decide⟩

section

variable {sr : StatusRec} {l : Option (List Byte)}

/-- The line of a name that is kept has no end in it. -/
theorem notMem_rawText (hk : Kept sr) (hname : 0 ∉ sr.file)
    (hrest : ∀ r, l = some r → nl ∉ r ∧ 0 ∉ r) (hl : l = none → sr.type = .dirdown) :
    nl ∉ rawText sr l ∧ 0 ∉ rawText sr l := by
  obtain ⟨hcmd, hcmd0⟩ := cmdOf_ne sr.type
  rcases l with - | r
  · obtain ⟨-, hnl, -⟩ := hk.2 (hl rfl)
    simp [rawText, hcmd, hcmd0, hnl, hname, show nl ≠ 32 by decide]
  · obtain ⟨hr, hr0⟩ := hrest r rfl
    have hesc := notMem_protoEscape sr.file (b := nl) (by simp)
    have hesc0 := zero_notMem_protoEscape hname
    simp [rawText, hcmd, hcmd0, hesc, hesc0, hr, hr0, show nl ≠ 32 by decide]

/-- It is read as the name. -/
theorem lineRec_rawText (hk : Kept sr) (hl : l = none → sr.type = .dirdown) :
    lineRec (rawText sr l) = some (sr.type, sr.file, l) := by
  rcases l with - | r
  · obtain ⟨hblank, -, hback⟩ := hk.2 (hl rfl)
    rw [rawText, lineRec_cmdOf, protoGetAscii_last hk.1 hblank, protoUnescape_self hback]
  · rw [rawText, lineRec_cmdOf, protoGetAscii_field (protoEscape_ne_nil hk.1)
      (notMem_protoEscape sr.file (.inl rfl)), protoUnescape_protoEscape]

/-- The name of a directory as it is, up to the first newline in it. -/
theorem kept_of_dirdown {rec : StatusRec} {st : State} {q : List Byte}
    (hcook : statusrecCook env sr none = some rec) (hdown : sr.type = .dirdown)
    (hname : 0 ∉ sr.file)
    (hb : ReadsBack env { st with rd := some (rawText sr none ++ nl :: q) } rec) : Kept sr := by
  obtain ⟨htype, hfile, -⟩ := statusrecCook_some hcook
  obtain ⟨hcmd, hcmd0⟩ := cmdOf_ne sr.type
  obtain ⟨w, q', heq, hw, hpre⟩ := exists_first_line sr.file q
  have htext : rawText sr none ++ nl :: q = (cmdOf sr.type :: 32 :: w) ++ nl :: q' := by
    rw [rawText, List.cons_append, List.cons_append, heq]
    rfl
  have hnl : nl ∉ cmdOf sr.type :: 32 :: w := by
    simp [hcmd, hw, show nl ≠ 32 by decide]
  have h0w : 0 ∉ w := fun h => hname (hpre.subset h)
  have h0 : 0 ∉ cmdOf sr.type :: 32 :: w := by
    simp [hcmd0, h0w]
  rw [htext] at hb
  obtain ⟨sr', l', hrec, hcook'⟩ := (readsBack_line hnl h0 q').1 hb
  obtain ⟨htype', hfile', hl'⟩ := statusrecCook_some hcook'
  have hl' : l' = none := by
    rcases hl' with ⟨-, hl'⟩ | ⟨hne, -⟩
    · exact hl'
    · exact absurd (htype'.symm.trans (htype.trans hdown)) hne
  rw [lineRec_cmdOf, hl'] at hrec
  rcases hg : protoGetAscii (some w) with ⟨- | f, r⟩
  · rw [hg] at hrec
    cases hrec
  · rw [hg] at hrec
    obtain ⟨-, rfl, rfl⟩ : sr.type = sr'.type ∧ f = sr'.file ∧ r = none := by
      simpa using hrec
    obtain ⟨v, hne, hblank, hf, ⟨rfl, -⟩ | ⟨_, _, hn⟩⟩ := protoGetAscii_some hg
    · -- the name is as long as the part of it that has been read
      have hlen : sr.file = protoUnescape w := hfile.symm.trans (hfile'.trans hf)
      have hle := hpre.length_le
      rw [hlen] at hle
      have hback : 92 ∉ w := fun hm => Nat.not_le.mpr (length_protoUnescape_lt hm) hle
      rw [protoUnescape_self hback] at hlen
      rw [Kept, hlen]
      exact ⟨hne, fun _ => ⟨hblank, hw, hback⟩⟩
    · cases hn

/-- A copied line is read if and only if its name is kept. -/
theorem readsBack_rawText {rec : StatusRec} {st : State}
    (hsr : sr = rawRec sr.type sr.file) (hcook : statusrecCook env sr l = some rec)
    (hname : 0 ∉ sr.file) (hrest : ∀ r, l = some r → nl ∉ r ∧ 0 ∉ r) (ht : Takes st sr)
    (q : List Byte) :
    ReadsBack env { st with rd := some (rawText sr l ++ nl :: q) } rec ↔ Kept sr := by
  obtain ⟨-, -, hl⟩ := statusrecCook_some hcook
  have hnone : l = none → sr.type = .dirdown := by
    rintro rfl
    rcases hl with ⟨hdown, -⟩ | ⟨-, r, hr⟩
    · exact hdown
    · cases hr
  constructor
  · intro hb
    rcases hl with ⟨hdown, rfl⟩ | ⟨hno, r, rfl⟩
    · exact kept_of_dirdown hcook hdown hname hb
    · -- the name escaped, and the rest as it is
      refine ⟨fun hnil => ?_, fun h => absurd h hno⟩
      obtain ⟨hr, hr0⟩ := hrest r rfl
      obtain ⟨hcmd, hcmd0⟩ := cmdOf_ne sr.type
      have htext : rawText sr (some r) = cmdOf sr.type :: 32 :: 32 :: r := by
        rw [rawText, hnil]
        rfl
      have hnl : nl ∉ rawText sr (some r) := by
        simp [htext, hcmd, hr, show nl ≠ 32 by decide]
      have h0 : 0 ∉ rawText sr (some r) := by
        simp [htext, hcmd0, hr0]
      obtain ⟨sr', l', hrec, -⟩ := (readsBack_line hnl h0 q).1 hb
      rw [htext, lineRec_cmdOf, protoGetAscii_empty (.inr ⟨r, rfl⟩)] at hrec
      cases hrec
  · intro hk
    obtain ⟨hnl, h0⟩ := notMem_rawText hk hname hrest hnone
    exact (readsBack_line hnl h0 q).2 _ _ _ (lineRec_rawText hk hnone) (hsr ▸ ht) (hsr ▸ hcook)

end

/-- `status_wrraw` writes what is read back as the record if and only if the name is
kept: a name that is empty is not read again, and the name of a directory that is
opened is not escaped. -/
theorem statusWrraw_iff {st st₁ wst wst' back : State} {sr rec : StatusRec}
    {l : Option (List Byte)} {w : List Byte} (hrd : statusRdraw st = (st₁, some (sr, l)))
    (hcook : statusrecCook env sr l = some rec) (hw : wst.wr = some w)
    (hwr : statusWrraw wst sr l = .ok wst') (ht : Takes back sr) :
    ∃ out, wst'.wr = some (w ++ out) ∧
      ∀ q, ReadsBack env { back with rd := some (out ++ q) } rec ↔ Kept sr := by
  obtain ⟨rd, -, hline, hsr, -⟩ := statusRdraw_some hrd
  obtain ⟨-, -, hl⟩ := statusrecCook_some hcook
  refine ⟨_, statusWrraw_ok hwr hw hl, fun q => ?_⟩
  rw [List.append_assoc]
  exact readsBack_rawText hsr hcook (zero_notMem_file hline) (notMem_rest hline) ht q

/-- No id has a name. -/
def envOfNone : Env := ⟨true, ⟨fun _ => none, fun _ => none, fun _ => none, fun _ => none⟩⟩

/-- A status file with a line in it. -/
def fileOf (text : List Char) : State where
  rd := some (bytes text)
  wr := some []
  pc := Pathcomp.pathcompNew 0
  previous := none
  eof := false
  linenum := 0
  depth := 0
  error := none

/-- A directory whose name has no escape in it is read back. -/
theorem statusWrraw_iff_plain :
    ∃ out, (some [68, 32, 97, 10] : Option (List Byte)) = some ([] ++ out) ∧
      ∀ q, ReadsBack envOfNone
          { fileOf [] with rd := some (out ++ q) } (rawRec .dirdown [97]) ↔
        Kept (rawRec .dirdown [97]) :=
  @statusWrraw_iff envOfNone (fileOf "D a\n".toList) _ (fileOf []) _ (fileOf [])
    (rawRec .dirdown [97]) _ none [] rfl rfl rfl rfl ⟨rfl, rfl, nofun⟩

/-- A directory whose name has a blank in it is not. -/
theorem not_statusWrraw_readsBack :
    ¬ ∀ (env : Env) (st st₁ wst wst' back : State) (sr rec : StatusRec)
        (l : Option (List Byte)) (w : List Byte), statusRdraw st = (st₁, some (sr, l)) →
        statusrecCook env sr l = some rec → wst.wr = some w → statusWrraw wst sr l = .ok wst' →
        Takes back sr → ∃ out, wst'.wr = some (w ++ out) ∧
          ∀ q, ReadsBack env { back with rd := some (out ++ q) } rec := by
  intro h
  obtain ⟨out, hout, hback⟩ := h envOfNone
    (fileOf "D a\\_b\n".toList) _ (fileOf []) _ (fileOf []) (rawRec .dirdown [97, 32, 98]) _ none
    [] rfl rfl rfl rfl ⟨rfl, rfl, nofun⟩
  have hout : some (rawText (rawRec .dirdown [97, 32, 98]) none ++ [nl]) = some out := hout
  cases hout
  have := hback []
  rw [List.append_assoc] at this
  have ht : Takes (fileOf []) (rawRec .dirdown [97, 32, 98]) := ⟨rfl, rfl, nofun⟩
  have hkept := (readsBack_rawText rfl rfl (by decide) (by simp) ht []).mp this
  exact (hkept.2 rfl).1 (by decide)

end Csup.Status
