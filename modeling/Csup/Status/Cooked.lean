import Csup.Pathcomp.Walk
import Csup.Status.Raw

/-!
# Records written with their fields

`status_wr` writes a record with one of six formats, and `status_rd` reads it: the
name in `status_rdraw`, the other fields in `statusrec_cook`.

* `placed_of_atRest`: where nothing else is written in front of a record;
* `statusWr_eq`: what is written, for every type: the letter, and the fields in the
  order of the record, escaped;
* `statusrecCook_restOf`: the fields of such a line are those of the record;
* `statusRd_statusWr`: the two together.
-/

namespace Csup.Status

open Csup.Attrs
open Csup.Framework
open Csup.Proto
open Csup.Pathcomp (Event AtRest pathBytes targetDir)

variable {env : Env}

/-! ## Lines of strings and attributes -/

/-- What `%s` and `%a` take. -/
def fieldText : Arg → Option (List Byte)
  | .str s => some s
  | .attr text => some text
  | _ => none

/-- The conversion of a field and the blank in front of it. -/
def fieldFormat : Arg → List Byte
  | .attr _ => [32, 37, 97]
  | _ => [32, 37, 115]

/-- A letter and fields, escaped. -/
def textLine (cmd : Byte) (texts : List (List Byte)) : List Byte :=
  cmd :: texts.flatMap (fun s => 32 :: protoEscape s) ++ [nl]

theorem eq_of_fieldText {a : Arg} {s : List Byte} (h : fieldText a = some s) :
    a = .str s ∨ a = .attr s := by
  rcases a with _ | _ | _ | s' | _ | _ | text <;> cases h
  · exact .inl rfl
  · exact .inr rfl

theorem protoPrintf_field {a : Arg} {s : List Byte} (h : fieldText a = some s) (fmt : List Byte)
    (args : List Arg) :
    protoPrintf (fieldFormat a ++ fmt) (a :: args) =
      (protoPrintf fmt args).map (fun out => 32 :: protoEscape s ++ out) := by
  have hblank (fmt : List Byte) (args : List Arg) :
      protoPrintf (32 :: 37 :: fmt) args = (protoPrintf (37 :: fmt) args).map (32 :: ·) := by
    rw [protoPrintf, if_neg (by decide)]
  rcases eq_of_fieldText h with rfl | rfl
  · show protoPrintf (32 :: 37 :: 115 :: fmt) _ = _
    rw [hblank, protoPrintf, if_pos rfl, conversion_str]
    simp only [Option.map_map]
    rfl
  · show protoPrintf (32 :: 37 :: 97 :: fmt) _ = _
    rw [hblank, protoPrintf, if_pos rfl,
      show conversion 97 (.attr s :: args) = some (protoEscape s, args) from rfl]
    simp only [Option.map_map]
    rfl

theorem protoPrintf_fields {args : List Arg} {texts : List (List Byte)}
    (h : args.map fieldText = texts.map some) :
    protoPrintf (args.flatMap fieldFormat ++ [nl]) args =
      some (texts.flatMap (fun s => 32 :: protoEscape s) ++ [nl]) := by
  induction args generalizing texts with
  | nil =>
    obtain rfl : texts = [] := by simpa using h.symm
    rfl
  | cons a args ih =>
    obtain ⟨s, texts, rfl⟩ : ∃ s t, texts = s :: t := by
      rcases texts with - | ⟨s, t⟩
      · cases h
      · exact ⟨s, t, rfl⟩
    obtain ⟨ha, hargs⟩ := List.cons.inj h
    rw [List.flatMap_cons, List.append_assoc, protoPrintf_field ha, ih hargs]
    simp

/-- A line with a letter in front of its fields. -/
theorem printf_fields {cmd : Byte} {fmt : List Char} {args : List Arg} {texts : List (List Byte)}
    (hcmd : cmd ≠ 37) (hfmt : bytes fmt = cmd :: (args.flatMap fieldFormat ++ [nl]))
    (h : args.map fieldText = texts.map some) :
    printf fmt (args.map some) = .ok (textLine cmd texts) := by
  have hargs : (args.map some).mapM id = some args := by
    clear hfmt h
    induction args with
    | nil => rfl
    | cons a args ih => simp [ih]
  have hfields := protoPrintf_fields h
  obtain ⟨d, rest, hd⟩ := List.exists_cons_of_ne_nil
    (show args.flatMap fieldFormat ++ [nl] ≠ [] by simp)
  rw [hd] at hfields
  rw [printf, hargs]
  simp only
  rw [hfmt, hd, protoPrintf, if_neg hcmd, hfields]
  rfl

/-! ## Records -/

/-- A string that a field can hold. -/
def Plain (s : List Byte) : Prop := s ≠ [] ∧ 0 ∉ s

/-- Attributes that are decoded as they were. -/
def Decodes (env : Env) (fa : Fattr) : Prop := decoded env (attrText env fa) = some fa

/-- The records with the fields of their types. -/
inductive Cooked (env : Env) : StatusRec → Prop
  | dirdown {file : List Byte} :
    Plain file → Cooked env ⟨.dirdown, file, none, none, none, none, none, none⟩
  | dirup {file : List Byte} {ca : Fattr} : Plain file → Decodes env ca →
    Cooked env ⟨.dirup, file, none, none, none, none, none, some ca⟩
  | filelive {file : List Byte} {ca : Fattr} : Plain file → Decodes env ca →
    Cooked env ⟨.filelive, file, none, none, none, none, none, some ca⟩
  | filedead {file : List Byte} {ca : Fattr} : Plain file → Decodes env ca →
    Cooked env ⟨.filedead, file, none, none, none, none, none, some ca⟩
  | checkoutdead {file tag date : List Byte} {sa : Fattr} : Plain file → Plain tag → Plain date →
    Decodes env sa →
    Cooked env ⟨.checkoutdead, file, some tag, some date, none, none, some sa, none⟩
  | checkoutlive {file tag date revnum revdate : List Byte} {sa ca : Fattr} : Plain file →
    Plain tag → Plain date → Decodes env sa → Plain revnum → Plain revdate → Decodes env ca →
    Cooked env ⟨.checkoutlive, file, some tag, some date, some revnum, some revdate, some sa,
      some ca⟩

/-- The fields behind the name, in the order of a line. -/
def fieldsOf (env : Env) (sr : StatusRec) : List (List Byte) :=
  sr.tag.toList ++ sr.date.toList ++ (sr.serverattr.map (attrText env)).toList ++
    sr.revnum.toList ++ sr.revdate.toList ++ (sr.clientattr.map (attrText env)).toList

/-- The directory that a record itself opens or closes. -/
def ownEvents (sr : StatusRec) : List Event :=
  match sr.type with
  | .dirdown => [(.dirDown, sr.file)]
  | .dirup => [(.dirUp, sr.file)]
  | _ => []

/-- The directory of the record is open: no other directory is opened or closed
when the record is put. -/
def Placed (pc : Pathcomp.State) (sr : StatusRec) : Prop :=
  ∃ pc', putRecord pc sr = .ok (ownEvents sr, pc')

theorem Decodes.plain {fa : Fattr} (h : Decodes env fa) : Plain (attrText env fa) := by
  refine ⟨fun hnil => ?_, zero_notMem_cstr _⟩
  rw [Decodes, hnil] at h
  cases h

theorem Cooked.plain {sr : StatusRec} (h : Cooked env sr) :
    ∀ s ∈ sr.file :: fieldsOf env sr, Plain s := by
  rcases h with hf | ⟨hf, hc⟩ | ⟨hf, hc⟩ | ⟨hf, hc⟩ | ⟨hf, ht, hd, hs⟩ | ⟨hf, ht, hd, hs, hn, hr, hc⟩
  · simp [fieldsOf, hf]
  · simp [fieldsOf, hf, hc.plain]
  · simp [fieldsOf, hf, hc.plain]
  · simp [fieldsOf, hf, hc.plain]
  · simp [fieldsOf, hf, ht, hd, hs.plain]
  · simp [fieldsOf, hf, ht, hd, hs.plain, hn, hr, hc.plain]

/-- Between two puts, a record moves from the directory that is open to its own. -/
theorem putRecord_eq {pc : Pathcomp.State} {d : List Component} (h : AtRest pc d)
    {sr : StatusRec} {path : List Component} (hfile : sr.file = joinPath path) :
    ∃ pc', putRecord pc sr =
        .ok ((moves d (targetDir (pcType sr.type) path)).map Pathcomp.event, pc') ∧
      AtRest pc' (targetDir (pcType sr.type) path) := by
  obtain ⟨pc₁, pc₂, hput, hdrain, hrest⟩ := Pathcomp.put_drain h (pcType sr.type) path
  refine ⟨pc₂, ?_, hrest⟩
  rw [putRecord, hfile, show joinPath path ++ [0] = pathBytes path from rfl, hput]
  simp only [hdrain]

/-- A file or a directory that is opened is placed where the directory around it is
open, and a directory that is closed where it is open itself. -/
theorem putRecord_own {pc : Pathcomp.State} {d : List Component} (h : AtRest pc d)
    {sr : StatusRec} {c : Component} (hfile : sr.file = joinPath (d ++ [c]))
    (htype : sr.type ≠ .dirup) :
    ∃ pc', putRecord pc sr = .ok (ownEvents sr, pc') ∧
      AtRest pc' (if sr.type = .dirdown then d ++ [c] else d) := by
  obtain ⟨pc', hput, hrest⟩ := putRecord_eq h hfile
  refine ⟨pc', hput.trans ?_, ?_⟩
  · cases ht : sr.type with
    | dirup => exact absurd ht htype
    | dirdown =>
      rw [ownEvents, ht, hfile]
      show Except.ok ((moves d (d ++ [c])).map Pathcomp.event, pc') = _
      rw [moves_child]
      rfl
    | filelive | filedead | checkoutlive | checkoutdead =>
      rw [ownEvents, ht]
      show Except.ok ((moves d (d ++ [c]).dropLast).map Pathcomp.event, pc') = _
      rw [List.dropLast_concat, moves_self]
      rfl
  · cases ht : sr.type <;> simp_all [pcType, targetDir]

theorem putRecord_own_dirup {pc : Pathcomp.State} {d : List Component} {c : Component}
    (h : AtRest pc (d ++ [c])) {sr : StatusRec} (hfile : sr.file = joinPath (d ++ [c]))
    (htype : sr.type = .dirup) :
    ∃ pc', putRecord pc sr = .ok (ownEvents sr, pc') ∧ AtRest pc' d := by
  obtain ⟨pc', hput, hrest⟩ := putRecord_eq h hfile
  have hdir : targetDir (pcType sr.type) (d ++ [c]) = d := by
    rw [htype]
    exact List.dropLast_concat
  rw [hdir] at hput hrest
  refine ⟨pc', ?_, hrest⟩
  rw [hput, moves_parent, ownEvents, htype, hfile]
  rfl

theorem placed_of_atRest {pc : Pathcomp.State} {d : List Component} (h : AtRest pc d)
    {sr : StatusRec} {c : Component} (hfile : sr.file = joinPath (d ++ [c]))
    (htype : sr.type ≠ .dirup) : Placed pc sr :=
  (putRecord_own h hfile htype).imp fun _ => And.left

theorem placed_of_atRest_dirup {pc : Pathcomp.State} {d : List Component} {c : Component}
    (h : AtRest pc (d ++ [c])) {sr : StatusRec} (hfile : sr.file = joinPath (d ++ [c]))
    (htype : sr.type = .dirup) : Placed pc sr :=
  (putRecord_own_dirup h hfile htype).imp fun _ => And.left

/-! ## Writing -/

/-- Whether the line of a record is that of a directory. -/
def ofDir (sr : StatusRec) : Prop := sr.type = .dirdown ∨ sr.type = .dirup

instance (sr : StatusRec) : Decidable (ofDir sr) := inferInstanceAs (Decidable (_ ∨ _))

/-- The line of a record: its letter and its fields. -/
def recordText (env : Env) (sr : StatusRec) : List Byte :=
  textLine (cmdOf sr.type) (sr.file :: fieldsOf env sr)

theorem dirLines_own {sr : StatusRec} (h : Cooked env sr) :
    dirLines env (if sr.type = .dirup then some sr.clientattr else none) (ownEvents sr) =
      .ok (if ofDir sr then recordText env sr else []) := by
  rcases h with @⟨file, hf⟩ | @⟨file, ca, hf, hc⟩ | _ | _ | _ | _
  case dirdown =>
    have hline : printf "D %s\n".toList [some (.str file)] = .ok (textLine 68 [file]) :=
      @printf_fields 68 _ [.str file] [file] (by decide) rfl rfl
    show (do
      let line ← printf "D %s\n".toList [some (.str file)]
      let rest ← Except.ok []
      return line ++ rest) = _
    rw [hline]
    show Except.ok (textLine 68 [file] ++ []) = .ok (textLine 68 [file])
    rw [List.append_nil]
  case dirup =>
    have hline : printf "U %s %a\n".toList [some (.str file), attrArg env (some ca)] =
        .ok (textLine 85 [file, attrText env ca]) :=
      @printf_fields 85 _ [.str file, .attr (attrText env ca)] _ (by decide) rfl rfl
    show (do
      let line ← printf "U %s %a\n".toList [some (.str file), attrArg env (some ca)]
      let rest ← Except.ok []
      return line ++ rest) = _
    rw [hline]
    show Except.ok (textLine 85 [file, attrText env ca] ++ []) = .ok (textLine 85 _)
    rw [List.append_nil]
    rfl
  all_goals rfl

theorem recordLine_text {sr : StatusRec} (h : Cooked env sr) :
    recordLine env sr = .ok (if ofDir sr then [] else recordText env sr) := by
  rcases h with _ | _ | @⟨file, ca, hf, hc⟩ | @⟨file, ca, hf, hc⟩ |
    @⟨file, tag, date, sa, hf, ht, hd, hs⟩ |
    @⟨file, tag, date, revnum, revdate, sa, ca, hf, ht, hd, hs, hn, hr, hc⟩
  · rfl
  · rfl
  · exact @printf_fields 86 "V %s %a\n".toList [.str file, .attr (attrText env ca)]
      [file, attrText env ca] (by decide) rfl rfl
  · exact @printf_fields 118 "v %s %a\n".toList [.str file, .attr (attrText env ca)]
      [file, attrText env ca] (by decide) rfl rfl
  · exact @printf_fields 99 "c %s %s %s %a\n".toList
      [.str file, .str tag, .str date, .attr (attrText env sa)]
      [file, tag, date, attrText env sa] (by decide) rfl rfl
  · exact @printf_fields 67 "C %s %s %s %a %s %s %a\n".toList
      [.str file, .str tag, .str date, .attr (attrText env sa), .str revnum, .str revdate,
        .attr (attrText env ca)]
      [file, tag, date, attrText env sa, revnum, revdate, attrText env ca] (by decide) rfl rfl

/-- A record is written on one line. -/
theorem statusWr_eq {st : State} {sr : StatusRec} (h : Cooked env sr) (hp : Placed st.pc sr) :
    ∃ pc, statusWr env st sr = .ok ({ st with pc }.add (recordText env sr)) := by
  obtain ⟨pc, hput⟩ := hp
  refine ⟨pc, ?_⟩
  have htext : (if ofDir sr then recordText env sr else []) ++
      (if ofDir sr then [] else recordText env sr) = recordText env sr := by
    split <;> simp
  simp only [statusWr, hput, dirLines_own h, recordLine_text h, bind, Except.bind, htext]
  rfl

/-! ## Reading -/

/-- Strings as the fields that they are written as. -/
theorem exists_fields {texts : List (List Byte)} (h : ∀ s ∈ texts, Plain s) :
    ∃ fs : List Field, fs.map Field.text = texts ∧
      blanked fs = texts.flatMap (fun s => 32 :: protoEscape s) := by
  induction texts with
  | nil => exact ⟨[], rfl, rfl⟩
  | cons s texts ih =>
    obtain ⟨fs, htexts, hfs⟩ := ih fun t ht => h t (List.mem_cons_of_mem _ ht)
    obtain ⟨hne, h0⟩ := h s (List.mem_cons_self ..)
    refine ⟨⟨protoEscape s, protoEscape_ne_nil hne, notMem_protoEscape s (.inl rfl),
      zero_notMem_protoEscape h0, notMem_protoEscape s (by simp)⟩ :: fs, ?_, ?_⟩
    · rw [List.map_cons, htexts, Field.text, protoUnescape_protoEscape]
    · rw [blanked, List.flatMap_cons, ← blanked, hfs, List.flatMap_cons]

theorem restOf_nil : restOf [] = none := rfl

/-- The fields behind a name are read into the record. -/
theorem statusrecCook_restOf {sr : StatusRec} (h : Cooked env sr) {fs : List Field}
    (hfs : fs.map Field.text = fieldsOf env sr) :
    statusrecCook env (rawRec sr.type sr.file) (restOf fs) = some sr := by
  rcases h with hf | ⟨hf, hc⟩ | ⟨hf, hc⟩ | ⟨hf, hc⟩ | ⟨hf, ht, hd, hs⟩ | ⟨hf, ht, hd, hs, hn, hr, hc⟩
  · obtain rfl : fs = [] := List.map_eq_nil_iff.mp hfs
    rfl
  iterate 3
    obtain ⟨f, rfl, htext⟩ := List.map_eq_singleton_iff.mp hfs
    simp only [statusrecCook, rawRec, protoGetAscii_rest, htext, restOf_nil]
    rw [hc]
    rfl
  · obtain ⟨f₁, fs, rfl, h₁, hfs⟩ := List.map_eq_cons_iff.mp hfs
    obtain ⟨f₂, fs, rfl, h₂, hfs⟩ := List.map_eq_cons_iff.mp hfs
    obtain ⟨f₃, rfl, h₃⟩ := List.map_eq_singleton_iff.mp hfs
    simp only [statusrecCook, rawRec, protoGetAscii_rest, h₁, h₂, h₃, restOf_nil]
    rw [hs]
    rfl
  · obtain ⟨f₁, fs, rfl, h₁, hfs⟩ := List.map_eq_cons_iff.mp hfs
    obtain ⟨f₂, fs, rfl, h₂, hfs⟩ := List.map_eq_cons_iff.mp hfs
    obtain ⟨f₃, fs, rfl, h₃, hfs⟩ := List.map_eq_cons_iff.mp hfs
    obtain ⟨f₄, fs, rfl, h₄, hfs⟩ := List.map_eq_cons_iff.mp hfs
    obtain ⟨f₅, fs, rfl, h₅, hfs⟩ := List.map_eq_cons_iff.mp hfs
    obtain ⟨f₆, rfl, h₆⟩ := List.map_eq_singleton_iff.mp hfs
    simp only [statusrecCook, rawRec, protoGetAscii_rest, h₁, h₂, h₃, h₄, h₅, h₆, restOf_nil]
    rw [hs, hc]

/-- A line of a letter and fields is the record of the letter with the first field
as its name. -/
theorem lineRec_fields (type : SrType) (f : Field) (fs : List Field) :
    lineRec (cmdOf type :: blanked (f :: fs)) = some (type, f.text, restOf fs) := by
  show lineRec (cmdOf type :: 32 :: (f.val ++ blanked fs)) = _
  rw [lineRec_cmdOf, show some (f.val ++ blanked fs) = restOf (f :: fs) from rfl,
    protoGetAscii_rest]

theorem behindLine_append {w : List Byte} (hw : nl ∉ w) (q : List Byte) :
    behindLine nl (w ++ nl :: q) = q := by
  rw [behindLine, splitLines_append_full hw, List.tail_cons, flatten_splitLines]

/-- A line whose type and name are those of a record; what is left of it is for `R`. -/
def LineOf (R : StatusRec → Option (List Byte) → Prop) (line : List Byte) (sr : StatusRec) : Prop :=
  ∃ w l, line = w ++ [nl] ∧ (nl ∉ w ∧ 0 ∉ w) ∧ lineRec w = some (sr.type, sr.file, l) ∧ R sr l

/-- What is left of a line has the fields of the record. -/
def HasFields (env : Env) (sr : StatusRec) (l : Option (List Byte)) : Prop :=
  statusrecCook env (rawRec sr.type sr.file) l = some sr

/-- What is read of such a line in front of others. -/
theorem LineOf.read {R : StatusRec → Option (List Byte) → Prop} {line : List Byte} {sr : StatusRec}
    (h : LineOf R line sr) (q : List Byte) :
    line ++ q ≠ [] ∧ behindLine nl (line ++ q) = q ∧
      ∃ l, lineRec (cline (lineOf nl (line ++ q))) = some (sr.type, sr.file, l) ∧ R sr l := by
  obtain ⟨w, l, rfl, ⟨hnl, h0⟩, hrec, hR⟩ := h
  have htext : w ++ [nl] ++ q = w ++ nl :: q := by simp
  rw [htext]
  refine ⟨by simp, behindLine_append hnl q, l, ?_, hR⟩
  rw [lineOf_append hnl, cline_append_nl h0, hrec]

/-- A line of a letter, a name and fields, and the record that they are. -/
theorem lineOf_textLine {sr : StatusRec} {texts : List (List Byte)}
    (hplain : ∀ s ∈ sr.file :: texts, Plain s)
    (hcook : ∀ fs : List Field, fs.map Field.text = texts → HasFields env sr (restOf fs)) :
    LineOf (HasFields env) (textLine (cmdOf sr.type) (sr.file :: texts)) sr := by
  obtain ⟨fs, htexts, hfs⟩ := exists_fields hplain
  obtain ⟨f, fs, rfl, hname, hfields⟩ := List.map_eq_cons_iff.mp htexts
  obtain ⟨hcmd, hcmd0⟩ := cmdOf_ne sr.type
  refine ⟨cmdOf sr.type :: blanked (f :: fs), restOf fs, ?_, ⟨?_, ?_⟩, ?_, hcook fs hfields⟩
  · simp [textLine, hfs]
  · simp [hcmd, nl_notMem_blanked]
  · simp [hcmd0, zero_notMem_blanked]
  · rw [lineRec_fields, hname]

theorem lineOf_recordText {sr : StatusRec} (h : Cooked env sr) :
    LineOf (HasFields env) (recordText env sr) sr :=
  lineOf_textLine h.plain fun _ => statusrecCook_restOf h

/-- A record that is written where its directory is open, and read at a place where
it is the next one, is read as it was. -/
theorem statusRd_statusWr {st back : State} {sr : StatusRec} {w : List Byte} (h : Cooked env sr)
    (hp : Placed st.pc sr) (hw : st.wr = some w) (ht : Takes back sr) :
    ∃ st' out, statusWr env st sr = .ok st' ∧ st'.wr = some (w ++ out) ∧
      ∀ q, ∃ back', statusRd env { back with rd := some (out ++ q) } = (back', some sr) ∧
        back'.rd = some q := by
  obtain ⟨pc, hwr⟩ := statusWr_eq h hp
  refine ⟨_, recordText env sr, hwr, by simp [State.add, hw], fun q => ?_⟩
  obtain ⟨hne, hbehind, l, hrec, hcook⟩ := (lineOf_recordText h).read q
  have hraw := @statusRdraw_of { back with rd := some (recordText env sr ++ q) } _ _ _ _ rfl hne
    hrec ⟨ht.eof, ht.sorted, ht.opened⟩
  rw [statusRd, hraw]
  simp only [show statusrecCook env (rawRec sr.type sr.file) l = some sr from hcook]
  exact ⟨_, rfl, congrArg some hbehind⟩

/-- The attributes of a file with one link. -/
def oneLink : Fattr :=
  ⟨maskOf [.filetype, .modtime, .linkcount], .file, 1, 0, [], 0, 0, 0, 0, 0, 1, 0, 0⟩

/-- The record of a live file. -/
def liveFile (file : List Byte) : StatusRec :=
  { rawRec .filelive file with clientattr := some oneLink }

theorem statusRd_statusWr_filelive :
    ∃ st' out, statusWr envOfNone (fileOf []) (liveFile (bytes "a b".toList)) = .ok st' ∧
      st'.wr = some ([] ++ out) ∧
      ∀ q, ∃ back', statusRd envOfNone { fileOf [] with rd := some (out ++ q) } =
          (back', some (liveFile (bytes "a b".toList))) ∧
        back'.rd = some q :=
  statusRd_statusWr (.filelive ⟨by decide, by decide⟩ rfl) ⟨_, rfl⟩ rfl ⟨rfl, rfl, nofun⟩

end Csup.Status
