import Csup.Framework.Filling
import Csup.Status.Nested

/-!
# Records that are written one after the other

A status file is written with `status_wr` and `status_wrraw`, which open and close the
directories between one record and the next. What has been written is the lines of the
records, and of these directories (`Fills`, `Wrote`).

* `LinesOf.unread`: lines that are sorted and nested are read;
* `Wrote.statusWr`, `Wrote.statusWrraw`: a record behind the others;
* `Wrote.statusClose`: the file, with the directories closed that are still open.
-/

namespace Csup.Status

open Csup.Attrs (Fattr)
open Csup.Framework
open Csup.Proto
open Csup.Pathcomp (AtRest Event targetDir event)

/-! ## Marks -/

/-- A name with components. -/
def IsName (name : List Byte) : Prop := ∃ path ≠ [], joinPath path = name

open Classical in
/-- The path of a name. -/
noncomputable def pathOf (name : List Byte) : List Component :=
  if h : IsName name then h.choose else []

/-- The mark of a record. -/
noncomputable def StatusRec.mark (sr : StatusRec) : Mark Component :=
  match sr.type with
  | .dirdown => .down (pathOf sr.file)
  | .dirup => .up (pathOf sr.file)
  | _ => .leaf (pathOf sr.file)

section

variable {name : List Byte} {path : List Component} {sr : StatusRec} {m : Mark Component}

theorem IsName.pathOf (h : IsName name) : joinPath (pathOf name) = name ∧ pathOf name ≠ [] := by
  rw [Status.pathOf, dif_pos h]
  exact ⟨h.choose_spec.2, h.choose_spec.1⟩

theorem pathOf_joinPath (hne : path ≠ []) : pathOf (joinPath path) = path :=
  have h := IsName.pathOf ⟨path, hne, rfl⟩
  joinPath_injective h.2 hne h.1

theorem IsName.plain (h : IsName name) : Plain name := by
  obtain ⟨path, hne, rfl⟩ := h
  exact ⟨joinPath_ne_nil hne, zero_notMem_joinPath path⟩

theorem node_mark (sr : StatusRec) : sr.mark.node = pathOf sr.file := by
  unfold StatusRec.mark
  split <;> rfl

theorem mark_ne (h : IsName sr.file) : sr.mark.node ≠ [] := by
  rw [node_mark]
  exact h.pathOf.2

theorem marks_mark (h : IsName sr.file) : Marks sr sr.mark := by
  have hfile := h.pathOf.1.symm
  unfold StatusRec.mark
  split
  · next ht => exact ⟨ht, hfile⟩
  · next ht => exact ⟨ht, hfile⟩
  · next hdown hup => exact ⟨⟨hdown, hup⟩, hfile⟩

theorem Marks.eq_mark (h : Marks sr m) (hne : m.node ≠ []) : sr.mark = m := by
  have hpath : Status.pathOf sr.file = m.node := by rw [h.file, pathOf_joinPath hne]
  cases m with
  | down path | up path => simp only [StatusRec.mark, h.1, hpath, Mark.node]
  | leaf path =>
    obtain ⟨⟨hdown, hup⟩, -⟩ := h
    rw [StatusRec.mark, hpath]
    split
    · next ht => exact absurd ht hdown
    · next ht => exact absurd ht hup
    · rfl

theorem Marks.isName (h : Marks sr m) (hne : m.node ≠ []) : IsName sr.file :=
  ⟨m.node, hne, h.file.symm⟩

/-- The directory that is open behind a record. -/
theorem targetDir_mark (sr : StatusRec) :
    targetDir (pcType sr.type) (pathOf sr.file) = sr.mark.after := by
  unfold StatusRec.mark
  cases sr.type <;> rfl

theorem map_mark {recs : List StatusRec} {ms : List (Mark Component)}
    (hm : List.Forall₂ Marks recs ms) (hne : ∀ m ∈ ms, m.node ≠ []) :
    recs.map StatusRec.mark = ms ∧ ∀ sr ∈ recs, IsName sr.file := by
  induction hm with
  | nil => simp
  | cons h _ ih =>
    obtain ⟨hm, hne⟩ := List.forall_mem_cons.mp hne
    obtain ⟨hmap, hnames⟩ := ih hne
    rw [List.map_cons, h.eq_mark hm, hmap, List.forall_mem_cons]
    exact ⟨rfl, h.isName hm, hnames⟩

end

/-! ## Lines -/

variable {env : Env} {R : StatusRec → Option (List Byte) → Prop}

/-- The lines of records. -/
inductive LinesOf (R : StatusRec → Option (List Byte) → Prop) : List Byte → List StatusRec → Prop
  | nil : LinesOf R [] []
  | cons {line text : List Byte} {sr : StatusRec} {srs : List StatusRec} (h : LineOf R line sr)
      (hrest : LinesOf R text srs) : LinesOf R (line ++ text) (sr :: srs)

section

variable {text text' line : List Byte} {sr : StatusRec} {srs srs' : List StatusRec}

theorem LinesOf.append (h : LinesOf R text srs) (h' : LinesOf R text' srs') :
    LinesOf R (text ++ text') (srs ++ srs') := by
  induction h with
  | nil => exact h'
  | cons h _ ih =>
    rw [List.append_assoc]
    exact .cons h ih

theorem LineOf.lines (h : LineOf R line sr) : LinesOf R line [sr] := by
  have hlines := LinesOf.cons h .nil
  rwa [List.append_nil] at hlines

/-- The depth behind a record of a nested file. -/
theorem nested_depth {d : List Component} {ms : List (Mark Component)}
    (h : Nested d (sr.mark :: ms)) : ∃ e, Nested e ms ∧ e.length = depthAfter sr.type d.length ∧
      (sr.type = .dirup → d.length ≠ 0) := by
  unfold StatusRec.mark at h
  generalize pathOf sr.file = path at h
  split at h
  · next ht =>
    cases h with
    | @down _ a _ h => exact ⟨d ++ [a], h, by simp [ht, depthAfter], by simp [ht]⟩
  · next ht =>
    cases h with
    | @up e a _ h => exact ⟨e, h, by simp [ht, depthAfter], by simp⟩
  · next hdown hup =>
    cases h with
    | leaf h =>
      refine ⟨d, h, ?_, fun ht => absurd ht hup⟩
      unfold depthAfter
      split
      · next ht => exact absurd ht hdown
      · next ht => exact absurd ht hup
      · rfl

theorem not_any_le {prev : Option StatusRec} (h : ∀ p ∈ prev, statusrecCmp p sr < 0) :
    prev.any (fun p => 0 ≤ statusrecCmp p sr) = false := by
  rcases prev with - | p
  · rfl
  · have := h p rfl
    simpa using this

/-- Lines of records that are sorted and nested are read, with their fields. -/
theorem LinesOf.unread {prev : Option StatusRec} {d : List Component}
    (h : LinesOf (HasFields env) text srs)
    (hprev : ∀ p ∈ prev, ∀ sr ∈ srs.head?, statusrecCmp p sr < 0)
    (hsorted : srs.IsChain (statusrecCmp · · < 0)) (hn : Nested d (srs.map StatusRec.mark)) :
    Unread env prev d.length text srs := by
  induction h generalizing prev d with
  | nil =>
    rw [List.map_nil] at hn
    cases hn
    exact .nil
  | @cons line text sr srs hline _ ih =>
    obtain ⟨hne, hbehind, l, hrec, hcook⟩ := hline.read text
    obtain ⟨hhead, hsorted⟩ := List.isChain_cons.mp hsorted
    obtain ⟨e, hn, hlen, hup⟩ := nested_depth hn
    refine .cons hne hrec hcook (not_any_le fun p hp => hprev p hp sr rfl) hup ?_
    rw [hbehind, ← hlen]
    exact ih (fun p hp x hx => by cases hp; exact hhead x hx) hsorted hn

/-- They are read by `status_rdraw` with any fields. -/
theorem LinesOf.rdrawLoop {st : State} {d : List Component} {turns : Nat} (h : LinesOf R text srs)
    (hprev : ∀ p ∈ st.previous, ∀ sr ∈ srs.head?, statusrecCmp p sr < 0)
    (hsorted : srs.IsChain (statusrecCmp · · < 0)) (hn : Nested d (srs.map StatusRec.mark))
    (hrd : st.rd = some text) (heof : st.eof = false) (hdepth : st.depth = d.length)
    (herror : st.error = none) (hturns : srs.length < turns) :
    (rdrawLoop turns st).1 = srs.map StatusRec.raw ∧ (rdrawLoop turns st).2.error = none ∧
      (rdrawLoop turns st).2.eof = true := by
  induction h generalizing st d turns with
  | nil =>
    obtain ⟨turns, rfl⟩ : ∃ n, turns = n + 1 := ⟨turns - 1, by simp at hturns; omega⟩
    rw [List.map_nil] at hn
    cases hn
    have hraw : statusRdraw st = ({ st with eof := true }, none) := by
      simp [statusRdraw, hrd, heof, streamGetln, hdepth]
    simp only [Status.rdrawLoop, hraw, List.map_nil]
    exact ⟨trivial, herror, trivial⟩
  | @cons line text sr srs hline _ ih =>
    obtain ⟨turns, rfl⟩ : ∃ n, turns = n + 1 := ⟨turns - 1, by simp at hturns; omega⟩
    obtain ⟨hne, hbehind, l, hrec, -⟩ := hline.read text
    obtain ⟨hhead, hsorted⟩ := List.isChain_cons.mp hsorted
    obtain ⟨e, hn, hlen, hup⟩ := nested_depth hn
    have htakes : Takes st (rawRec sr.type sr.file) :=
      ⟨heof, not_any_le fun p hp => hprev p hp sr rfl, hdepth ▸ hup⟩
    have hraw := statusRdraw_of hrd hne hrec htakes
    rw [hbehind, hdepth, ← hlen] at hraw
    obtain ⟨hsrs, hend⟩ := @ih { st with
        rd := some text
        linenum := st.linenum + 1
        depth := e.length
        previous := some (rawRec sr.type sr.file) } e turns
      (fun p hp x hx => by cases hp; exact hhead x hx) hsorted hn rfl heof rfl herror
      (by simpa using hturns)
    simp only [Status.rdrawLoop, hraw, List.map_cons]
    exact ⟨congrArg (sr.raw :: ·) hsrs, hend⟩

end

/-! ## Lines of directories -/

/-- A directory can be closed with the attributes. -/
def Closes (env : Env) (R : StatusRec → Option (List Byte) → Prop) (fa : Fattr) : Prop :=
  ∀ name, IsName name → ∃ line r,
    printf "U %s %a\n".toList [some (.str name), attrArg env (some fa)] = .ok line ∧
      LineOf R line r ∧ r.type = .dirup ∧ r.file = name

/-- Directories can be opened, and closed again. -/
structure ForDirs (env : Env) (R : StatusRec → Option (List Byte) → Prop) : Prop where
  opens : ∀ name, IsName name → R (rawRec .dirdown name) none
  closes : Closes env R fattrBogus

/-- The record can be written: its line, or the one of the directory that it closes. -/
structure Writable (env : Env) (R : StatusRec → Option (List Byte) → Prop) (sr : StatusRec) :
    Prop where
  line : ¬ofDir sr → ∃ line, recordLine env sr = .ok line ∧ LineOf R line sr
  up : sr.type = .dirup → ∃ fa, sr.clientattr = some fa ∧ Closes env R fa

/-- The line of a directory that is opened. -/
theorem line_down (hR : ForDirs env R) {name : List Byte} (hname : IsName name) :
    printf "D %s\n".toList [some (.str name)] = .ok (textLine 68 [name]) ∧
      LineOf R (textLine 68 [name]) (rawRec .dirdown name) := by
  refine ⟨@printf_fields 68 _ [.str name] [name] (by decide) rfl rfl, ?_⟩
  obtain ⟨w, l, hline, hw, hrec, hcook⟩ :=
    @lineOf_recordText env (rawRec .dirdown name) (.dirdown hname.plain)
  obtain ⟨-, -, ⟨-, rfl⟩ | ⟨hno, -⟩⟩ := statusrecCook_some hcook
  · exact ⟨w, none, hline, hw, hrec, hR.opens name hname⟩
  · exact absurd rfl hno

/-- Records of directories, with their marks. -/
structure DirRecs (ms : List (Mark Component)) (out : List StatusRec) : Prop where
  marks : out.map StatusRec.mark = ms
  dirs : ∀ r ∈ out, ofDir r
  names : ∀ r ∈ out, IsName r.file

theorem DirRecs.cons {ms : List (Mark Component)} {out : List StatusRec} {r : StatusRec}
    (h : DirRecs ms out) (hdir : ofDir r) (hname : IsName r.file) :
    DirRecs (r.mark :: ms) (r :: out) where
  marks := by rw [List.map_cons, h.marks]
  dirs := List.forall_mem_cons.mpr ⟨hdir, h.dirs⟩
  names := List.forall_mem_cons.mpr ⟨hname, h.names⟩

/-- The lines of the directories on a walk. -/
theorem dirLines_walk (hR : ForDirs env R) {ms : List (Move Component)}
    (hms : ∀ m ∈ ms, m.mark.node ≠ []) {clientattr : Option (Option Fattr)}
    (hattr : ∀ a ∈ clientattr, ∃ fa, a = some fa ∧ Closes env R fa) :
    ∃ text out, dirLines env clientattr (ms.map event) = .ok text ∧ LinesOf R text out ∧
      DirRecs (ms.map Move.mark) out := by
  induction ms generalizing clientattr with
  | nil => exact ⟨[], [], rfl, .nil, rfl, by simp, by simp⟩
  | cons m ms ih =>
    obtain ⟨hm, hrest⟩ := List.forall_mem_cons.mp hms
    cases m with
    | down d =>
      obtain ⟨text, out, hdirs, hlines, hout⟩ := ih hrest hattr
      have hname : IsName (joinPath d) := ⟨d, hm, rfl⟩
      obtain ⟨hprint, hline⟩ := line_down hR hname
      refine ⟨_, rawRec .dirdown (joinPath d) :: out, ?_, .cons hline hlines, ?_⟩
      · rw [List.map_cons, event, dirLines, hprint, hdirs]
        rfl
      · have hmark : (rawRec .dirdown (joinPath d)).mark = .down d :=
          congrArg Mark.down (pathOf_joinPath hm)
        rw [List.map_cons, Move.mark, ← hmark]
        exact hout.cons (.inl rfl) hname
    | up d =>
      obtain ⟨text, out, hdirs, hlines, hout⟩ := @ih hrest none nofun
      obtain ⟨fa, hfa, hcloses⟩ :
          ∃ fa, clientattr.getD (some fattrBogus) = some fa ∧ Closes env R fa := by
        rcases clientattr with - | a
        · exact ⟨_, rfl, hR.closes⟩
        · exact hattr a rfl
      have hname : IsName (joinPath d) := ⟨d, hm, rfl⟩
      obtain ⟨line, r, hprint, hline, ht, hfile⟩ := hcloses _ hname
      refine ⟨_, r :: out, ?_, .cons hline hlines, ?_⟩
      · rw [List.map_cons, event, dirLines, hfa]
        simp only [hprint, hdirs, bind, Except.bind]
        rfl
      · have hmark : r.mark = .up d := by
          rw [StatusRec.mark, ht, hfile]
          exact congrArg Mark.up (pathOf_joinPath hm)
        rw [List.map_cons, Move.mark, ← hmark]
        exact hout.cons (.inr ht) (hfile ▸ hname)

/-- The directories that `status_close` closes are those of a walk. -/
theorem closeDirs_eq {events : List Event} (h : ∀ ev ∈ events, ev.1 = .dirUp) :
    closeDirs env events = dirLines env none events := by
  induction events with
  | nil => rfl
  | cons ev events ih =>
    obtain ⟨hev, hrest⟩ := List.forall_mem_cons.mp h
    rcases ev with ⟨type, name⟩
    obtain rfl : type = .dirUp := hev
    rw [closeDirs, dirLines, if_pos rfl, ih hrest]
    rfl

/-! ## Records whose fields are read back -/

/-- Attributes whose text is decoded. -/
def Legible (env : Env) (fa : Fattr) : Prop := ∃ fa', decoded env (attrText env fa) = some fa'

theorem Legible.plain {fa : Fattr} (h : Legible env fa) : Plain (attrText env fa) := by
  obtain ⟨fa', h⟩ := h
  refine ⟨fun hnil => ?_, zero_notMem_cstr _⟩
  rw [hnil] at h
  cases h

theorem closes_hasFields {fa : Fattr} (h : Legible env fa) : Closes env (HasFields env) fa := by
  intro name hname
  obtain ⟨fa', hdec⟩ := h
  have hplain := Legible.plain ⟨fa', hdec⟩
  refine ⟨textLine 85 [name, attrText env fa], { rawRec .dirup name with clientattr := some fa' },
    @printf_fields 85 _ [.str name, .attr (attrText env fa)] [name, attrText env fa] (by decide) rfl
      rfl, ?_, rfl, rfl⟩
  refine @lineOf_textLine env { rawRec .dirup name with clientattr := some fa' } [attrText env fa]
    (by simp [rawRec, hname.plain, hplain]) fun fs hfs => ?_
  obtain ⟨f, rfl, htext⟩ := List.map_eq_singleton_iff.mp hfs
  simp only [HasFields, statusrecCook, rawRec, protoGetAscii_rest, htext, restOf_nil]
  rw [hdec]
  rfl

theorem Cooked.writable {sr : StatusRec} (h : Cooked env sr) : Writable env (HasFields env) sr where
  line := fun hdir => ⟨_, (recordLine_text h).trans (by rw [if_neg hdir]), lineOf_recordText h⟩
  up := by
    intro ht
    rcases h with _ | ⟨-, hc⟩ | _ | _ | _ | _
    case dirup => exact ⟨_, rfl, closes_hasFields ⟨_, hc⟩⟩
    all_goals cases ht

/-! ## Records with any fields -/

/-- Nothing is said of the fields. -/
def AnyFields (_ : StatusRec) (_ : Option (List Byte)) : Prop := True

/-- A record has the fields of its type. -/
structure Supplied (sr : StatusRec) : Prop where
  client : sr.type ≠ .dirdown → sr.type ≠ .checkoutdead → sr.clientattr.isSome
  server : sr.type = .checkoutlive ∨ sr.type = .checkoutdead →
    sr.tag.isSome ∧ sr.date.isSome ∧ sr.serverattr.isSome
  rev : sr.type = .checkoutlive → sr.revnum.isSome ∧ sr.revdate.isSome
  strings : ∀ s ∈ [sr.tag, sr.date, sr.revnum, sr.revdate], ∀ b ∈ s, 0 ∉ b

/-- The name is read, whatever is behind it. -/
theorem lineOf_anyFields {sr : StatusRec} (hfile : Plain sr.file) {texts : List (List Byte)}
    (h0 : ∀ s ∈ texts, 0 ∉ s) :
    LineOf AnyFields (textLine (cmdOf sr.type) (sr.file :: texts)) sr := by
  obtain ⟨hcmd, hcmd0⟩ := cmdOf_ne sr.type
  have hnl (s : List Byte) : nl ∉ protoEscape s := notMem_protoEscape s (by simp)
  have hzero : ∀ s ∈ sr.file :: texts, 0 ∉ protoEscape s :=
    List.forall_mem_cons.mpr ⟨zero_notMem_protoEscape hfile.2, fun s hs =>
      zero_notMem_protoEscape (h0 s hs)⟩
  have hrec : ∃ l, lineRec (cmdOf sr.type ::
      (sr.file :: texts).flatMap (fun s => 32 :: protoEscape s)) =
      some (sr.type, sr.file, l) := by
    have hesc := protoEscape_ne_nil hfile.1
    have hblank : 32 ∉ protoEscape sr.file := notMem_protoEscape sr.file (.inl rfl)
    rcases texts with - | ⟨t, texts⟩
    · refine ⟨none, ?_⟩
      rw [List.flatMap_singleton, lineRec_cmdOf, protoGetAscii_last hesc hblank,
        protoUnescape_protoEscape]
    · refine ⟨some (protoEscape t ++ texts.flatMap fun s => 32 :: protoEscape s), ?_⟩
      rw [List.flatMap_cons, List.flatMap_cons, List.cons_append, lineRec_cmdOf, List.cons_append,
        protoGetAscii_field hesc hblank, protoUnescape_protoEscape]
  obtain ⟨l, hrec⟩ := hrec
  refine ⟨_, l, rfl, ⟨?_, ?_⟩, hrec, trivial⟩
  · simp [hcmd, hnl, show nl ≠ 32 by decide]
  · rw [List.mem_cons, List.mem_flatMap, not_or]
    refine ⟨hcmd0, ?_⟩
    rintro ⟨s, hs, hmem⟩
    exact hzero s hs ((List.mem_cons.mp hmem).resolve_left (by decide))

theorem closes_anyFields (fa : Fattr) : Closes env AnyFields fa := by
  intro name hname
  exact ⟨textLine 85 [name, attrText env fa], rawRec .dirup name,
    @printf_fields 85 _ [.str name, .attr (attrText env fa)] [name, attrText env fa] (by decide) rfl
      rfl, @lineOf_anyFields (rawRec .dirup name) hname.plain [attrText env fa]
      (by simp [attrText, zero_notMem_cstr]), rfl, rfl⟩

theorem forDirs_anyFields (env : Env) : ForDirs env AnyFields where
  opens := fun _ _ => trivial
  closes := closes_anyFields fattrBogus

theorem Supplied.writable {sr : StatusRec} (h : Supplied sr) (hname : IsName sr.file) :
    Writable env AnyFields sr where
  line := by
    intro hdir
    have hattr (fa : Fattr) : 0 ∉ attrText env fa := zero_notMem_cstr _
    have hline {texts : List (List Byte)} {fmt : List Char} {args : List Arg}
        (hfmt : bytes fmt = cmdOf sr.type :: (args.flatMap fieldFormat ++ [nl]))
        (hargs : args.map fieldText = (sr.file :: texts).map some) (h0 : ∀ s ∈ texts, 0 ∉ s) :
        ∃ line, printf fmt (args.map some) = .ok line ∧ LineOf AnyFields line sr := by
      have hcmd : cmdOf sr.type ≠ 37 := by cases sr.type <;> decide
      exact ⟨_, printf_fields hcmd hfmt hargs, lineOf_anyFields hname.plain h0⟩
    obtain ⟨hclient, hserver, hrev, hstrings⟩ := h
    obtain ⟨type, file, tag, date, revnum, revdate, serverattr, clientattr⟩ := sr
    cases type with
    | dirdown => exact absurd (.inl rfl) hdir
    | dirup => exact absurd (.inr rfl) hdir
    | filelive =>
      obtain ⟨ca, rfl⟩ := Option.isSome_iff_exists.mp (hclient (by simp) (by simp))
      exact @hline [attrText env ca] "V %s %a\n".toList [.str file, .attr (attrText env ca)] rfl rfl
        (by simp [hattr])
    | filedead =>
      obtain ⟨ca, rfl⟩ := Option.isSome_iff_exists.mp (hclient (by simp) (by simp))
      exact @hline [attrText env ca] "v %s %a\n".toList [.str file, .attr (attrText env ca)] rfl rfl
        (by simp [hattr])
    | checkoutdead =>
      obtain ⟨htag, hdate, hsa⟩ := hserver (by simp)
      obtain ⟨tag, rfl⟩ := Option.isSome_iff_exists.mp htag
      obtain ⟨date, rfl⟩ := Option.isSome_iff_exists.mp hdate
      obtain ⟨sa, rfl⟩ := Option.isSome_iff_exists.mp hsa
      exact @hline [tag, date, attrText env sa] "c %s %s %s %a\n".toList
        [.str file, .str tag, .str date, .attr (attrText env sa)] rfl rfl
        (by simpa [hattr] using
          ⟨hstrings (some tag) (by simp) tag rfl, hstrings (some date) (by simp) date rfl⟩)
    | checkoutlive =>
      obtain ⟨ca, rfl⟩ := Option.isSome_iff_exists.mp (hclient (by simp) (by simp))
      obtain ⟨htag, hdate, hsa⟩ := hserver (by simp)
      obtain ⟨tag, rfl⟩ := Option.isSome_iff_exists.mp htag
      obtain ⟨date, rfl⟩ := Option.isSome_iff_exists.mp hdate
      obtain ⟨sa, rfl⟩ := Option.isSome_iff_exists.mp hsa
      obtain ⟨hnum, hrevdate⟩ := hrev rfl
      obtain ⟨revnum, rfl⟩ := Option.isSome_iff_exists.mp hnum
      obtain ⟨revdate, rfl⟩ := Option.isSome_iff_exists.mp hrevdate
      exact @hline [tag, date, attrText env sa, revnum, revdate, attrText env ca]
        "C %s %s %s %a %s %s %a\n".toList [.str file, .str tag, .str date,
          .attr (attrText env sa), .str revnum, .str revdate,
          .attr (attrText env ca)] rfl rfl (by simpa [hattr] using hstrings)
  up := by
    intro ht
    obtain ⟨fa, hfa⟩ := Option.isSome_iff_exists.mp (h.client (by simp [ht]) (by simp [ht]))
    exact ⟨fa, hfa, closes_anyFields fa⟩

/-- A field that is taken off a line with no NUL in it, and what is left. Where there is no
field there is nothing left. -/
theorem protoGetAscii_zero {l f l' : Option (List Byte)} (h : protoGetAscii l = (f, l'))
    (h0 : ∀ r ∈ l, 0 ∉ r) : (∀ s ∈ f, 0 ∉ s) ∧ (∀ r ∈ l', 0 ∉ r) ∧
      (f.isSome → l.isSome) ∧ (l'.isSome → f.isSome) := by
  rcases l with - | line
  · cases h
    simp
  · have hline := h0 line rfl
    rcases line_cases line with hl | ⟨hne, hf⟩ | ⟨w, r, hne, hf, rfl⟩
    · rw [protoGetAscii_empty hl] at h
      cases h
      simp
    · rw [protoGetAscii_last hne hf] at h
      cases h
      simpa using zero_notMem_protoUnescape hline
    · rw [protoGetAscii_field hne hf] at h
      cases h
      obtain ⟨hw, hr⟩ : 0 ∉ w ∧ 0 ∉ r := by simpa using hline
      simpa [hr] using zero_notMem_protoUnescape hw

/-- What has been read has its fields. -/
theorem HasFields.supplied {sr : StatusRec} {l : Option (List Byte)} (h : HasFields env sr l)
    (h0 : ∀ r ∈ l, 0 ∉ r) : Supplied sr := by
  unfold HasFields statusrecCook at h
  rcases hg₁ : protoGetAscii l with ⟨f₁, l₁⟩
  rcases hg₂ : protoGetAscii l₁ with ⟨f₂, l₂⟩
  rcases hg₃ : protoGetAscii l₂ with ⟨f₃, l₃⟩
  rcases hg₄ : protoGetAscii l₃ with ⟨f₄, l₄⟩
  rcases hg₅ : protoGetAscii l₄ with ⟨f₅, l₅⟩
  rcases hg₆ : protoGetAscii l₅ with ⟨f₆, l₆⟩
  obtain ⟨hf₁, hl₁, -, hn₁⟩ := protoGetAscii_zero hg₁ h0
  obtain ⟨hf₂, hl₂, hp₂, hn₂⟩ := protoGetAscii_zero hg₂ hl₁
  obtain ⟨hf₃, hl₃, hp₃, hn₃⟩ := protoGetAscii_zero hg₃ hl₂
  obtain ⟨hf₄, hl₄, hp₄, hn₄⟩ := protoGetAscii_zero hg₄ hl₃
  obtain ⟨hf₅, hl₅, hp₅, hn₅⟩ := protoGetAscii_zero hg₅ hl₄
  obtain ⟨-, -, hp₆, -⟩ := protoGetAscii_zero hg₆ hl₅
  obtain ⟨type, file, tag, date, revnum, revdate, sa, ca⟩ := sr
  cases type with
  | dirdown =>
    simp only [rawRec] at h
    split at h <;> cases h
    exact ⟨by simp, by simp, by simp, by simp⟩
  | filelive | filedead | dirup =>
    simp only [rawRec, hg₁] at h
    split at h
    · obtain ⟨fa, -, hsr⟩ := Option.map_eq_some_iff.mp h
      cases hsr
      exact ⟨by simp, by simp, by simp, by simp⟩
    · cases h
  | checkoutdead =>
    simp only [rawRec, hg₁, hg₂, hg₃] at h
    split at h
    · obtain ⟨fa, -, hsr⟩ := Option.map_eq_some_iff.mp h
      cases hsr
      have hdate : f₂.isSome := hn₂ (hp₃ rfl)
      exact ⟨by simp, fun _ => ⟨hn₁ (hp₂ hdate), hdate, rfl⟩, by simp,
        by simpa using ⟨hf₁, hf₂⟩⟩
    · cases h
  | checkoutlive =>
    simp only [rawRec, hg₁, hg₂, hg₃, hg₄, hg₅, hg₆] at h
    split at h
    · split at h
      · cases h
        have hrevdate : f₅.isSome := hn₅ (hp₆ rfl)
        have hrevnum : f₄.isSome := hn₄ (hp₅ hrevdate)
        have hdate : f₂.isSome := hn₂ (hp₃ (hn₃ (hp₄ hrevnum)))
        exact ⟨by simp, fun _ => ⟨hn₁ (hp₂ hdate), hdate, rfl⟩, fun _ => ⟨hrevnum, hrevdate⟩,
          by simpa using ⟨hf₁, hf₂, hf₄, hf₅⟩⟩
      · cases h
    · cases h

/-! ## What has been written -/

/-- The lines of records, and of directories that are opened and closed, so that the marks
are `ms`. -/
structure Fills (R : StatusRec → Option (List Byte) → Prop) (srs : List StatusRec)
    (ms : List (Mark Component)) (text : List Byte) (out : List StatusRec) : Prop where
  lines : LinesOf R text out
  marks : out.map StatusRec.mark = ms
  files : out.filter (fun r => ¬ofDir r) = srs.filter fun r => ¬ofDir r
  names : ∀ r ∈ out, IsName r.file

/-- Behind a head, the records have been written. -/
structure Wrote (R : StatusRec → Option (List Byte) → Prop) (head : List Byte) (st : State)
    (srs : List StatusRec) : Prop where
  pc : AtRest st.pc (openAfter [] (srs.map StatusRec.mark))
  text : ∃ text out, st.wr = some (head ++ text) ∧
    Fills R srs (filling [] (srs.map StatusRec.mark)) text out

section

variable {head line : List Byte} {st : State} {srs out : List StatusRec} {sr : StatusRec}
  {ms ms' : List (Mark Component)} {pc : Pathcomp.State}

theorem Fills.append {text text' : List Byte} {srs' out' : List StatusRec}
    (h : Fills R srs ms text out) (h' : Fills R srs' ms' text' out') :
    Fills R (srs ++ srs') (ms ++ ms') (text ++ text') (out ++ out') where
  lines := h.lines.append h'.lines
  marks := by rw [List.map_append, h.marks, h'.marks]
  files := by rw [List.filter_append, List.filter_append, h.files, h'.files]
  names := List.forall_mem_append.mpr ⟨h.names, h'.names⟩

/-- Directories are around no record. -/
theorem DirRecs.fills {text : List Byte} (h : DirRecs ms out) (hlines : LinesOf R text out) :
    Fills R [] ms text out where
  lines := hlines
  marks := h.marks
  files := List.filter_eq_nil_iff.mpr fun r hr => by simpa using h.dirs r hr
  names := h.names

theorem LineOf.fills (h : LineOf R line sr) (hname : IsName sr.file) :
    Fills R [sr] [sr.mark] line [sr] where
  lines := h.lines
  marks := rfl
  files := rfl
  names := by simpa using hname

/-- A record and the directories around it are written behind others. -/
theorem Wrote.add (h : Wrote R head st srs) (hpc : AtRest pc sr.mark.after)
    (hline : Fills R [sr] (walkMarks (openAfter [] (srs.map StatusRec.mark)) sr.mark.before ++
      [sr.mark]) line out) : Wrote R head ({ st with pc }.add line) (srs ++ [sr]) := by
  obtain ⟨text, out', hwr, hfills⟩ := h.text
  constructor
  · rw [List.map_append, List.map_singleton, openAfter_concat]
    exact hpc
  · refine ⟨text ++ line, out' ++ out, ?_, ?_⟩
    · rw [State.add, hwr, Option.map_some, List.append_assoc]
    · rw [List.map_append, List.map_singleton, filling_concat]
      exact hfills.append hline

theorem map_own (sr : StatusRec) :
    sr.mark.own.map Move.mark = if ofDir sr then [sr.mark] else [] := by
  unfold StatusRec.mark ofDir
  split
  · next ht => simp [ht, Mark.own, Move.mark]
  · next ht => simp [ht, Mark.own, Move.mark]
  · next hdown hup => rw [if_neg (fun h => h.elim hdown hup), Mark.own, List.map_nil]

/-- `status_wr` of a record that fits behind the others. -/
theorem Wrote.statusWr (hR : ForDirs env R) (h : Wrote R head st srs) (hsr : Writable env R sr)
    (hname : IsName sr.file) (hfit : sr.mark.Fits (openAfter [] (srs.map StatusRec.mark))) :
    ∃ st', statusWr env st sr = .ok st' ∧ Wrote R head st' (srs ++ [sr]) := by
  obtain ⟨pc, hput, hrest⟩ := putRecord_eq h.pc hname.pathOf.1.symm
  rw [targetDir_mark] at hput hrest
  rw [moves_after (mark_ne hname) hfit] at hput
  generalize hd : openAfter [] (srs.map StatusRec.mark) = d at hput
  have hnode : ∀ m ∈ moves d sr.mark.before ++ sr.mark.own, m.mark.node ≠ [] := by
    intro m hm
    rcases List.mem_append.mp hm with hm | hm
    · exact node_walkMarks (List.mem_map_of_mem hm)
    · have hown := List.mem_map_of_mem (f := Move.mark) hm
      rw [map_own] at hown
      split at hown
      · rw [List.mem_singleton.mp hown]
        exact mark_ne hname
      · cases hown
  have hattr : ∀ a ∈ if sr.type = .dirup then some sr.clientattr else none,
      ∃ fa, a = some fa ∧ Closes env R fa := by
    intro a ha
    split at ha
    · next ht =>
      cases ha
      exact hsr.up ht
    · cases ha
  obtain ⟨text, out, hdirs, hlines, hout⟩ := dirLines_walk hR hnode hattr
  have hfills := hout.fills hlines
  rw [List.map_append, map_own, ← walkMarks] at hfills
  obtain ⟨line, out', hrec, hline⟩ : ∃ line out', recordLine env sr = .ok line ∧
      Fills R [sr] (walkMarks d sr.mark.before ++ [sr.mark]) (text ++ line) out' := by
    by_cases hdir : ofDir sr
    · rw [if_pos hdir] at hfills
      refine ⟨[], out, ?_, ?_⟩
      · rcases hdir with ht | ht <;> rw [recordLine, ht]
      · rw [List.append_nil]
        exact ⟨hfills.lines, hfills.marks, hfills.files.trans (by simp [hdir]), hfills.names⟩
    · rw [if_neg hdir, List.append_nil] at hfills
      obtain ⟨line, hrec, hline⟩ := hsr.line hdir
      exact ⟨line, _, hrec, hfills.append (hline.fills hname)⟩
  refine ⟨_, ?_, h.add hrest (hd ▸ hline)⟩
  simp only [Status.statusWr, hput, hdirs, hrec, bind, Except.bind]
  rfl

/-- The copy of a line whose name is kept. -/
theorem lineOf_rawText {rd : List Byte} {l : Option (List Byte)}
    (hline : lineRec (cline (lineOf nl rd)) = some (sr.type, sr.file, l))
    (hcook : HasFields env sr l) (hR : R sr l) (hk : Kept sr) :
    LineOf R (rawText sr.raw l ++ [nl]) sr := by
  have hl : l = none → sr.raw.type = .dirdown := by
    rintro rfl
    obtain ⟨-, -, ⟨hdown, -⟩ | ⟨-, r, hr⟩⟩ := statusrecCook_some hcook
    · exact hdown
    · cases hr
  have hk : Kept sr.raw := hk
  exact ⟨rawText sr.raw l, l, rfl,
    notMem_rawText hk (zero_notMem_file hline) (notMem_rest hline) hl, lineRec_rawText hk hl, hR⟩

theorem statusWrraw_eq {l : Option (List Byte)} (hput : putRecord st.pc sr = .ok (ownEvents sr, pc))
    (hw : st.wr.isSome) (hl : sr.type = .dirdown ∧ l = none ∨ sr.type ≠ .dirdown ∧ ∃ r, l = some r) :
    statusWrraw st sr l = .ok ({ st with pc }.add (rawText sr l ++ [nl])) := by
  have hsome : ¬st.wr.isNone = true := by simpa [Option.isSome_iff_ne_none] using hw
  simp only [statusWrraw, if_neg hsome, hput, inSync_own, if_true, bind, Except.bind]
  rcases hl with ⟨ht, rfl⟩ | ⟨ht, r, rfl⟩
  · simp only [if_pos ht, printf_dirdown]
    rfl
  · simp only [if_neg ht, Option.map_some, printf_raw]
    rfl

/-- `status_wrraw` of a record that is placed behind the others. -/
theorem Wrote.statusWrraw {rd : List Byte} {l : Option (List Byte)} (h : Wrote R head st srs)
    (hline : lineRec (cline (lineOf nl rd)) = some (sr.type, sr.file, l))
    (hcook : HasFields env sr l) (hR : R sr l) (hk : Kept sr) (hname : IsName sr.file)
    (hplaced : Placed st.pc sr) (hfit : sr.mark.Fits (openAfter [] (srs.map StatusRec.mark))) :
    ∃ st', statusWrraw st sr.raw l = .ok st' ∧ Wrote R head st' (srs ++ [sr]) := by
  obtain ⟨pc, hput⟩ := hplaced
  obtain ⟨pc', hput', hrest⟩ := putRecord_eq h.pc hname.pathOf.1.symm
  obtain ⟨hevents, rfl⟩ := Prod.mk.inj (Except.ok.inj (hput'.symm.trans hput))
  rw [targetDir_mark] at hevents hrest
  -- there is nothing to walk in front of it
  have hwalk : walkMarks (openAfter [] (srs.map StatusRec.mark)) sr.mark.before = [] := by
    rw [moves_after (mark_ne hname) hfit] at hevents
    have hown : (ownEvents sr).length = sr.mark.own.length := by
      unfold ownEvents StatusRec.mark
      cases sr.type <;> rfl
    have hlen := congrArg List.length hevents
    rw [List.length_map, List.length_append, hown] at hlen
    rw [walkMarks, List.map_eq_nil_iff, ← List.length_eq_zero_iff]
    omega
  obtain ⟨text, out, hwr, -⟩ := h.text
  obtain ⟨-, -, hl⟩ := statusrecCook_some hcook
  refine ⟨_, statusWrraw_eq hput (by simp [hwr]) hl, h.add hrest (?_ : Fills R [sr] _ _ [sr])⟩
  rw [hwalk]
  exact (lineOf_rawText hline hcook hR hk).fills hname

end

end Csup.Status
