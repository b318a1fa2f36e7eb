import Csup.Rcs.Grow
import Csup.Rcs.Settle
import Csup.Updater.Decoders
import Csup.Updater.Sync

/-!
# What a block of edit commands does to the revisions

The server sends a new revision as a script for the revision it is based on; the updater stores the
script with each `@` doubled, as the texts of the file are.

* `IsScript.writestring`: a script with doubled `@` makes the text with doubled `@`;
* `applyParts_fill`: what the parts of a delta put into it;
* `applyCmds_steps`: behind the commands of a block the deltas in memory hold the archive that the
  commands make (`CmdSteps`).
-/

namespace Csup.Updater

open Csup.Framework
open Csup.Diff (Line cmdLines render printCmd)
open Csup.Keyword (Expand keywordDecodeExpand)
open Csup.Rcs (Fail Ptr Delta RcsDoc Repo Rev Represents Fills IsScript writestring Archive Detail
  isRaw_writestring)
open Csup.Rcsparse (IsNum IsWord)

/-! ## Doubled `@` -/

theorem writestring_cons (b : Byte) (s : List Byte) :
    writestring (b :: s) = (if b = 64 then [64, 64] else [b]) ++ writestring s := rfl

theorem writestring_of_notMem {s : List Byte} (h : 64 ∉ s) : writestring s = s := by
  induction s with
  | nil => rfl
  | cons b s ih =>
    have hb : b ≠ 64 := fun hb => h (hb ▸ List.mem_cons_self)
    rw [writestring_cons, if_neg hb, ih fun hs => h (.tail _ hs)]
    rfl

theorem mem_writestring {b : Byte} {s : List Byte} : b ∈ writestring s ↔ b ∈ s := by
  induction s with
  | nil => simp [writestring]
  | cons c s ih =>
    rw [writestring_cons, List.mem_append, ih, List.mem_cons]
    refine or_congr ?_ (.of_eq rfl)
    split <;> simp [*]

theorem writestring_flatten (ls : List Line) : writestring ls.flatten = (ls.map writestring).flatten := by
  induction ls with
  | nil => rfl
  | cons l ls ih => rw [List.flatten_cons, writestring_append, ih, List.map_cons, List.flatten_cons]

theorem fullLine_writestring {l : Line} (h : FullLine nl l) : FullLine nl (writestring l) := by
  obtain ⟨w, hw, rfl⟩ := h
  exact ⟨writestring w, fun hm => hw (mem_writestring.mp hm), by rw [writestring_append]; rfl⟩

theorem lastLine_writestring {l : Line} (h : LastLine nl l) : LastLine nl (writestring l) := by
  obtain ⟨w, c, rfl⟩ := List.eq_nil_or_concat l |>.resolve_left h.1
  have hw : nl ∉ w := by simpa using h.2
  have hw' : nl ∉ writestring w := fun hm => hw (mem_writestring.mp hm)
  rw [List.concat_eq_append, writestring_append, writestring_cons]
  refine ⟨by split <;> simp, ?_⟩
  split
  · have h64 : nl ∉ ([64, 64] : List Byte).dropLast := by decide
    rw [show writestring [] = [] from rfl, List.append_nil, List.dropLast_append_of_ne_nil (by simp),
      List.mem_append, not_or]
    exact ⟨hw', h64⟩
  · simpa [writestring] using hw'

theorem isText_writestring {ls : List Line} (h : IsText nl ls) : IsText nl (ls.map writestring) := by
  induction ls with
  | nil => trivial
  | cons l ls ih =>
    by_cases hls : ls = []
    · subst hls
      exact lastLine_writestring h
    · obtain ⟨hl, hrest⟩ := (isText_cons hls).mp h
      exact (isText_cons (by simpa using hls)).mpr ⟨fullLine_writestring hl, ih hrest⟩

/-- There is no `@` in a command. -/
theorem writestring_printCmd {c : Byte} (hc : c ≠ 64) (w n : Nat) :
    writestring (printCmd c w n) = printCmd c w n := by
  refine writestring_of_notMem ?_
  rw [Csup.Diff.printCmd_eq]
  simp only [List.cons_append, List.mem_cons, List.mem_append, not_or]
  exact ⟨hc.symm, ⟨Csup.Diff.notMem_printNat (by decide) w, by decide,
    Csup.Diff.notMem_printNat (by decide) n⟩, by decide, by simp⟩

theorem cmdLines_writestring (h : Hunk Line) :
    (cmdLines h).map writestring = cmdLines (h.map writestring) := by
  have hdel := writestring_printCmd (c := 100) (by decide) (h.pos + 1) h.del
  have hadd := writestring_printCmd (c := 97) (by decide) h.stop h.add.length
  rw [cmdLines, cmdLines, List.map_append]
  refine congrArg₂ (· ++ ·) ?_ ?_
  · by_cases hd : h.del = 0
    · rw [if_pos hd, if_pos (show (h.map writestring).del = 0 from hd), List.map_nil]
    · rw [if_neg hd, if_neg (show (h.map writestring).del ≠ 0 from hd), List.map_cons, hdel]
      rfl
  · by_cases ha : h.add = []
    · simp only [Hunk.map, ha, if_true, List.map_nil]
    · have ha' : h.add.map writestring ≠ [] := by simpa using ha
      simp only [Hunk.map, if_neg ha, if_neg ha', List.map_cons, hadd, List.length_map]

theorem render_writestring (hs : List (Hunk Line)) :
    writestring (render hs) = render (hs.map (Hunk.map writestring)) := by
  rw [render, render, writestring_flatten, List.map_flatMap, List.flatMap_map]
  exact congrArg List.flatten (List.flatMap_congr fun h _ => cmdLines_writestring h)

/-- A script with doubled `@` makes the text with doubled `@`. -/
theorem IsScript.writestring {orig text res : List Byte} (h : IsScript orig text res) :
    IsScript (writestring orig) (writestring text) (writestring res) := by
  obtain ⟨ls, hs, ho, hcan, hr, hlo, hlr, rfl, rfl, rfl⟩ := h.canonical
  have happly := applyFrom_map Rcs.writestring ls 0 hs
  refine ⟨ls.map Rcs.writestring, hs.map (Hunk.map Rcs.writestring), isText_writestring ho, ?_, ?_,
    ?_, ?_, (writestring_flatten ls).symm, (render_writestring hs).symm, ?_⟩
  · rw [List.length_map]
    exact canonicalFrom_map _ hcan
  · rw [applyScript, happly]
    exact isText_writestring hr
  · rwa [List.length_map]
  · rwa [applyScript, happly, List.length_map]
  · rw [applyScript, happly, ← writestring_flatten]

/-! ## The parts of a delta -/

/-- What a part of a delta adds to its log, or to its text. -/
def DeltaPart.added (part : Part) : DeltaPart → List Byte
  | .lines p ls truncated =>
    if p = part then if truncated then (joined ls).dropLast else joined ls else []
  | .state _ => []

def DeltaPart.state? : DeltaPart → Option (List Byte)
  | .lines .. => none
  | .state s => some s.text

/-- A text has a line, or ends with a `.`. -/
def DeltaPart.Whole : DeltaPart → Prop
  | .lines _ ls truncated => ls ≠ [] ∨ truncated = false
  | .state _ => True

/-- There is a state at most once, and there are only whole texts. -/
structure WellParted (parts : List DeltaPart) : Prop where
  state : parts.countP (fun p => p.state?.isSome) ≤ 1
  whole : ∀ p ∈ parts, p.Whole

/-- A delta with another log, or another text. -/
def Part.put : Part → List Byte → Delta → Delta
  | .log, t, dd => { dd with log := t }
  | .text, t, dd => { dd with text := t }

theorem Part.of_put (part : Part) (t : List Byte) (dd : Delta) : part.of (part.put t dd) = t := by
  cases part <;> rfl

theorem Part.put_put (part : Part) (t t' : List Byte) (dd : Delta) :
    part.put t' (part.put t dd) = part.put t' dd := by
  cases part <;> rfl

theorem Part.put_of (part : Part) (dd : Delta) : part.put (part.of dd) dd = dd := by
  cases part <;> rfl

section

variable (parse : Files → Path → Option Rcsfile) (print : Rcsfile → RcsDoc → List Byte)
  {rf : Rcsfile} {d : Ptr} {dd : Delta}

/-- The file with another delta behind a pointer. -/
def Rcsfile.fill (rf : Rcsfile) (d : Ptr) (f : Delta → Delta) : Rcsfile :=
  { rf with deltas := rf.deltas.modify d f }

theorem Rcsfile.fill_fill (f g : Delta → Delta) : (rf.fill d f).fill d g = rf.fill d (g ∘ f) := by
  rw [Rcsfile.fill, Rcsfile.fill, Rcs.modify_modify]
  rfl

theorem append_eq (part : Part) (rf : Rcsfile) (d : Ptr) (l : Line) :
    (rcsfile parse print).append part rf d l =
      rf.fill d fun dd => part.put (part.of dd ++ writestring l) dd := by
  cases part <;> rfl

theorem foldl_append_eq (part : Part) (rf : Rcsfile) (d : Ptr) (ls : List TextLine) :
    ls.foldl (fun f t => (rcsfile parse print).append part f d t.val) rf =
      rf.fill d fun dd => part.put (part.of dd ++ writestring (joined ls)) dd := by
  induction ls generalizing rf with
  | nil =>
    have hid : (fun dd => part.put (part.of dd ++ writestring (joined [])) dd) = id := by
      funext dd
      rw [show writestring (joined []) = [] from rfl, List.append_nil, Part.put_of]
      rfl
    rw [hid, Rcsfile.fill, Rcs.modify_id]
    rfl
  | cons t ts ih =>
    rw [List.foldl_cons, append_eq, ih, Rcsfile.fill_fill]
    refine congrArg (rf.fill d) (funext fun dd => ?_)
    rw [Function.comp_apply, Part.of_put, Part.put_put, List.append_assoc, ← writestring_append]
    rfl

theorem truncate_eq {part : Part} (hd : rf.deltas.mem d = some dd) (hne : part.of dd ≠ []) :
    (rcsfile parse print).truncate part rf d =
      .ok (rf.fill d fun dd' => part.put (part.of dd).dropLast dd') := by
  have hbuf : Rcsfile.truncateBuf (part.of dd) = .ok (part.of dd).dropLast := if_neg hne
  have hderef : rf.deltas.deref d = .ok dd := Rcs.deref_ok.mpr hd
  cases part with
  | log =>
    simp only [RcsApi.truncate, rcsfile, Rcsfile.truncatelog, bind, Except.bind, hderef]
    rw [show Rcsfile.truncateBuf dd.log = _ from hbuf]
    rfl
  | text =>
    simp only [RcsApi.truncate, rcsfile, Rcsfile.truncatetext, bind, Except.bind, hderef]
    rw [show Rcsfile.truncateBuf dd.text = _ from hbuf]
    rfl

/-- What the parts of a delta do to it. -/
structure FilledBy (dd : Delta) (text log : List Byte) (state : Option (List Byte))
    (f : Delta → Delta) : Prop where
  fills : Fills f
  text : (f dd).text = dd.text ++ text
  log : (f dd).log = dd.log ++ log
  state : (f dd).state = dd.state.or state
  revdate : (f dd).revdate = dd.revdate
  author : (f dd).author = dd.author

theorem FilledBy.comp {text log text' log' : List Byte} {state state' : Option (List Byte)}
    {f g : Delta → Delta} (hf : FilledBy dd text log state f)
    (hg : FilledBy (f dd) text' log' state' g) :
    FilledBy dd (text ++ text') (log ++ log') (state.or state') (g ∘ f) := by
  refine ⟨hf.fills.comp hg.fills, ?_, ?_, ?_, hg.revdate.trans hf.revdate, hg.author.trans hf.author⟩
  · rw [Function.comp_apply, hg.text, hf.text, List.append_assoc]
  · rw [Function.comp_apply, hg.log, hf.log, List.append_assoc]
  · rw [Function.comp_apply, hg.state, hf.state, Option.or_assoc]

theorem filledBy_put (part : Part) (dd : Delta) {g : Delta → List Byte} {t : List Byte}
    (hg : g dd = part.of dd ++ t) :
    FilledBy dd (if part = .text then t else []) (if part = .log then t else []) none
      fun dd => part.put (g dd) dd := by
  cases part with
  | log =>
    exact ⟨⟨fun _ => rfl, fun _ => rfl, fun _ => rfl, fun _ => rfl⟩, (List.append_nil _).symm, hg,
      (Option.or_none).symm, rfl, rfl⟩
  | text =>
    exact ⟨⟨fun _ => rfl, fun _ => rfl, fun _ => rfl, fun _ => rfl⟩, hg, (List.append_nil _).symm,
      (Option.or_none).symm, rfl, rfl⟩

theorem filledBy_state (dd : Delta) (s : List Byte) (hs : dd.state = none) :
    FilledBy dd [] [] (some s) fun dd => { dd with state := some s } :=
  ⟨⟨fun _ => rfl, fun _ => rfl, fun _ => rfl, fun _ => rfl⟩, (List.append_nil _).symm,
    (List.append_nil _).symm, by rw [hs]; rfl, rfl, rfl⟩

theorem apply_part (hd : rf.deltas.mem d = some dd) {p : DeltaPart} (hp : p.Whole)
    (hs : p.state?.isSome → dd.state = none) :
    ∃ f, p.apply (rcsfile parse print) d rf = .ok (rf.fill d f) ∧
      FilledBy dd (writestring (p.added .text)) (writestring (p.added .log)) p.state? f := by
  cases p with
  | state s =>
    have hnone := hs rfl
    refine ⟨fun dd => { dd with state := some s.text }, ?_, filledBy_state dd s.text hnone⟩
    simp only [DeltaPart.apply, rcsfile, Rcsfile.setstate, bind, Except.bind, Rcs.deref_ok.mpr hd,
      hnone]
    rfl
  | lines part ls truncated =>
    have hfold := foldl_append_eq parse print part rf d ls
    have hmem : (rf.fill d fun dd => part.put (part.of dd ++ writestring (joined ls)) dd).deltas.mem d =
        some (part.put (part.of dd ++ writestring (joined ls)) dd) := by
      rw [Rcsfile.fill, Rcs.modify_mem_self, hd]
      rfl
    have hpart (q : Part) (t : List Byte) : writestring (if part = q then t else []) =
        if part = q then writestring t else [] := by
      split <;> rfl
    cases truncated with
    | false =>
      refine ⟨_, congrArg Except.ok hfold, ?_⟩
      rw [DeltaPart.added, DeltaPart.added, hpart, hpart]
      exact filledBy_put part dd rfl
    | true =>
      obtain ⟨t, ts, rfl⟩ := List.exists_cons_of_ne_nil (hp.resolve_right (by decide))
      -- the last byte that was added is a newline
      have hend := joined_cons t ts
      generalize t.body ++ (ts.flatMap fun t => nl :: t.body) = text at hend
      have hadded : writestring (joined (t :: ts)) = writestring text ++ [nl] := by
        rw [hend, writestring_append]
        rfl
      have hdrop : (joined (t :: ts)).dropLast = text := by rw [hend, List.dropLast_concat]
      rw [DeltaPart.apply, hfold, if_pos rfl, truncate_eq parse print hmem (by simp [Part.of_put, hadded]),
        Rcsfile.fill_fill]
      refine ⟨_, rfl, ?_⟩
      rw [DeltaPart.added, DeltaPart.added, hpart, hpart, if_pos rfl, hdrop]
      have hput : (fun dd' => part.put (part.of (part.put (part.of dd ++ writestring (joined (t :: ts)))
          dd)).dropLast dd') ∘ (fun dd => part.put (part.of dd ++ writestring (joined (t :: ts))) dd) =
            fun dd' => part.put (part.of dd ++ writestring text) dd' := by
        funext dd'
        rw [Function.comp_apply, Part.of_put, Part.put_put, hadded, ← List.append_assoc,
          List.dropLast_concat]
      rw [hput]
      exact filledBy_put part dd rfl

/-- What the parts of a delta put into it. -/
theorem applyParts_fill (hd : rf.deltas.mem d = some dd) {parts : List DeltaPart}
    (hwhole : ∀ p ∈ parts, p.Whole)
    (hstate : parts.countP (fun p => p.state?.isSome) + (if dd.state.isSome then 1 else 0) ≤ 1) :
    ∃ f, parts.foldlM (DeltaPart.apply (rcsfile parse print) d) rf = .ok (rf.fill d f) ∧
      FilledBy dd (writestring (parts.flatMap (DeltaPart.added .text)))
        (writestring (parts.flatMap (DeltaPart.added .log))) (parts.findSome? DeltaPart.state?) f := by
  induction parts generalizing rf dd with
  | nil =>
    refine ⟨id, ?_, ⟨fun _ => rfl, fun _ => rfl, fun _ => rfl, fun _ => rfl⟩,
      (List.append_nil _).symm, (List.append_nil _).symm, Option.or_none.symm, rfl, rfl⟩
    rw [Rcsfile.fill, Rcs.modify_id]
    rfl
  | cons p ps ih =>
    rw [List.countP_cons] at hstate
    obtain ⟨f, hf, hfill⟩ := apply_part parse print hd (hwhole p List.mem_cons_self) fun hp => by
      rw [hp] at hstate
      by_contra hne
      rw [if_pos rfl, if_pos (Option.isSome_iff_ne_none.mpr hne)] at hstate
      omega
    have hmem : (rf.fill d f).deltas.mem d = some (f dd) := by
      rw [Rcsfile.fill, Rcs.modify_mem_self, hd]
      rfl
    obtain ⟨g, hg, hgfill⟩ := ih hmem (fun q hq => hwhole q (.tail _ hq)) (by
      rw [hfill.state]
      cases hsome : dd.state <;> cases hps : p.state? <;> simp [hsome, hps] at hstate ⊢ <;> omega)
    refine ⟨g ∘ f, ?_, ?_⟩
    · rw [List.foldlM_cons, hf, ← Rcsfile.fill_fill]
      exact hg
    · have hcomp := hfill.comp hgfill
      rw [List.flatMap_cons, List.flatMap_cons, writestring_append, writestring_append]
      have hfind : (p :: ps).findSome? DeltaPart.state? =
          p.state?.or (ps.findSome? DeltaPart.state?) := by
        rw [List.findSome?_cons]
        cases p.state? <;> rfl
      rw [hfind]
      exact hcomp

/-! ## The commands of a block -/

/-- What the parts say of a revision that is added. -/
def detailOf (revdate author : Csup.Proto.Field) (parts : List DeltaPart) : Detail :=
  ⟨revdate.text, author.text, parts.findSome? DeltaPart.state?,
    writestring (parts.flatMap (DeltaPart.added .log))⟩

/-- What a command does to the archive, where it may be sent. -/
inductive CmdStep (a : Archive) : BlockCmd → Archive → Prop
  | delta {revnum diffbase revdate author : Csup.Proto.Field} {parts : List DeltaPart}
      {orig text : List Byte} {base : Option Revnum} :
    a.repo.Extends diffbase.text revnum.text → WellParted parts →
      a.repo diffbase.text = some ⟨writestring orig, base⟩ →
      IsScript orig (parts.flatMap (DeltaPart.added .text)) text → IsNum revnum.text →
      (detailOf revdate author parts).Fit →
      CmdStep a (.delta revnum diffbase revdate author parts)
        (a.commit revnum.text diffbase.text (writestring text) (detailOf revdate author parts))
  | delete {revnum : Csup.Proto.Field} : a.repo.Spares revnum.text →
      CmdStep a (.delete revnum) (a.remove revnum.text)
  | branch {b : Csup.Proto.Field} : IsNum b.text →
      CmdStep a (.branch b) { a with admin := { a.admin with branch := some b.text } }
  | clearbranch : CmdStep a .clearbranch { a with admin := { a.admin with branch := none } }
  | expand {expandtxt : Csup.Proto.Field} {expand : Expand} :
    keywordDecodeExpand expandtxt.text = some expand →
      CmdStep a (.expand expandtxt) { a with admin := { a.admin with expand } }
  | tag {t revnum : Csup.Proto.Field} : IsWord t.text → 0 ∉ t.text → IsNum revnum.text →
      CmdStep a (.tag t revnum)
        { a with admin := { a.admin with taglist := (t.text, revnum.text) :: a.admin.taglist } }
  | untag {t revnum : Csup.Proto.Field} : CmdStep a (.untag t revnum)
      { a with admin := { a.admin with taglist := a.admin.taglist.erase (t.text, revnum.text) } }

/-- The commands of a block, one after the other. -/
inductive CmdSteps : Archive → List BlockCmd → Archive → Prop
  | nil {a : Archive} : CmdSteps a [] a
  | cons {a a' a'' : Archive} {c : BlockCmd} {cmds : List BlockCmd} :
    CmdStep a c a' → CmdSteps a' cmds a'' → CmdSteps a (c :: cmds) a''

/-- The file in memory holds an archive. -/
structure Rcsfile.Holds (rf : Rcsfile) (a : Archive) : Prop where
  deltas : Represents rf.deltas a.repo
  details : rf.deltas.Carries a.details
  branch : rf.branch = a.admin.branch
  expand : rf.expand = some a.admin.expand
  taglist : rf.taglist = a.admin.taglist

variable {a a' : Archive} {c : BlockCmd} {cmds : List BlockCmd}

theorem CmdStep.fit (hf : a.Fit) (h : CmdStep a c a') : a'.Fit := by
  cases h with
  | delta _ _ _ _ hnum hdetail => exact hf.commit _ hnum (isRaw_writestring _) hdetail
  | delete _ => exact hf.remove _
  | branch hb => exact hf.setAdmin fun ha =>
      ⟨ha.head, fun _ h => Option.some.inj h ▸ hb, ha.accesslist, ha.taglist, ha.comment⟩
  | clearbranch => exact hf.setAdmin fun ha =>
      ⟨ha.head, (fun _ h => by cases h), ha.accesslist, ha.taglist, ha.comment⟩
  | expand _ => exact hf.setAdmin fun ha =>
      ⟨ha.head, ha.branch, ha.accesslist, ha.taglist, ha.comment⟩
  | tag ht h0 hr => exact hf.setAdmin fun ha =>
      ⟨ha.head, ha.branch, ha.accesslist, fun t h =>
        (List.mem_cons.mp h).elim (fun heq => heq ▸ ⟨ht, h0, hr⟩) (ha.taglist t), ha.comment⟩
  | untag => exact hf.setAdmin fun ha =>
      ⟨ha.head, ha.branch, ha.accesslist, fun t h => ha.taglist t (List.mem_of_mem_erase h),
        ha.comment⟩

theorem CmdSteps.fit (hf : a.Fit) (h : CmdSteps a cmds a') : a'.Fit := by
  induction h with
  | nil => exact hf
  | cons hstep _ ih => exact ih (hstep.fit hf)

/-! ## The file in memory -/

theorem apply_step (h : rf.Holds a) (hstep : CmdStep a c a') :
    ∃ rf', c.apply (rcsfile parse print) rf = .ok rf' ∧ rf'.Holds a' := by
  cases hstep with
  | @delta revnum diffbase revdate author parts orig text base hx hparts horig hs hnum hdetail =>
    obtain ⟨deltas, hok, hdata, hframe, hrep⟩ := h.deltas.addelta revdate.text author.text hx horig
    obtain ⟨dd, hdd, hddata⟩ := Option.map_eq_some_iff.mp hdata
    have htext : dd.text = [] := congrArg Delta.text hddata
    have hlog : dd.log = [] := congrArg Delta.log hddata
    have hstate : dd.state = none := congrArg Delta.state hddata
    have hmem : ({ rf with deltas } : Rcsfile).deltas.mem rf.deltas.brk = some dd := hdd
    obtain ⟨f, hfold, hf⟩ := applyParts_fill parse print hmem hparts.whole (by
      rw [hstate]
      exact hparts.state)
    have hrevnum : (f dd).revnum = revnum.text :=
      (hf.fills.revnum dd).trans (congrArg Delta.revnum hddata)
    have hfdetail : (f dd).detail = detailOf revdate author parts := by
      have hrevdate : (f dd).revdate = revdate.text := hf.revdate.trans (congrArg Delta.revdate hddata)
      have hauthor : (f dd).author = author.text := hf.author.trans (congrArg Delta.author hddata)
      rw [Delta.detail, hrevdate, hauthor, hf.state, hf.log, hstate, hlog, Option.none_or,
        List.nil_append, detailOf]
    have hft : ((deltas.modify rf.deltas.brk f).text rf.deltas.brk) =
        writestring (parts.flatMap (DeltaPart.added .text)) := by
      rw [Rcs.RcsFile.text, Rcs.modify_mem_self, hdd, Option.map_some, Option.map_some,
        Option.getD_some, hf.text, htext, List.nil_append]
    have hrep' := hrep f _ hf.fills (hft ▸ IsScript.writestring hs)
    refine ⟨({ rf with deltas } : Rcsfile).fill rf.deltas.brk f, ?_, hrep',
      h.details.update fun p hp d hd => ?_, h.branch, h.expand, h.taglist⟩
    · have hadd : (rcsfile parse print).addelta rf revnum.text revdate.text author.text diffbase.text =
          .ok ({ rf with deltas }, some rf.deltas.brk) := by
        simp only [rcsfile, bind, Except.bind, hok]
        rfl
      rw [BlockCmd.apply, hadd]
      exact hfold
    · by_cases hbrk : p = rf.deltas.brk
      · have hd : (deltas.modify rf.deltas.brk f).data p = some d := hd
        rw [hbrk, Rcs.RcsFile.data, Rcs.modify_mem_self, hdd] at hd
        obtain rfl := Option.some.inj hd
        exact .inl ⟨hrevnum, congrArg some hfdetail.symm⟩
      · obtain ⟨hpt, hpdata⟩ := hframe p hp hbrk
        have hpf : (deltas.modify rf.deltas.brk f).data p = rf.deltas.data p :=
          (Rcs.data_modify_ne hbrk).trans hpdata
        have hmem := h.deltas.revnum_mem hpt (hpf.symm.trans hd)
        exact .inr ⟨fun heq => hx.new (heq ▸ hmem), hpt, hpf⟩
  | @delete revnum hx =>
    obtain ⟨deltas, hok, hrep, hframe⟩ := h.deltas.deleterev hx
    refine ⟨{ rf with deltas }, ?_, hrep, h.details.update fun p hp d hd => .inr ⟨fun heq => ?_,
      hframe p hp⟩, h.branch, h.expand, h.taglist⟩
    · simp only [BlockCmd.apply, rcsfile, bind, Except.bind, hok]
      rfl
    · have hmem := hrep.revnum_mem hp hd
      rw [Repo.dom_remove] at hmem
      exact hmem.2 heq
  | branch _ => exact ⟨_, rfl, h.deltas, h.details, rfl, h.expand, h.taglist⟩
  | clearbranch => exact ⟨_, rfl, h.deltas, h.details, rfl, h.expand, h.taglist⟩
  | expand he => exact ⟨_, rfl, h.deltas, h.details, h.branch, he, h.taglist⟩
  | tag => exact ⟨_, rfl, h.deltas, h.details, h.branch, h.expand, congrArg (_ :: ·) h.taglist⟩
  | untag => exact ⟨_, rfl, h.deltas, h.details, h.branch, h.expand,
    congrArg (List.erase · _) h.taglist⟩

theorem applyCmds_steps (h : rf.Holds a) (hsteps : CmdSteps a cmds a') :
    ∃ rf', applyCmds (rcsfile parse print) rf cmds = .ok rf' ∧ rf'.Holds a' := by
  induction hsteps generalizing rf with
  | nil => exact ⟨rf, rfl, h⟩
  | cons hstep _ ih =>
    obtain ⟨rf1, hok, h1⟩ := apply_step parse print h hstep
    obtain ⟨rf', hok', h'⟩ := ih h1
    refine ⟨rf', ?_, h'⟩
    rw [applyCmds, List.foldlM_cons, hok]
    exact hok'

end

end Csup.Updater
