import Csup.Updater.Attic
import Csup.Updater.Commits

/-!
# RCS files from one session to the next

`updater_rcsedit` of the bytes of a file: they are parsed, edited in memory, printed to the
temporary file and put into place. The commands of a block are those of `CmdStep`.

* `rcsedit_installs`: the file that is put into place shows the archive that the commands make; a file
  with another checksum changes nothing;
* `mirrors_edits`: so it is for all the files of a run, wherever they are moved.
-/

namespace Csup.Updater

open Csup.Diff (Line)
open Csup.Rcs (Fail Ptr RcsDoc Repo Rev revLine Behind Represents Archive Shows)
open Csup.Rcsparse (Admin rcsread rcsfileWrite)

/-! ## Bytes -/

/-- What is parsed of the file at a path. -/
def readFrom (fs : Files) (path : Path) : Option (Admin × List Byte × Rcs.RcsFile) :=
  match fs path with
  | some (.file content) => (rcsread content).toOption
  | _ => none

/-- `rcsfile_frompath` -/
def frompath (fs : Files) (path : Path) : Option Rcsfile :=
  (readFrom fs path).map fun r => ⟨r.1.branch, some r.1.expand, r.1.taglist, r.2.2⟩

/-- `rcsfile_write` of a file that had this admin part and description when it was read. An unknown
mode has no text. -/
def writeRcs (adm : Admin) (desc : List Byte) (rf : Rcsfile) : Except Fail (List Byte) := do
  let expand ← rf.expand.elim (.error .undefined) .ok
  let doc ← rf.deltas.write
  return rcsfileWrite { adm with branch := rf.branch, expand, taglist := rf.taglist } desc doc

/-- The functions of `rcsfile.h`, for the file at a path. -/
def rcsfileAt (fs : Files) (path : Path) : RcsApi Rcsfile Ptr :=
  { rcsfile frompath fun _ _ => [] with
    write := fun rf => (readFrom fs path).elim (.error .undefined) fun r => writeRcs r.1 r.2.1 rf }

variable {a a' : Archive} {fs fs' : Files} {path : Path} {content : List Byte} {rf rf' : Rcsfile}
  {c : BlockCmd} {cmds : List BlockCmd}

theorem readFrom_of_shows (hfile : fs path = some (.file content)) (h : Shows content a) :
    ∃ rf, readFrom fs path = some (a.admin, a.desc, rf) ∧ Represents rf a.repo ∧
      rf.Carries a.details := by
  obtain ⟨rf, hread, hrep, hcarries⟩ := h.read
  refine ⟨rf, ?_, hrep, hcarries⟩
  rw [readFrom, hfile]
  show (rcsread content).toOption = _
  rw [hread]
  rfl

/-- The parameters of `rcsfile` are for reading and writing only. -/
theorem apply_write (parse : Files → Path → Option Rcsfile) (print : Rcsfile → RcsDoc → List Byte)
    (write : Rcsfile → Except Fail (List Byte)) (c : BlockCmd) (rf : Rcsfile) :
    c.apply { rcsfile parse print with write } rf = c.apply (rcsfile parse print) rf := by
  cases c <;> rfl

theorem applyCmds_write (parse : Files → Path → Option Rcsfile)
    (print : Rcsfile → RcsDoc → List Byte) (write : Rcsfile → Except Fail (List Byte))
    (cmds : List BlockCmd) (rf : Rcsfile) :
    applyCmds { rcsfile parse print with write } rf cmds = applyCmds (rcsfile parse print) rf cmds := by
  rw [applyCmds, applyCmds]
  exact congrArg (List.foldlM · rf cmds) (funext fun rf => funext fun c => apply_write _ _ _ c rf)

/-! ## What the commands leave -/

theorem CmdStep.kept (h : CmdStep a c a') : a'.desc = a.desc ∧ a'.admin = { a.admin with
    branch := a'.admin.branch, expand := a'.admin.expand, taglist := a'.admin.taglist } := by
  cases h <;> exact ⟨rfl, rfl⟩

theorem CmdSteps.kept (h : CmdSteps a cmds a') : a'.desc = a.desc ∧ a'.admin = { a.admin with
    branch := a'.admin.branch, expand := a'.admin.expand, taglist := a'.admin.taglist } := by
  induction h with
  | nil => exact ⟨rfl, rfl⟩
  | cons hstep _ ih =>
    obtain ⟨hdesc, hadmin⟩ := ih
    obtain ⟨hdesc1, hadmin1⟩ := hstep.kept
    refine ⟨hdesc.trans hdesc1, ?_⟩
    rw [hadmin1] at hadmin
    exact hadmin

/-- The file is opened, edited and printed. -/
theorem write_cmds (hfile : fs path = some (.file content)) (hshow : Shows content a)
    (hsteps : CmdSteps a cmds a') :
    ∃ rf rf' content' h, (rcsfileAt fs path).frompath fs path = some rf ∧
      applyCmds (rcsfileAt fs path) rf cmds = .ok rf' ∧
      (rcsfileAt fs path).write rf' = .ok content' ∧ a'.repo.IsHead h ∧
      Shows content' (a'.settle h) := by
  obtain ⟨deltas, hread, hrep, hcarries⟩ := readFrom_of_shows hfile hshow
  have hholds : Rcsfile.Holds ⟨a.admin.branch, some a.admin.expand, a.admin.taglist, deltas⟩ a :=
    ⟨hrep, hcarries, rfl, rfl, rfl⟩
  obtain ⟨rf', happly, hholds'⟩ := applyCmds_steps frompath (fun _ _ => []) hholds hsteps
  obtain ⟨doc, hwrite, hshow'⟩ := (hsteps.fit hshow.fit).shows hholds'.deltas hholds'.details
  obtain ⟨hdesc, hadmin⟩ := hsteps.kept
  have hsettle : Shows (rcsfileWrite a'.admin a'.desc doc) (a'.settle doc.head) := hshow'
  refine ⟨_, rf', _, doc.head, ?_, (applyCmds_write _ _ _ _ _).trans happly, ?_,
    hsettle.isHead.of_dom Repo.dom_settled, hsettle⟩
  · show (readFrom fs path).map _ = _
    rw [hread]
    rfl
  · show (readFrom fs path).elim _ _ = _
    rw [hread]
    simp only [Option.elim_some, writeRcs, bind, Except.bind, hholds'.expand, hwrite, hholds'.branch,
      hholds'.taglist, hdesc]
    rw [hadmin]
    rfl

/-! ## One file -/

section

variable {md5 : List Byte → List Byte} {sys : Sys} {coll : Coll} {fup : FileUpdate}
  {rest : List Line} {out : Out}

/-- `updater_rcsedit` changes only the paths of the update. -/
theorem finish_cases (p : Path) : finish sys fup fs p = fs p ∨ p ∈ fup.origpath := by
  cases ho : fup.origpath with
  | none =>
    rw [finish, ho]
    exact .inl rfl
  | some o =>
    by_cases hp : p = o
    · exact .inr (hp ▸ rfl)
    · exact .inl (finish_of_ne ho hp)

/-- `finish` leaves the destination alone. -/
theorem finish_destpath : finish sys fup fs fup.destpath = fs fup.destpath :=
  (finish_cases _).resolve_right fun h => fup.orig_ne _ h rfl

/-- What `updater_updatefile` wants when it returns 0. -/
theorem updatefile_fixup {fa : Fattr} {sum : List Byte} {r : Files × Bool}
    (h : updatefile sys coll fup fa sum fs = .ok r) :
    r.2 = if fup.wantmd5 = sum then false else !fup.isfixup := by
  unfold updatefile at h
  split at h
  · rename_i hne
    obtain rfl := Except.ok.inj h
    rw [if_neg hne]
    rfl
  · rename_i heq
    rw [if_pos (not_not.mp heq)]
    split at h
    · cases h
    · split at h
      · cases h
      · obtain rfl := Except.ok.inj h
        rfl

/-- What is put into place is what was written. -/
theorem install_writes {F D : Type} {api : RcsApi F D} {fa : Fattr} {f : F} {r : Files × Bool}
    (hw : api.write f = .ok content) (h : install api md5 sys coll fup fa f fs = .ok r) :
    (∀ p, p ≠ fup.temppath → p ≠ fup.destpath → p ∉ fup.origpath → r.1 p = fs p) ∧
      r.1 fup.destpath = (if fup.wantmd5 = md5 content then some (.file content)
        else fs fup.destpath) ∧
      r.2 = if fup.wantmd5 = md5 content then false else !fup.isfixup := by
  unfold install at h
  rw [hw] at h
  simp only [orErr, bind, Except.bind] at h
  split at h
  · cases h
  · split at h
    · cases h
    · split at h
      · cases h
      · rename_i r' hr
        obtain ⟨hp, hd⟩ := updatefile_ok hr
        obtain rfl := Except.ok.inj h
        refine ⟨fun p ht hdest ho => ?_, ?_, show r'.2 = _ from updatefile_fixup hr⟩
        · exact ((finish_cases p).resolve_right ho).trans
            ((hp p ht hdest).trans (Function.update_of_ne ht ..))
        · show finish sys fup r'.1 fup.destpath = _
          rw [finish_destpath, hd, Function.update_self, Function.update_of_ne fup.temp_ne.1.symm]

/-- A block for a file that shows an archive. -/
theorem rcsedit_cmds (hfile : fs fup.path = some (.file content)) (hshow : Shows content a)
    (hsteps : CmdSteps a (c :: cmds) a')
    (h : rcsedit (rcsfileAt fs fup.path) md5 sys coll fup fs (block (c :: cmds) ++ rest) = .ok out) :
    ∃ content' head, a'.repo.IsHead head ∧ Shows content' (a'.settle head) ∧ out.rest = rest ∧
      (∀ p, p ≠ fup.temppath → p ≠ fup.destpath → p ∉ fup.origpath → out.files p = fs p) ∧
      out.files fup.destpath = (if fup.wantmd5 = md5 content' then some (.file content')
        else fs fup.destpath) ∧
      out.fixup = if fup.wantmd5 = md5 content' then false else !fup.isfixup := by
  obtain ⟨rf, rf', content', head, hopen, happly, hwrite, hhead, hshow'⟩ :=
    write_cmds hfile hshow hsteps
  obtain ⟨old, e, -, he, hrest, hout⟩ := rcsedit_cases h
  rw [hopen, editLoop_open, happly] at he
  obtain rfl := Except.ok.inj he
  exact ⟨content', head, hhead, hshow', hrest, install_writes hwrite hout⟩

/-- The system calls of an update that edits a file succeed. -/
structure Works (sys : Sys) (fup : FileUpdate) : Prop where
  mkdirhier : sys.mkdirhier = true
  create : sys.create = true
  delete : sys.delete fup.destpath = true
  setattr : sys.setattr fup.temppath = true
  rename : sys.rename = true
  statusPut : sys.statusPut = true

theorem exists_updatefile {fa : Fattr} {sum : List Byte} (hw : Works sys fup)
    (htemp : fs fup.temppath = some (.file content)) :
    ∃ r, updatefile sys coll fup fa sum fs = .ok r := by
  unfold updatefile
  split
  · exact ⟨_, rfl⟩
  · have hinstall : fattrInstall sys fa fup.destpath fup.temppath fs =
        some (Function.update (Function.update fs fup.temppath none) fup.destpath
          (some (.file content))) := by
      simp [fattrInstall, hw.delete, hw.setattr, hw.rename, htemp]
    rw [hinstall]
    simp [fattrFrompath, hw.statusPut]

theorem exists_rcsedit (hfile : fs fup.path = some (.file content)) (hshow : Shows content a)
    (hsteps : CmdSteps a (c :: cmds) a') (hw : Works sys fup) : ∃ out,
      rcsedit (rcsfileAt fs fup.path) md5 sys coll fup fs (block (c :: cmds) ++ rest) = .ok out := by
  obtain ⟨rf, rf', content', -, hopen, happly, hwrite, -, -⟩ := write_cmds hfile hshow hsteps
  have htemp : fup.temppath ≠ fup.path := by
    rw [FileUpdate.path]
    cases ho : fup.origpath with
    | none => exact fup.temp_ne.1
    | some o => exact fup.temp_ne.2 o ho
  have hold : fattrFrompath fs fup.path = some ⟨.file, none⟩ := by rw [fattrFrompath, hfile]
  have hold' : fattrFrompath (Function.update fs fup.temppath (some (.file content'))) fup.path =
      some ⟨.file, none⟩ := by
    rw [fattrFrompath, Function.update_of_ne htemp.symm, hfile]
  obtain ⟨r, hr⟩ : ∃ r, updatefile sys coll fup (fup.serverattr.merge ⟨.file, none⟩) (md5 content')
      (Function.update fs fup.temppath (some (.file content'))) = .ok r :=
    exists_updatefile hw (Function.update_self ..)
  refine ⟨⟨finish sys fup r.1, rest, r.2⟩, ?_⟩
  rw [rcsedit, hw.mkdirhier, hold, hopen, editLoop_open, happly]
  simp only [Bool.not_true, Bool.and_false, Bool.false_eq_true, if_false, Except.map, bind,
    Except.bind, install, hw.create, hwrite, orErr, hold', hr]
  rfl

/-- A block without commands, for a file that stays where it is. -/
theorem rcsedit_touch {F D : Type} {api : RcsApi F D} (horig : fup.origpath = none)
    (htype : fup.serverattr.type ≠ .symlink)
    (h : rcsedit api md5 sys coll fup fs (block [] ++ rest) = .ok out) :
    out.files = fs ∧ out.rest = rest := by
  obtain ⟨old, e, -, he, hrest, hout⟩ := rcsedit_cases h
  obtain rfl : e = .done none rest := by simpa [block, editLoop_dotLine] using he.symm
  refine ⟨?_, hrest⟩
  have hout : touch sys fup (fup.serverattr.merge old) fs = .ok out.files := hout
  unfold touch at hout
  dsimp only at hout
  split at hout
  · cases hout
  · rw [← Except.ok.inj hout, finish, horig]
    rcases fattrInstallInplace_cases sys (fup.serverattr.merge old) fup.destpath fs with
      ⟨heq, -⟩ | ⟨x, -, -, hlink, -⟩
    · exact heq
    · exact absurd hlink htype

end

/-! ## All files -/

/-- The archives that are at some paths. -/
abbrev Store := Path → Option Archive

/-- Each archive of a store is shown by the file at its path. -/
def Mirrors (fs : Files) (store : Store) : Prop :=
  ∀ p a, store p = some a → ∃ content, fs p = some (.file content) ∧ Shows content a

/-- The file of an update is now at its destination, and there only. -/
def Store.put (store : Store) (fup : FileUpdate) (a : Archive) : Store :=
  Function.update (Function.update store fup.path none) fup.destpath (some a)

/-- Updates of RCS files, each with a block that may be sent for the archive that is there. -/
inductive Serves : Store → List (FileUpdate × List BlockCmd) → Store → Prop
  | nil {store : Store} : Serves store [] store
  | edit {store store' : Store} {fup : FileUpdate} {a a' : Archive} {head : Revnum} {c : BlockCmd}
      {cmds : List BlockCmd} {updates : List (FileUpdate × List BlockCmd)} :
    store fup.path = some a → store fup.temppath = none → CmdSteps a (c :: cmds) a' →
      a'.repo.IsHead head → Serves (store.put fup (a'.settle head)) updates store' →
      Serves store ((fup, c :: cmds) :: updates) store'
  | touch {store store' : Store} {fup : FileUpdate} {updates : List (FileUpdate × List BlockCmd)} :
    fup.origpath = none → fup.serverattr.type ≠ .symlink → Serves store updates store' →
      Serves store ((fup, []) :: updates) store'

/-- The blocks of some updates, one behind the other on the stream; the lines that name the files
are not there. -/
def blocks (updates : List (FileUpdate × List BlockCmd)) : List Line :=
  updates.flatMap fun u => block u.2

/-- The updates of RCS files, one after the other; at the end, whether a fixup was queued. -/
def edits (md5 : List Byte → List Byte) (sys : Sys) (coll : Coll) :
    List FileUpdate → Files → List Line → Except Err Out
  | [], fs, lines => .ok ⟨fs, lines, false⟩
  | fup :: fups, fs, lines => do
    let out ← rcsedit (rcsfileAt fs fup.path) md5 sys coll fup fs lines
    let last ← edits md5 sys coll fups out.files out.rest
    return ⟨last.files, last.rest, out.fixup || last.fixup⟩

section

variable {md5 : List Byte → List Byte} {sys : Sys} {coll : Coll} {fup : FileUpdate}
  {fups : List FileUpdate} {rest lines : List Line} {out : Out} {store : Store}

theorem edits_cons (h : edits md5 sys coll (fup :: fups) fs lines = .ok out) :
    ∃ out1 last, rcsedit (rcsfileAt fs fup.path) md5 sys coll fup fs lines = .ok out1 ∧
      edits md5 sys coll fups out1.files out1.rest = .ok last ∧ out.files = last.files ∧
      out.rest = last.rest ∧ out.fixup = (out1.fixup || last.fixup) := by
  rw [edits] at h
  simp only [bind, Except.bind] at h
  split at h
  · cases h
  · rename_i out1 h1
    split at h
    · cases h
    · rename_i last hlast
      obtain rfl := Except.ok.inj h
      exact ⟨out1, last, h1, hlast, rfl, rfl, rfl⟩

/-- One update of a run. -/
theorem Mirrors.put {head : Revnum} (hm : Mirrors fs store) (hstore : store fup.path = some a)
    (htemp : store fup.temppath = none) (hsteps : CmdSteps a (c :: cmds) a')
    (hhead : a'.repo.IsHead head)
    (h : rcsedit (rcsfileAt fs fup.path) md5 sys coll fup fs (block (c :: cmds) ++ rest) = .ok out)
    (hfixup : out.fixup = false) (hno : fup.isfixup = false) :
    Mirrors out.files (store.put fup (a'.settle head)) ∧ out.rest = rest := by
  obtain ⟨content, hfile, hshow⟩ := hm _ _ hstore
  obtain ⟨content', head', hhead', hshow', hrest, hframe, hdest, hfix⟩ :=
    rcsedit_cmds hfile hshow hsteps h
  obtain rfl := hhead.unique hhead'
  -- with another checksum a fixup would have been queued
  have hsum : fup.wantmd5 = md5 content' := by
    by_contra hne
    rw [if_neg hne, hfixup, hno] at hfix
    cases hfix
  rw [if_pos hsum] at hdest
  refine ⟨fun p b hb => ?_, hrest⟩
  by_cases hpd : p = fup.destpath
  · subst hpd
    rw [Store.put, Function.update_self] at hb
    exact Option.some.inj hb ▸ ⟨content', hdest, hshow'⟩
  · rw [Store.put, Function.update_of_ne hpd] at hb
    by_cases hpp : p = fup.path
    · rw [hpp, Function.update_self] at hb
      cases hb
    · rw [Function.update_of_ne hpp] at hb
      have hpt : p ≠ fup.temppath := fun heq => by
        rw [heq, htemp] at hb
        cases hb
      have hpo : p ∉ fup.origpath := fun ho => hpp (by
        rw [FileUpdate.path, Option.mem_def.mp ho]
        rfl)
      rw [hframe p hpt hpd hpo]
      exact hm p b hb

end

/-! ## A commit on the trunk -/

/-- A new revision of the trunk, with a line behind that of the head. -/
def trunkDelta : BlockCmd :=
  .delta ⟨bytes "1.3".toList, by decide, by decide, by decide, by decide⟩
    ⟨bytes "1.2".toList, by decide, by decide, by decide, by decide⟩
    ⟨bytes "8".toList, by decide, by decide, by decide, by decide⟩
    ⟨bytes "m".toList, by decide, by decide, by decide, by decide⟩
    [.lines .log [⟨bytes "@".toList, by decide⟩] false,
      .state ⟨bytes "Exp".toList, by decide, by decide, by decide, by decide⟩,
      .lines .text [⟨bytes "a1 1".toList, by decide⟩, ⟨bytes "d".toList, by decide⟩] false]

/-- A tag for it. -/
def newTag : BlockCmd :=
  .tag ⟨bytes "NEW".toList, by decide, by decide, by decide, by decide⟩
    ⟨bytes "1.3".toList, by decide, by decide, by decide, by decide⟩

/-- What is read of `Csup.Rcs.threeRevs`. -/
noncomputable def threeRevsArchive : Archive :=
  ⟨Rcs.threeRevsAdmin, bytes "no @@".toList, Rcs.threeRevs.repo, Rcs.threeRevs.details⟩

open Rcs in
theorem extends_threeRevs : threeRevs.repo.Extends (bytes "1.2".toList) (bytes "1.3".toList) := by
  have hdom : threeRevs.repo.dom = threeRevs.revs := intact_threeRevs.dom_repo
  refine ⟨by decide, ?_, ?_, .above rfl (by decide) ?_⟩
  · rw [hdom]
    rintro ⟨e, he, hr⟩
    exact absurd hr (forall_threeRevs (P := fun e => e.revnum ≠ bytes "1.3".toList) (by decide)
      (by decide) (by decide) e he)
  · rw [hdom]
    exact layout_threeRevs.head
  · rw [hdom]
    rintro x ⟨e, he, rfl⟩
    revert e
    exact forall_threeRevs (by decide) (by decide) (by decide)

open Rcs in
theorem exists_steps_threeRevs : ∃ a', CmdSteps threeRevsArchive [trunkDelta, newTag] a' := by
  have hs : IsScript (bytes "b\n".toList) (bytes "a1 1\nd\n".toList) (bytes "b\nd\n".toList) :=
    @isScript_hunk [bytes "b\n".toList] ⟨1, 0, [bytes "d\n".toList]⟩ (isText_single (by decide))
      (by decide) (by decide) ⟨⟨bytes "b".toList, by decide, rfl⟩, isText_single (by decide)⟩
      (by decide) (by decide)
  have hparts : WellParted [DeltaPart.lines .log [⟨bytes "@".toList, by decide⟩] false,
      .state ⟨bytes "Exp".toList, by decide, by decide, by decide, by decide⟩,
      .lines .text [⟨bytes "a1 1".toList, by decide⟩, ⟨bytes "d".toList, by decide⟩] false] :=
    ⟨by decide, by simp [DeltaPart.Whole]⟩
  have hrev : threeRevsArchive.repo (bytes "1.2".toList) =
      some ⟨writestring (bytes "b\n".toList), none⟩ := layout_threeRevs.repo_eq_some.mpr gives_head
  refine ⟨_, .cons (.delta extends_threeRevs hparts hrev hs (by decide)
    ⟨by decide, by decide, by decide, by decide⟩) (.cons (.tag (by decide) (by decide) (by decide))
      .nil)⟩

/-- The file is at `p/f`. -/
def threeRevsFiles : Files := fun p =>
  if p = inPlace.path then
    some (.file (rcsfileWrite Rcs.threeRevsAdmin (bytes "no @@".toList) Rcs.threeRevs))
  else none

theorem threeRevsFiles_path : threeRevsFiles inPlace.path =
    some (.file (rcsfileWrite Rcs.threeRevsAdmin (bytes "no @@".toList) Rcs.threeRevs)) := if_pos rfl

theorem works_inPlace : Works Sys.allOk inPlace := ⟨rfl, rfl, rfl, rfl, rfl, rfl⟩

/-- The archive is at `p/f`. -/
noncomputable def threeRevsStore : Store := fun p =>
  if p = inPlace.path then some threeRevsArchive else none

theorem mirrors_threeRevs : Mirrors threeRevsFiles threeRevsStore := fun p a ha => by
  by_cases hp : p = inPlace.path
  · subst hp
    obtain rfl := Option.some.inj ((if_pos rfl).symm.trans ha)
    exact ⟨_, threeRevsFiles_path, Rcs.shows_threeRevs⟩
  · cases (if_neg hp).symm.trans ha

/-! ## Sessions -/

section

variable {md5 : List Byte → List Byte} {sys : Sys} {coll : Coll} {fup : FileUpdate}
  {rest : List Line} {out : Out} {store store' : Store}
  {updates : List (FileUpdate × List BlockCmd)}

/-- When no fixup was queued, each file shows what the server made of it. -/
theorem mirrors_edits (hs : Serves store updates store') (hm : Mirrors fs store)
    (hno : ∀ u ∈ updates, u.1.isfixup = false)
    (h : edits md5 sys coll (updates.map Prod.fst) fs (blocks updates ++ rest) = .ok out)
    (hfixup : out.fixup = false) : Mirrors out.files store' ∧ out.rest = rest := by
  induction hs generalizing fs out with
  | nil =>
    obtain rfl := Except.ok.inj h
    exact ⟨hm, rfl⟩
  | @edit store store' fup a a' head c cmds updates hstore htemp hsteps hhead _ ih =>
    rw [List.map_cons, blocks, List.flatMap_cons, List.append_assoc] at h
    obtain ⟨out1, last, h1, hlast, hfiles, hrest, hfix⟩ := edits_cons h
    rw [hfixup, eq_comm, Bool.or_eq_false_iff] at hfix
    obtain ⟨hm1, hrest1⟩ :=
      hm.put hstore htemp hsteps hhead h1 hfix.1 (hno _ List.mem_cons_self)
    rw [hrest1] at hlast
    rw [hfiles, hrest]
    exact ih hm1 (fun u hu => hno u (.tail _ hu)) hlast hfix.2
  | @touch store store' fup updates horig htype _ ih =>
    rw [List.map_cons, blocks, List.flatMap_cons, List.append_assoc] at h
    obtain ⟨out1, last, h1, hlast, hfiles, hrest, hfix⟩ := edits_cons h
    rw [hfixup, eq_comm, Bool.or_eq_false_iff] at hfix
    obtain ⟨hfs, hrest1⟩ := rcsedit_touch horig htype h1
    rw [hfs, hrest1] at hlast
    rw [hfiles, hrest]
    exact ih hm (fun u hu => hno u (.tail _ hu)) hlast hfix.2

/-- Every file has the checksum that was announced. -/
theorem mirrors_edits_threeRevs : ∃ store' out,
    Serves threeRevsStore [(inPlace, [trunkDelta, newTag])] store' ∧
    edits (fun _ => []) Sys.allOk ⟨true, false⟩ [inPlace] threeRevsFiles
      (blocks [(inPlace, [trunkDelta, newTag])] ++ [dotLine]) = .ok out ∧
    Mirrors out.files store' ∧ out.rest = [dotLine] := by
  obtain ⟨a', hsteps⟩ := exists_steps_threeRevs
  obtain ⟨out, h⟩ : ∃ out, rcsedit (rcsfileAt threeRevsFiles inPlace.path) (fun _ => []) Sys.allOk
      ⟨true, false⟩ inPlace threeRevsFiles (block [trunkDelta, newTag] ++ [dotLine]) = .ok out :=
    exists_rcsedit threeRevsFiles_path Rcs.shows_threeRevs hsteps works_inPlace
  obtain ⟨content', head, hhead, -, -, -, -, hfix⟩ :=
    rcsedit_cmds threeRevsFiles_path Rcs.shows_threeRevs hsteps h
  have hserves : Serves threeRevsStore [(inPlace, [trunkDelta, newTag])] _ :=
    .edit (if_pos rfl) (if_neg (by decide)) hsteps hhead .nil
  have hedits : edits (fun _ => []) Sys.allOk ⟨true, false⟩ [inPlace] threeRevsFiles
      (blocks [(inPlace, [trunkDelta, newTag])] ++ [dotLine]) =
        .ok ⟨out.files, out.rest, out.fixup || false⟩ := by
    rw [edits, blocks, List.flatMap_singleton, h]
    rfl
  exact ⟨_, _, hserves, hedits, mirrors_edits hserves mirrors_threeRevs (by simp [inPlace]) hedits
    (by rw [hfix]; rfl)⟩

end

end Csup.Updater
