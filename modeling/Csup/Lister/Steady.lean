import Csup.Lister.Defs
import Csup.Status.Cooked
import Csup.Updater.Recorded
import Csup.Updater.Truncated

/-!
# The next run over a file that is checked out

A file whose record a command has put, and whose attributes have not changed on disk, is listed
by `lister_dofile` with the attributes that the server sent just when it has one link and no
set-id bits, and these attributes can be read back (`steady_iff`). Otherwise it is listed with
bogus ones in every run.
-/

namespace Csup.Lister

open Csup.Attrs
open Csup.Docoll (Action Live Noted OnSys Recorded checkoutpath docommand)
open Csup.Framework
open Csup.Proto
open Csup.Updater (Command Path)
open Csup.Status (Decodes StatusRec attrText cmdOf decoded fattrBogus lineRec lineRec_cmdOf
  printf_fields rawRec recordLine statusRd statusRdraw statusRdraw_some statusrecCook textLine)

/-! ## The record read back -/

/-- The line of a record is read, somewhere in a status file, as `sr'`. -/
def ReadAs (senv : Status.Env) (sr sr' : StatusRec) : Prop :=
  ∃ (line q : List Byte) (st st' : Status.State), recordLine senv sr = .ok line ∧
    statusRd senv { st with rd := some (line ++ q) } = (st', some sr')

/-- The strings of a record end at a NUL. -/
def Strings (sr : StatusRec) : Prop :=
  0 ∉ sr.file ∧ ∀ s, some s = sr.tag ∨ some s = sr.date ∨ some s = sr.revnum ∨ some s = sr.revdate →
    0 ∉ s

theorem protoGetAscii_escape {s : List Byte} (h : s ≠ []) (l : List Byte) :
    protoGetAscii (some (protoEscape s ++ 32 :: l)) = (some s, some l) := by
  rw [protoGetAscii_field (protoEscape_ne_nil h) (notMem_protoEscape s (.inl rfl)),
    protoUnescape_protoEscape]

/-- The fields of the record of a live file, as they are read. -/
theorem statusrecCook_live (senv : Status.Env)
    {file tag date satext revnum revdate catext : List Byte} {sr' : StatusRec}
    (h : statusrecCook senv (rawRec .checkoutlive file) (some (protoEscape tag ++ 32 ::
      (protoEscape date ++ 32 :: (protoEscape satext ++ 32 :: (protoEscape revnum ++ 32 ::
        (protoEscape revdate ++ 32 :: protoEscape catext)))))) = some sr') :
    ∃ sa ca, decoded senv satext = some sa ∧ decoded senv catext = some ca ∧
      sr' = ⟨.checkoutlive, file, some tag, some date, some revnum, some revdate, some sa,
        some ca⟩ := by
  have hnone : protoGetAscii none = (none, none) := rfl
  have hempty (l : List Byte) : protoGetAscii (some (protoEscape [] ++ 32 :: l)) = (none, none) :=
    protoGetAscii_empty (.inr ⟨l, rfl⟩)
  -- behind an empty field there is nothing to read
  by_cases h1 : tag = []
  · simp only [statusrecCook, rawRec, h1, hempty, hnone] at h
    cases h
  by_cases h2 : date = []
  · simp only [statusrecCook, rawRec, protoGetAscii_escape h1, h2, hempty, hnone] at h
    cases h
  by_cases h3 : satext = []
  · simp only [statusrecCook, rawRec, protoGetAscii_escape h1, protoGetAscii_escape h2, h3, hempty,
      hnone] at h
    cases h
  by_cases h4 : revnum = []
  · simp only [statusrecCook, rawRec, protoGetAscii_escape h1, protoGetAscii_escape h2,
      protoGetAscii_escape h3, h4, hempty, hnone] at h
    cases h
  by_cases h5 : revdate = []
  · simp only [statusrecCook, rawRec, protoGetAscii_escape h1, protoGetAscii_escape h2,
      protoGetAscii_escape h3, protoGetAscii_escape h4, h5, hempty, hnone] at h
    cases h
  have hlast : protoGetAscii (some (protoEscape catext)) =
      if catext = [] then (none, none) else (some catext, none) := by
    split
    · rename_i h6
      subst h6
      exact protoGetAscii_empty (.inl rfl)
    · rename_i h6
      rw [protoGetAscii_last (protoEscape_ne_nil h6) (notMem_protoEscape catext (.inl rfl)),
        protoUnescape_protoEscape]
  simp only [statusrecCook, rawRec, protoGetAscii_escape h1, protoGetAscii_escape h2,
    protoGetAscii_escape h3, protoGetAscii_escape h4, protoGetAscii_escape h5, hlast] at h
  by_cases h6 : catext = []
  · rw [h6] at h
    cases h
  simp only [h6, if_false] at h
  cases hsa : decoded senv satext with
  | none => simp [hsa] at h
  | some sa =>
    cases hca : decoded senv catext with
    | none => simp [hsa, hca] at h
    | some ca =>
      simp only [hsa, hca, Option.some.injEq] at h
      exact ⟨sa, ca, rfl, rfl, h.symm⟩

theorem zero_notMem_attrText (senv : Status.Env) (fa : Fattr) : 0 ∉ attrText senv fa :=
  zero_notMem_cstr _

theorem notMem_textLine {cmd b : Byte} (hcmd : b ≠ cmd) (hblank : b ≠ 32)
    {texts : List (List Byte)} (h : ∀ s ∈ texts, b ∉ protoEscape s) :
    b ∉ cmd :: texts.flatMap fun s => 32 :: protoEscape s := by
  intro hmem
  rcases List.mem_cons.mp hmem with h0 | h0
  · exact hcmd h0
  · obtain ⟨s, hs, hb⟩ := List.mem_flatMap.mp h0
    rcases List.mem_cons.mp hb with h0 | h0
    · exact hblank h0
    · exact h s hs h0

/-- A line of strings that is read: the first is the name. -/
theorem cook_of_statusRd {senv : Status.Env} {type : Status.SrType} {file : List Byte}
    {texts : List (List Byte)} {q : List Byte} {st st' : Status.State} {sr' : StatusRec}
    (hne : texts ≠ []) (hstr : ∀ s ∈ file :: texts, 0 ∉ s)
    (h : statusRd senv { st with rd := some (textLine (cmdOf type) (file :: texts) ++ q) } =
      (st', some sr')) :
    statusrecCook senv (rawRec type file)
      (some ((texts.flatMap fun s => 32 :: protoEscape s).tail)) = some sr' := by
  have hcmd : nl ≠ cmdOf type ∧ 0 ≠ cmdOf type := by
    cases type <;> exact ⟨by decide, by decide⟩
  have hnl := @notMem_textLine (cmdOf type) nl hcmd.1 (by decide) (file :: texts)
    fun s _ => notMem_protoEscape s (by simp)
  have h0 := @notMem_textLine (cmdOf type) 0 hcmd.2 (by decide) (file :: texts)
    fun s hs => zero_notMem_protoEscape (hstr s hs)
  have hline : cline (lineOf nl (textLine (cmdOf type) (file :: texts) ++ q)) =
      cmdOf type :: (file :: texts).flatMap fun s => 32 :: protoEscape s := by
    rw [textLine, List.append_assoc, List.singleton_append, Status.lineOf_append hnl,
      cline_append_nl h0]
  obtain ⟨r, rs, hrest⟩ : ∃ r rs, texts = r :: rs := List.exists_cons_of_ne_nil hne
  have hbody : ((file :: texts).flatMap fun s => 32 :: protoEscape s) =
      32 :: (protoEscape file ++ 32 :: (texts.flatMap fun s => 32 :: protoEscape s).tail) := by
    simp [hrest]
  rw [statusRd] at h
  rcases hraw : statusRdraw { st with rd := some (textLine (cmdOf type) (file :: texts) ++ q) }
    with ⟨st₁, - | ⟨sr, l⟩⟩
  · rw [hraw] at h
    cases h
  · obtain ⟨rd, hrd, hrec, hsr, -⟩ := statusRdraw_some hraw
    obtain rfl := Option.some.inj hrd
    rw [hline, hbody, lineRec_cmdOf] at hrec
    by_cases hfile : file = []
    · rw [hfile, show protoEscape [] = [] from rfl, List.nil_append,
        protoGetAscii_empty (.inr ⟨_, rfl⟩)] at hrec
      cases hrec
    · rw [protoGetAscii_escape hfile] at hrec
      obtain ⟨htype, hname, hl⟩ : type = sr.type ∧ file = sr.file ∧ _ = l := by
        simpa using hrec
      rw [hraw] at h
      simp only at h
      rw [hsr, ← htype, ← hname, ← hl] at h
      split at h
      · cases h
      · rename_i sr'' hcook
        rw [hcook]
        exact congrArg Prod.snd h

theorem readAs_live {senv : Status.Env} {file tag date revnum revdate : List Byte} {sa ca : Fattr}
    {sr' : StatusRec}
    (hstr : Strings ⟨.checkoutlive, file, some tag, some date, some revnum, some revdate, some sa,
      some ca⟩)
    (h : ReadAs senv ⟨.checkoutlive, file, some tag, some date, some revnum, some revdate, some sa,
      some ca⟩ sr') :
    ∃ sa' ca', decoded senv (attrText senv sa) = some sa' ∧
      decoded senv (attrText senv ca) = some ca' ∧
      sr' = ⟨.checkoutlive, file, some tag, some date, some revnum, some revdate, some sa',
        some ca'⟩ := by
  obtain ⟨line, q, st, st', hline, hrd⟩ := h
  have htext : recordLine senv ⟨.checkoutlive, file, some tag, some date, some revnum, some revdate,
      some sa, some ca⟩ = .ok (textLine 67 [file, tag, date, attrText senv sa, revnum, revdate,
        attrText senv ca]) :=
    @printf_fields 67 "C %s %s %s %a %s %s %a\n".toList
      [.str file, .str tag, .str date, .attr (attrText senv sa), .str revnum, .str revdate,
        .attr (attrText senv ca)]
      [file, tag, date, attrText senv sa, revnum, revdate, attrText senv ca] (by decide) rfl rfl
  obtain rfl := Except.ok.inj (htext.symm.trans hline)
  have hall : ∀ s ∈ [file, tag, date, attrText senv sa, revnum, revdate, attrText senv ca],
      0 ∉ s := by
    obtain ⟨hf, hs⟩ := hstr
    have hsa := zero_notMem_attrText senv sa
    have hca := zero_notMem_attrText senv ca
    simp only [List.forall_mem_cons, List.not_mem_nil, false_imp_iff, implies_true, and_true]
    exact ⟨hf, hs _ (.inl rfl), hs _ (.inr (.inl rfl)), hsa, hs _ (.inr (.inr (.inl rfl))),
      hs _ (.inr (.inr (.inr rfl))), hca⟩
  have hcook := @cook_of_statusRd senv .checkoutlive file _ q st st' sr' (by simp) hall hrd
  apply statusrecCook_live
  simpa using hcook

/-! ## The next run -/

variable {W F D : Type}

/-- The file does not change behind the command that puts its record: not when the record is put,
and not up to the world `w₂`. -/
structure Unchanged (env : Docoll.Env W F D) (sys : Sys W) (path : Path) (sr : StatusRec)
    (w w₂ : W) : Prop where
  put : ∀ w, sys.lstat path (env.host.statusPut sr w).2 = sys.lstat path w
  later : sys.lstat path w₂ = sys.lstat path w

/-- A run of the lister in the world `w`, with the tag, the date and the umask of the record, over
the record as it is read. -/
structure Rerun (env : Docoll.Env W F D) (sys : Sys W) (lenv : Env) (senv : Status.Env)
    (sr : StatusRec) (it : Item) (w : W) : Prop where
  pre : lenv.coll.pre = env.coll.pre
  umask : lenv.coll.umask = env.coll.umask
  fflags : lenv.fflags = env.fflags
  notrust : lenv.coll.truststatusfile = false
  tag : sr.tag = some lenv.coll.tag
  date : sr.date = some lenv.coll.date
  readAs : ReadAs senv sr it.sr
  disk : ∀ path, it.nofollow path = sys.frompath env.fflags path w

/-- The attributes of the server are sent, and they are not the bogus ones. -/
def Steady (lenv : Env) (it : Item) (sr : StatusRec) : Prop :=
  ∃ sa, sr.serverattr = some sa ∧ dofileAttr lenv it = .ok sa ∧ sa ≠ fattrBogus

/-- Attributes without a type lose all others when they are read. -/
theorem fattrDecode_untyped {fflags : Bool} {ids : Ids} {fa fa' : Fattr} {rest : List Byte}
    (htype : has (wireMask fa) .filetype = false)
    (hdec : fattrDecode fflags ids (piece (printRadix 16 (wireMask fa).toNat) ++ rest) = .ok fa') :
    fa'.mask = 0 := by
  obtain ⟨hpiece, hval, hback⟩ := scan_mask fa rest
  have hbind {α β : Type} (a : α) (f : α → Except Stop β) : (Except.ok a >>= f) = f a := rfl
  have hpure {α : Type} (a : α) : (pure a : Except Stop α) = .ok a := rfl
  have hunknown : fattrSupported fflags .unknown = 0 := rfl
  have h0 (m : Mask) : m &&& 0 = 0 := BitVec.and_zero
  have hno (a : Attr) : has 0 a = false := by
    cases a <;> rfl
  simp only [fattrDecode, hpiece, hbind, hval, hback, htype, Bool.false_eq_true, if_false] at hdec
  split at hdec
  · cases hdec
  · simp only [hpure, hbind, fattrNew, hunknown, h0, scanIf, scanLinkcount, hno, Bool.false_eq_true,
      if_false] at hdec
    exact (congrArg Fattr.mask (Except.ok.inj hdec)).symm

/-- So the bogus ones are not read as they were written. -/
theorem not_decodes_bogus (senv : Status.Env) : ¬Decodes senv fattrBogus := by
  intro h
  obtain ⟨rest, htext⟩ : ∃ rest, fattrEncode senv.ids fattrBogus none 0 =
      piece (printRadix 16 (wireMask fattrBogus).toNat) ++ rest := by
    have hsent : sentMask senv.ids fattrBogus none 0 = wireMask fattrBogus := rfl
    rw [fattrEncode, hsent]
    simp only [List.append_assoc]
    exact ⟨_, rfl⟩
  have hpiece : 0 ∉ piece (printRadix 16 (wireMask fattrBogus).toNat) :=
    zero_notMem_pieceIf true fun _ => zero_notMem_printRadix (by decide) (by decide) _
  have hattr : attrText senv fattrBogus =
      piece (printRadix 16 (wireMask fattrBogus).toNat) ++ cstr rest := by
    rw [attrText, htext, cstr, List.takeWhile_append_of_pos, ← cstr]
    intro b hb
    exact decide_eq_true fun hb0 => hpiece (hb0 ▸ hb)
  rw [Decodes, hattr, decoded] at h
  split at h
  · rename_i fa hdec
    obtain rfl := Option.some.inj h
    exact absurd (fattrDecode_untyped (by decide) hdec) (by decide)
  · cases h

section Next

variable {env : Docoll.Env W F D} {sys : Sys W} {lenv : Env} {senv : Status.Env} {it : Item}
  {w w₂ : W} {path : Path} {sb : Stat}

/-- What is sent of a file whose record is read as one with the attributes `sa` and `ca`. -/
theorem dofileAttr_live {file revnum revdate : List Byte} {sa ca : Fattr} {sr : StatusRec}
    (hsr : it.sr = ⟨.checkoutlive, file, some lenv.coll.tag, some lenv.coll.date, some revnum,
      some revdate, some sa, some ca⟩)
    (hre : Rerun env sys lenv senv sr it w₂) (hpath : checkoutpath env.coll.pre file = some path)
    (hsb : sys.lstat path w₂ = some sb) (hfile : sb.type = .file) :
    dofileAttr lenv it =
      .ok (if fattrEqual (fattrFromstat env.fflags sb) ca &&
        fattrEqual (fattrFromstat env.fflags sb) (fattrForcheckout env.fflags sa env.coll.umask)
        then sa else fattrBogus) := by
  have hdisk : it.nofollow path = some (fattrFromstat env.fflags sb) := by
    have hlink : has (fattrFromstat env.fflags sb).mask .linktarget = false := by
      rw [(fromstat_file _ hfile).1]
      cases env.fflags <;> decide
    rw [hre.disk, Sys.frompath, fattrFrompath, hsb, Option.bind_some]
    simp [hlink]
  have hlive (fa : Fattr) : liveAttr lenv it fa =
      .ok (if !fattrEqual fa ca || !fattrEqual fa (fattrForcheckout env.fflags sa env.coll.umask)
        then fattrBogus else sa) := by
    rw [liveAttr, hsr, ← hre.fflags, ← hre.umask]
    simp [deref, bind, Except.bind, pure, Except.pure]
  rw [dofileAttr, hre.notrust, hsr, hre.pre]
  simp only [Bool.false_eq_true, if_false, hpath, hdisk, hlive]
  cases fattrEqual (fattrFromstat env.fflags sb) ca <;>
    cases fattrEqual (fattrFromstat env.fflags sb) (fattrForcheckout env.fflags sa env.coll.umask) <;>
    rfl

theorem steady_of_recorded {sr : StatusRec} (hrec : Recorded env.fflags env.coll.umask sb sr)
    (hstr : Strings sr) (hre : Rerun env sys lenv senv sr it w₂)
    (hpath : checkoutpath env.coll.pre sr.file = some path) (hsb : sys.lstat path w₂ = some sb)
    (hfile : sb.type = .file) :
    Steady lenv it sr ↔ sb.nlink = 1 ∧ sb.mode &&& 0o7000 = 0 ∧
      ∀ sa, sr.serverattr = some sa → Decodes senv sa := by
  cases hrec with
  | @live file tag date revnum revdate sa ca hkept hperm =>
    obtain rfl : tag = lenv.coll.tag := Option.some.inj hre.tag
    obtain rfl : date = lenv.coll.date := Option.some.inj hre.date
    obtain ⟨sa', ca', hsa, hca, hsr⟩ := readAs_live hstr hre.readAs
    obtain rfl : keptBack sb = ca' := by
      rw [attrText, cstr_of_notMem (zero_notMem_kept senv.ids hkept), decoded,
        fattrDecode_kept senv.fflags senv.ids hkept] at hca
      exact Option.some.inj hca
    have hsend := dofileAttr_live hsr hre hpath hsb hfile
    have hequal := fattrEqual_keptBack env.fflags hfile
    constructor
    · rintro ⟨sa₀, hsa₀, hsent, hne⟩
      obtain rfl : sa = sa₀ := Option.some.inj hsa₀
      rw [hsend] at hsent
      split at hsent
      · rename_i hboth
        obtain rfl : sa' = sa := Except.ok.inj hsent
        obtain ⟨hn, hset⟩ := hequal.mp (Bool.and_eq_true_iff.mp hboth).1
        exact ⟨hn, hset, fun sa₁ h₁ => Option.some.inj h₁ ▸ hsa⟩
      · exact absurd (Except.ok.inj hsent).symm hne
    · rintro ⟨hn, hset, hdec⟩
      have hback : decoded senv (attrText senv sa) = some sa := hdec sa rfl
      obtain rfl : sa = sa' := Option.some.inj (hback.symm.trans hsa)
      refine ⟨sa, rfl, ?_, fun hb => not_decodes_bogus senv (hb ▸ hback)⟩
      rw [hsend, hequal.mpr ⟨hn, hset⟩, fattrEqual_forcheckout hfile hn hset hperm]
      rfl

end Next

/-- The command `c`, started in the world `w`, puts the record `sr` of a file with the attributes
`sb`; in `w₂` the file is listed. -/
structure NextRun (env : Docoll.Env W F D) (sys : Sys W) (c : Command) (count : Nat) (p : List Byte)
    (w w₂ : W) (sr : StatusRec) (path : Path) (sb : Stat) (lenv : Env) (senv : Status.Env)
    (it : Item) : Prop where
  onSys : OnSys env sys
  lawful : sys.Lawful
  checkoutmode : env.coll.checkoutmode = true
  live : Live c
  ok : ∃ n, (docommand env count c p w).val = .ok n
  put : .statusPut sr ∈ (docommand env count c p w).log
  strings : Strings sr
  destpath : checkoutpath env.coll.pre sr.file = some path
  unchanged : Unchanged env sys path sr (docommand env count c p w).world w₂
  disk : sys.lstat path w₂ = some sb
  file : sb.type = .file
  rerun : Rerun env sys lenv senv sr it w₂

/-- A file whose record a command has put is listed with the attributes of the server in the next
run just when it has one link and no set-id bits, and these attributes are read as they are
written. -/
theorem steady_iff {env : Docoll.Env W F D} {sys : Sys W} {c : Command} {count : Nat}
    {p : List Byte} {w w₂ : W} {sr : StatusRec} {path : Path} {sb : Stat} {lenv : Env}
    {senv : Status.Env} {it : Item}
    (h : NextRun env sys c count p w w₂ sr path sb lenv senv it) :
    Steady lenv it sr ↔ sb.nlink = 1 ∧ sb.mode &&& 0o7000 = 0 ∧
      ∀ sa, sr.serverattr = some sa → Decodes senv sa := by
  obtain ⟨n, hok⟩ := h.ok
  have hnoted : Noted env sys (docommand env count c p w).log (docommand env count c p w).world :=
    Docoll.recorded_docommand h.onSys h.lawful h.checkoutmode h.live count n hok
  have hrec : Recorded env.fflags env.coll.umask sb sr :=
    hnoted sr path sb h.put h.destpath h.unchanged.put (h.unchanged.later ▸ h.disk) h.file
  exact steady_of_recorded hrec h.strings h.rerun h.destpath h.disk h.file

/-! ## A file of which only the mode is changed -/

/-- A world with one file, whatever its path. -/
def oneFile : Sys Stat where
  lstat _ w := some w
  readlink _ _ := none
  utimes _ mtime w := (true, { w with mtime })
  chown _ uid gid w := (true, { w with uid := uid.getD w.uid, gid := gid.getD w.gid })
  chmod _ mode w := (true, { w with mode })
  chflags _ flags w := { w with flags }
  rename _ _ w := (true, w)
  unlink _ w := (false, w)
  rmdir _ w := (false, w)
  symlink _ _ w := (false, w)

theorem oneFile_lawful : oneFile.Lawful where
  chmod h hsb _ := by
    obtain ⟨-, rfl⟩ := Prod.mk.inj h
    obtain rfl := Option.some.inj hsb
    rfl
  rename h hsb := by
    obtain ⟨-, rfl⟩ := Prod.mk.inj h
    exact ⟨_, hsb, rfl, rfl⟩
  chflags hsb := by
    obtain rfl := Option.some.inj hsb
    exact ⟨_, rfl, rfl, rfl⟩

def oneEnv : Docoll.Env Stat Unit Unit where
  host :=
    { access := fun _ _ => true
      frompath := oneFile.frompath false
      frompathFollow := oneFile.frompath false
      read := fun _ _ => none
      files := fun _ _ => none
      delete := fun _ w => w
      rmdir := fun _ w => (false, w)
      mkdirhier := fun _ w => (true, w)
      makenode := fun _ _ w => (false, w)
      install := fun fa topath source w =>
        Docoll.installed (fattrInstall false oneFile fa topath source w)
      statusPut := fun _ w => (true, w)
      statusDelete := fun _ _ w => (true, w)
      fixupsPut := fun _ w => w
      tempname := fun path w => (path ++ [35], w)
      create := fun _ w => (true, w)
      write := fun _ _ w => (true, w) }
  api := Docoll.listEnv.api
  md5 := id
  md5rcs := id
  timegm := fun _ => none
  fflags := false
  ids := Docoll.listEnv.ids
  deletelim := -1
  coll := { Docoll.listEnv.coll with checkoutmode := true, umask := 0o22 }

/-- A file that only its owner may read, with `n` links. -/
def oneStat (n : BitVec 64) : Stat :=
  ⟨.file, 5, 1, 0, 0, 0, 0o600, 0, n, 0, 7⟩

/-- Attributes of the server, and their text. -/
def oneServer : Fattr :=
  { fattrNew with
    mask := maskOf [.filetype, .modtime, .mode, .linkcount]
    type := .file
    modtime := 5
    mode := 0o644
    linkcount := 1 }

def oneCommand : Command :=
  .setattrs (bytes ['a', ',', 'v']) (bytes ['.']) (bytes ['.']) (bytes ['1', '.', '1'])
    (bytes ['1']) (bytes
      ['2', '#', '8', '3', '1', '#', '1', '1', '#', '5', '3', '#', '6', '4', '4'])

def oneRecord (n : BitVec 64) : StatusRec :=
  ⟨.checkoutlive, bytes ['a', ',', 'v'], some (bytes ['.']), some (bytes ['.']),
    some (bytes ['1', '.', '1']), some (bytes ['1']), some oneServer,
    some (fattrMaskout (fattrFromstat false { oneStat n with mode := 0o644 }) faCoignore)⟩

def oneLister : Env where
  coll := ⟨bytes ['r'], bytes ['.'], bytes ['.'], 0o22, true, false, false, false⟩
  fflags := false
  dirfilter _ := true
  filefilter _ := true

def oneItem (n : BitVec 64) : Item where
  sr := { oneRecord n with clientattr := some (keptBack { oneStat n with mode := 0o644 }) }
  nofollow path := oneFile.frompath false path { oneStat n with mode := 0o644 }
  follow _ := none
  printf := true

theorem nextRun_one {n : BitVec 64} (hn : n = 1 ∨ n = 2) :
    NextRun oneEnv oneFile oneCommand 0 [] (oneStat n) { oneStat n with mode := 0o644 }
      (oneRecord n) (bytes ['r', '/', 'a']) { oneStat n with mode := 0o644 } oneLister
      Status.envOfNone (oneItem n) where
  onSys := ⟨fun _ _ _ _ => rfl, fun _ _ => rfl⟩
  lawful := oneFile_lawful
  checkoutmode := rfl
  live := trivial
  ok := by rcases hn with rfl | rfl <;> exact ⟨0, rfl⟩
  put := by
    apply List.mem_of_getLast?
    rcases hn with rfl | rfl <;> rfl
  strings := by
    refine ⟨show 0 ∉ bytes ['a', ',', 'v'] by decide, ?_⟩
    rintro s (h | h | h | h) <;> rw [Option.some.inj h] <;> decide
  destpath := by
    show checkoutpath (bytes ['r']) (bytes ['a', ',', 'v']) = some (bytes ['r', '/', 'a'])
    decide
  unchanged := ⟨fun _ => rfl, by rcases hn with rfl | rfl <;> rfl⟩
  disk := rfl
  file := rfl
  rerun :=
    { pre := rfl
      umask := rfl
      fflags := rfl
      notrust := rfl
      tag := rfl
      date := rfl
      readAs := by
        rcases hn with rfl | rfl <;> exact ⟨_, [], Status.fileOf [], _, rfl, rfl⟩
      disk := fun _ => rfl }

theorem steady_one : Steady oneLister (oneItem 1) (oneRecord 1) :=
  (steady_iff (nextRun_one (.inl rfl))).mpr ⟨rfl, rfl, fun _ h => by
    obtain rfl := Option.some.inj h
    rfl⟩

/-- A file with two links is listed with bogus attributes. -/
theorem not_steady :
    NextRun oneEnv oneFile oneCommand 0 [] (oneStat 2) { oneStat 2 with mode := 0o644 }
        (oneRecord 2) (bytes ['r', '/', 'a']) { oneStat 2 with mode := 0o644 } oneLister
        Status.envOfNone (oneItem 2) ∧
      dofileAttr oneLister (oneItem 2) = .ok fattrBogus ∧
      ¬Steady oneLister (oneItem 2) (oneRecord 2) := by
  have hbogus : dofileAttr oneLister (oneItem 2) = .ok fattrBogus := rfl
  refine ⟨nextRun_one (.inr rfl), hbogus, ?_⟩
  rintro ⟨sa, -, hsent, hne⟩
  exact hne (Except.ok.inj (hsent.symm.trans hbogus))

end Csup.Lister
