import Csup.Fattr.Checkout
import Csup.Fattr.Install
import Csup.Updater.Docoll

/-!
# The record of a file that is checked out

A command that updates a file in checkout mode, or its attributes, records it: what is kept of
the file as it is on disk behind the command, and the attributes of the server, whose mode the
file has (`recorded_docommand`).
-/

namespace Csup.Docoll

open Csup.Attrs (Kept Moded Permits Stat Sys asServer fattrForcheckout fattrInstall fattrOverride
  fattrUmask has)
open Csup.Framework (Done Prog Work)
open Csup.Framework.Work (Post post_bind post_bind_of post_pure post_fail post_ask post_tell post_act)
open Csup.Status (StatusRec)
open Csup.Updater

variable {W F D α : Type}

/-- What `fattr_install` returns. -/
def installed (d : Done Unit W Empty Bool) : Installed × W :=
  (match d.val with
    | .ok true => .changed
    | .ok false => .unchanged
    | .error _ => .failed, d.world)

/-- The functions of `fattr.c` are those of the updater. -/
structure OnSys (env : Env W F D) (sys : Sys W) : Prop where
  install : ∀ fa topath source w, env.host.install fa topath source w =
    installed (fattrInstall env.fflags sys fa topath source w)
  frompath : ∀ path w, env.host.frompath path w = sys.frompath env.fflags path w

/-- The record of a file that is live, made of its attributes `sb` on disk. -/
inductive Recorded (fflags : Bool) (umask : BitVec 32) (sb : Stat) : StatusRec → Prop
  | live {file tag date revnum revdate : List Byte} {sa ca : Attrs.Fattr} : Kept sb ca →
    (has sa.mask .mode = true → sb.mode &&& 0o777 = (fattrForcheckout fflags sa umask).mode) →
    Recorded fflags umask sb
      ⟨.checkoutlive, file, some tag, some date, some revnum, some revdate, some sa, some ca⟩

/-- The commands `C` and `Y`, `U` and `T`. -/
def Live : Command → Prop
  | .checkout .. | .diff .. | .setattrs .. => True
  | _ => False

variable (env : Env W F D) (sys : Sys W)

/-- A record that is put is that of the file that it names, as it is in the world `w`; putting it
does not change the file. -/
def Noted (log : List Action) (w : W) : Prop :=
  ∀ sr path sb, .statusPut sr ∈ log → checkoutpath env.coll.pre sr.file = some path →
    (∀ w, sys.lstat path (env.host.statusPut sr w).2 = sys.lstat path w) →
    sys.lstat path w = some sb → sb.type = .file → Recorded env.fflags env.coll.umask sb sr

variable {env sys}

/-- No record is put. -/
def NoPut (log : List Action) : Prop := ∀ sr, .statusPut sr ∉ log

theorem NoPut.noted {log : List Action} (h : NoPut log) (w : W) : Noted env sys log w :=
  fun sr _ _ hput => absurd hput (h sr)

theorem NoPut.nil : NoPut [] := fun _ => List.not_mem_nil

theorem NoPut.append {l l' : List Action} (h : NoPut l) (h' : NoPut l') : NoPut (l ++ l') :=
  fun sr hmem => (List.mem_append.mp hmem).elim (h sr) (h' sr)

theorem Noted.append {l l' : List Action} {w : W} (h : NoPut l) (h' : Noted env sys l' w) :
    Noted env sys (l ++ l') w :=
  fun sr path sb hput => h' sr path sb ((List.mem_append.mp hput).resolve_left (h sr))

/-- A record that is put as the last. -/
theorem noted_put {l : List Action} (hl : NoPut l) {sr : StatusRec} {w : W}
    (h : ∀ path sb, checkoutpath env.coll.pre sr.file = some path → sys.lstat path w = some sb →
      sb.type = .file → Recorded env.fflags env.coll.umask sb sr) :
    Noted env sys (l ++ [.statusPut sr]) (env.host.statusPut sr w).2 := by
  intro sr' path sb hput hpath hkeep hsb hfile
  obtain rfl : sr' = sr := by
    rcases List.mem_append.mp hput with hmem | hmem
    · exact absurd hmem (hl sr')
    · simpa using hmem
  exact h path sb hpath (hkeep w ▸ hsb) hfile

/-! ## The parts of a command -/

section Parts

variable {Q : α → W → List Action → Prop} {w : W}

@[simp] theorem post_need {e : Stop} {o : Option α} :
    Post Q (need e o) w ↔ ∀ a, o = some a → Q a w [] := by
  cases o with
  | none => simp [need]
  | some a =>
    show Post Q (Pure.pure a) w ↔ _
    simp

@[simp] theorem post_check {e : Stop} {b : Bool} {Q : Unit → W → List Action → Prop} :
    Post Q (check e b) w ↔ (b = true → Q () w []) := by
  unfold check
  split
  · rename_i h
    show Post Q (Pure.pure ()) w ↔ _
    simp [h]
  · rename_i h
    simp [h]

theorem post_decode {attr : List Byte} {Q : Attrs.Fattr → W → List Action → Prop}
    (h : ∀ fa, Q fa w []) : Post Q (decode env attr) w := by
  unfold decode
  split
  · exact post_pure.mpr (h _)
  · exact post_fail.mpr trivial
  · exact post_fail.mpr trivial

theorem post_prepare (hco : env.coll.checkoutmode = true) {e : Stop} {name : List Byte}
    {attic : Bool} {Q : Fup → W → List Action → Prop}
    (h : ∀ fup, checkoutpath env.coll.pre name = some fup.destpath → Q fup w []) :
    Post Q (prepare env e name attic) w := by
  rw [prepare, if_pos hco, post_need]
  intro fup hfup
  obtain ⟨destpath, hdest, rfl⟩ := Option.map_eq_some_iff.mp hfup
  exact h _ hdest

theorem post_statusPut {sr : StatusRec} {Q : Unit → W → List Action → Prop}
    (h : Q () (env.host.statusPut sr w).2 [.statusPut sr]) : Post Q (statusPut env sr) w := by
  rw [statusPut, post_bind, post_act, post_check]
  exact fun _ => h

theorem post_frompath {path : Path} {Q : Option Attrs.Fattr → W → List Action → Prop}
    (h : Q (env.host.frompath path w) w []) : Post Q (frompath env path) w := by
  rw [frompath, post_ask]
  exact h

theorem noPut_mkdirhier {e : Stop} {path : Path} :
    Post (fun _ _ l => NoPut l) (mkdirhier env e path) w := by
  rw [mkdirhier, post_bind, post_act, post_check]
  exact fun _ sr => by simp

theorem noPut_create {path : Path} : Post (fun _ _ l => NoPut l) (create env path) w := by
  rw [create, post_bind, post_tell, post_check]
  exact fun _ => .nil

theorem noPut_writeFile {path : Path} {data : List Byte} :
    Post (fun _ _ l => NoPut l) (writeFile env path data) w := by
  rw [writeFile, post_bind, post_tell, post_check]
  exact fun _ => .nil

end Parts

/-! ## Where a record is put -/

section Puts

variable {w : W}

theorem perm_of_permits {sa fa : Attrs.Fattr} (hm : Moded env.fflags env.coll.umask sa fa)
    {path : Path} {sb : Stat}
    (hp : has fa.mask .mode = true → Permits sys fa path w) (hsb : sys.lstat path w = some sb)
    (hfile : sb.type = .file) (h : has sa.mask .mode = true) :
    sb.mode &&& 0o777 = (fattrForcheckout env.fflags sa env.coll.umask).mode := by
  obtain ⟨hhas, hmode⟩ := hm.mode h
  rw [hp hhas sb hsb (by rw [hfile]; decide), hmode, (Attrs.forcheckout_mode h _).1]

/-- What is read of a file. -/
theorem frompath_file (hs : OnSys env sys) {path : Path} {sb : Stat}
    (hsb : sys.lstat path w = some sb) (hfile : sb.type = .file) :
    env.host.frompath path w = some (Attrs.fattrFromstat env.fflags sb) := by
  have hlink : has (Attrs.fattrFromstat env.fflags sb).mask .linktarget = false := by
    rw [(Attrs.fromstat_file _ hfile).1]
    cases env.fflags <;> decide
  rw [hs.frompath, Sys.frompath, Attrs.fattrFrompath, hsb, Option.bind_some]
  simp [hlink]

theorem post_install (hs : OnSys env sys) (hl : sys.Lawful) {fa : Attrs.Fattr}
    (hfile : fa.type = .file) (path : Path) (source : Option Path) :
    Post (fun rv w' l => NoPut l ∧
        (rv = .changed → has fa.mask .mode = true → Permits sys fa path w') ∧
        (rv = .unchanged → w' = w ∧ source = none ∧ ∃ old, env.host.frompath path w = some old ∧
          Attrs.fattrEqual fa old = true))
      (install env fa path source) w := by
  have hchanged := fun hmode =>
    @Attrs.install_mode W env.fflags sys hl fa hfile hmode path source w
  have hsame := @Attrs.install_unchanged W env.fflags sys fa path source w
  rw [install, post_act, hs.install, installed]
  refine ⟨fun sr => by simp, fun hrv hmode => ?_, fun hrv => ?_⟩
  · cases hval : (fattrInstall env.fflags sys fa path source w).val with
    | error e => simp [hval] at hrv
    | ok b =>
      cases b with
      | false => simp [hval] at hrv
      | true => exact hchanged hmode true hval rfl
  · cases hval : (fattrInstall env.fflags sys fa path source w).val with
    | error e => simp [hval] at hrv
    | ok b =>
      cases b with
      | true => simp [hval] at hrv
      | false =>
        rw [hs.frompath]
        exact hsame false hval rfl

theorem noted_updateFile (hs : OnSys env sys) (hl : sys.Lawful)
    (hco : env.coll.checkoutmode = true) {name tag date revnum revdate : List Byte}
    {sa fa : Attrs.Fattr} (hm : Moded env.fflags env.coll.umask sa fa) {fup : Fup}
    (hdest : checkoutpath env.coll.pre name = some fup.destpath) (temppath : Path) (isfixup : Bool)
    (wantmd5 sum : List Byte) :
    Post (fun _ w' l => Noted env sys l w')
      (updateFile env fup temppath isfixup wantmd5 sum
        ⟨.checkoutlive, name, some tag, some date, some revnum, some revdate, some sa, none⟩ fa)
      w := by
  unfold updateFile
  split
  · rw [needfixupFile, post_tell]
    exact NoPut.nil.noted _
  · rw [post_bind]
    refine (post_install hs hl hm.umasked.type fup.destpath (some temppath)).mono
      fun rv w₁ l₁ hrv => ?_
    obtain ⟨hl₁, hperm, hsame⟩ := hrv
    rw [post_bind, post_check]
    intro hok
    rw [post_bind, frompath, post_ask, post_bind, post_need]
    intro fileattr hfa
    refine post_statusPut (noted_put hl₁ fun path sb hpath hsb hreg => ?_)
    obtain rfl : fup.destpath = path := Option.some.inj (hdest.symm.trans hpath)
    rw [frompath_file hs hsb hreg] at hfa
    obtain rfl := Option.some.inj hfa
    refine .live ?_ (perm_of_permits hm.umasked (fun hhas => ?_) hsb hreg)
    · exact Attrs.kept_linkcount env.fflags hreg _
    · cases rv with
      | failed => simp at hok
      | changed => exact hperm rfl hhas
      | unchanged => cases (hsame rfl).2.1

theorem noted_recordAttrs {name tag date revnum revdate : List Byte} {sa fa : Attrs.Fattr}
    {path : Path} (hdest : checkoutpath env.coll.pre name = some path)
    (h : ∀ sb, sys.lstat path w = some sb → sb.type = .file →
      Kept sb (Attrs.fattrMaskout fa Attrs.faCoignore) ∧ (has sa.mask .mode = true →
        sb.mode &&& 0o777 = (fattrForcheckout env.fflags sa env.coll.umask).mode)) :
    Post (fun _ w' l => Noted env sys l w')
      (recordAttrs env name tag date revnum revdate sa fa) w := by
  refine post_statusPut (noted_put .nil fun path' sb hpath hsb hreg => ?_)
  obtain rfl : path = path' := Option.some.inj (hdest.symm.trans hpath)
  obtain ⟨hkept, hperm⟩ := h sb hsb hreg
  exact .live hkept hperm

theorem noted_updaterSetattrs (hs : OnSys env sys) (hl : sys.Lawful) {fup : Fup}
    {name tag date revnum revdate : List Byte} {sa : Attrs.Fattr}
    (hdest : checkoutpath env.coll.pre name = some fup.destpath) :
    Post (fun _ w' l => Noted env sys l w')
      (updaterSetattrs env fup name tag date revnum revdate sa) w := by
  have hdelete (w : W) : Post (fun _ w' l => Noted env sys l w') (statusDelete env name) w := by
    rw [statusDelete, post_bind, post_act, post_check]
    exact fun _ => NoPut.noted (fun sr => by simp) _
  rw [updaterSetattrs, post_bind, frompath, post_ask]
  cases hold : env.host.frompath fup.destpath w with
  | none => exact hdelete w
  | some fileattr =>
    have hm := Attrs.moded_override env.fflags env.coll.umask sa fileattr
    rw [post_bind]
    refine (post_install hs hl hm.type fup.destpath none).mono fun rv w₁ l₁ hrv => ?_
    obtain ⟨hl₁, hperm, hsame⟩ := hrv
    cases rv with
    | failed => exact post_fail.mpr trivial
    | unchanged =>
      refine (noted_recordAttrs hdest fun sb hsb hreg => ?_).mono fun _ _ _ h =>
        .append .nil (.append hl₁ h)
      obtain ⟨rfl, -, old, hold', heq⟩ := hsame rfl
      rw [frompath_file hs hsb hreg] at hold hold'
      obtain rfl := Option.some.inj hold
      obtain rfl := Option.some.inj hold'
      exact ⟨Attrs.kept_asServer hreg heq, Attrs.perm_asServer hreg heq⟩
    | changed =>
      refine post_bind.mpr (post_frompath ?_)
      cases hnew : env.host.frompath fup.destpath w₁ with
      | none => exact (hdelete w₁).mono fun _ _ _ h => .append .nil (.append hl₁ (.append .nil h))
      | some fileattr' =>
        refine (noted_recordAttrs hdest fun sb hsb hreg => ?_).mono fun _ _ _ h =>
          .append .nil (.append hl₁ (.append .nil h))
        rw [frompath_file hs hsb hreg] at hnew
        obtain rfl := Option.some.inj hnew
        exact ⟨Attrs.kept_fromstat _ hreg, perm_of_permits hm (hperm rfl) hsb hreg⟩

end Puts

/-! ## The commands -/

section Open

variable {w : W} (hco : env.coll.checkoutmode = true)
include hco

theorem post_openCheckout (name revdate : List Byte) :
    Post (fun r _ l => NoPut l ∧ checkoutpath env.coll.pre name = some r.2.1.destpath)
      (openCheckout env name revdate) w := by
  rw [openCheckout, post_bind, post_need]
  intro t _
  refine post_bind.mpr (post_prepare hco fun fup hdest => ?_)
  rw [post_bind, tempname, post_tell, post_bind, openDest, post_bind]
  refine noPut_mkdirhier.mono fun _ w₁ l₁ h₁ => noPut_create.mono fun _ w₂ l₂ h₂ => ?_
  have hlog : NoPut ([] ++ ([] ++ ([] ++ (l₁ ++ l₂ ++ [])))) := by
    simpa using h₁.append h₂
  exact post_pure.mpr ⟨hlog, hdest⟩

theorem post_openDiff (name expand attr : List Byte) :
    Post (fun r _ l => NoPut l ∧ checkoutpath env.coll.pre name = some r.1.destpath)
      (openDiff env name expand attr) w := by
  refine post_bind.mpr (post_decode fun sa => ?_)
  rw [post_bind, post_need]
  intro e _
  refine post_bind.mpr (post_prepare hco fun fup hdest => ?_)
  rw [post_bind, tempname, post_tell, post_bind, post_ask]
  exact post_pure.mpr ⟨.nil, hdest⟩

end Open

section Commands

variable {p : List Byte} {w : W} (hs : OnSys env sys) (hl : sys.Lawful)
  (hco : env.coll.checkoutmode = true)
include hs hl hco

theorem noted_cmdSetattrs (name tag date revnum revdate attr : List Byte) :
    Post (fun _ w' l => Noted env sys l w') (cmdSetattrs env name tag date revnum revdate attr)
      w := by
  refine post_bind.mpr (post_decode fun sa => post_bind.mpr (post_prepare hco fun fup hdest => ?_))
  exact noted_updaterSetattrs hs hl hdest

theorem noted_cmdCheckout (isfixup : Bool) (name tag date revnum revdate attr : List Byte) :
    (cmdCheckout env isfixup name tag date revnum revdate attr).Post
      (fun _ w' l => Noted env sys l w') p w := by
  refine Prog.post_bind (Prog.post_work (post_bind.mpr (post_decode fun sa => ?_)))
  rw [post_bind]
  refine (post_openCheckout hco name revdate).mono fun r w₁ l₁ h₁ => post_pure.mpr fun p₁ => ?_
  obtain ⟨t, fup, temppath⟩ := r
  obtain ⟨hput, hdest⟩ := h₁
  have hm := (Attrs.moded_override env.fflags env.coll.umask sa
    (Attrs.fattrNewOf env.fflags .file (some t))).merge
  refine Prog.post_bind (Prog.post_read fun text p₂ => ?_)
  refine Prog.post_bind (Prog.post_work (noPut_writeFile.mono fun _ w₂ l₂ h₂ p₃ => ?_))
  refine Prog.post_bind (Prog.post_read fun wantmd5 p₄ => Prog.post_work ?_)
  refine (noted_updateFile hs hl hco (hm _) hdest _ _ _ _).mono fun _ _ _ h => ?_
  have hrest := Noted.append h₂ (Noted.append .nil h)
  exact .append (show NoPut ([] ++ (l₁ ++ [])) by simpa using hput) (.append .nil hrest)

theorem noted_closeDiff {fup : Fup} {name : List Byte}
    (hdest : checkoutpath env.coll.pre name = some fup.destpath) (temppath : Path)
    (tag date wantmd5 : List Byte) (sa : Attrs.Fattr) (last : Option (Diff.File × DeltaInfo)) :
    Post (fun _ w' l => Noted env sys l w')
      (closeDiff env fup temppath name tag date wantmd5 sa last) w := by
  rw [closeDiff, post_bind, post_ask, post_bind, post_need]
  intro fa _
  rw [post_bind, post_need]
  rintro ⟨dest, delta⟩ _
  have hm := (Attrs.moded_override env.fflags env.coll.umask sa fa).maskout
    (show has (Attrs.maskOf [.modtime]) .filetype = false by decide) (by decide)
  refine post_bind.mpr (noPut_create.mono fun _ w₁ l₁ h₁ => ?_)
  refine post_bind.mpr (noPut_writeFile.mono fun _ w₂ l₂ h₂ => ?_)
  refine (noted_updateFile hs hl hco hm hdest _ _ _ _).mono fun _ _ _ h => ?_
  exact .append .nil (.append .nil (.append .nil (.append h₁ (.append h₂ h))))

theorem noted_cmdDiff (name tag date expand attr wantmd5 : List Byte) :
    (cmdDiff env name tag date expand attr wantmd5).Post (fun _ w' l => Noted env sys l w') p w := by
  refine Prog.post_bind (Prog.post_work ((post_openDiff hco name expand attr).mono ?_))
  rintro ⟨fup, temppath, sa, expand', file⟩ w₁ l₁ ⟨hput, hdest⟩ p₁
  refine Prog.post_bind (Prog.post_read fun last p₂ => Prog.post_work ?_)
  exact (noted_closeDiff hs hl hco hdest _ _ _ _ _ _).mono fun _ _ _ h =>
    .append hput (.append .nil h)

/-- A command that puts the record of a live file records what is kept of the file. -/
theorem recorded_docommand {c : Command} (hc : Live c) (count : Nat) :
    (docommand env count c).Post (fun _ w' l => Noted env sys l w') p w := by
  cases c with
  | setattrs name tag date revnum revdate attr =>
    exact Prog.post_map (Prog.post_work (noted_cmdSetattrs hs hl hco _ _ _ _ _ _))
  | checkout isfixup name tag date revnum revdate attr =>
    exact Prog.post_map (noted_cmdCheckout hs hl hco _ _ _ _ _ _ _)
  | diff name tag date expand attr wantmd5 =>
    exact Prog.post_map (noted_cmdDiff hs hl hco _ _ _ _ _ _)
  | _ => exact hc.elim

end Commands

end Csup.Docoll
