import Csup.Framework.Acts
import Csup.Updater.Docoll

/-!
# Where a command acts

In CVS mode a command acts on the paths that `fup_prepare` makes of its name, and on no
other (`acts_docommand`). The temporary file, which has a name of its own, is not meant.
-/

namespace Csup.Docoll

open Csup.Framework (Prog Work)
open Csup.Framework.Work (Acts ActsAt acts_bind actsAt_bind acts_pure acts_fail acts_ask acts_tell
  acts_act)
open Csup.Status (StatusRec)
open Csup.Updater

variable {W F D α β : Type} {P : Path → Prop} {S : β → Prop}

/-- What is done to files is done to those that are `P`. -/
def Action.Within (P : Path → Prop) : Action → Prop
  | .delete path | .rmdir path | .mkdirhier path | .makenode _ path | .install _ path _ => P path
  | .statusPut _ | .statusDelete _ _ => True

def Fup.Within (P : Path → Prop) (fup : Fup) : Prop :=
  P fup.destpath ∧ ∀ o ∈ fup.origpath, P o

/-- Nothing is done to files that are not `P`. -/
abbrev Confined (P : Path → Prop) (t : Task W α) : Prop :=
  t.Acts (Action.Within P) fun _ => True

variable (env : Env W F D)

/-! ## Checks -/

theorem confined_need (e : Stop) (o : Option α) : Confined P (need e o : Task W α) := by
  cases o with
  | none => exact acts_fail e
  | some a => exact acts_pure trivial

theorem confined_check (e : Stop) (b : Bool) : Confined P (check e b : Task W Unit) :=
  .ite (acts_pure trivial) (acts_fail e)

theorem confined_must (e : Err → Stop) (x : Except Err α) : Confined P (must e x : Task W α) := by
  cases x with
  | ok a => exact acts_pure trivial
  | error h => exact acts_fail _

theorem Confined.bind {t : Task W α} {k : α → Task W β} (ht : Confined P t)
    (hk : ∀ v, (k v).Acts (Action.Within P) S) : (t >>= k).Acts (Action.Within P) S :=
  acts_bind ht fun v _ => hk v

theorem confined_ask (f : W → α) : Confined P (Work.ask f : Task W α) := acts_ask fun _ => trivial

theorem confined_tell (f : W → α × W) : Confined P (Work.tell f : Task W α) :=
  acts_tell fun _ => trivial

theorem confined_act {a : Action} (ha : a.Within P) (f : W → α × W) :
    Confined P (Work.act a f : Task W α) := acts_act ha fun _ => trivial

/-! ## The system -/

theorem confined_decode (attr : List Byte) : Confined P (decode env attr) := by
  unfold decode
  split
  · exact acts_pure trivial
  · exact acts_fail _
  · exact acts_fail _

/-- Attributes are decoded in front of `fup_prepare`. -/
theorem world_decode (attr : List Byte) (w : W) : (decode env attr w).world = w := by
  unfold decode
  rcases Attrs.fattrDecode env.fflags env.ids attr with ⟨⟨⟩⟩ | _ <;> rfl

theorem confined_statusPut (sr : StatusRec) : Confined P (statusPut env sr) :=
  (confined_act (show (Action.statusPut sr).Within P from trivial) _).bind fun _ =>
    confined_check _ _

theorem confined_statusDelete (name : List Byte) : Confined P (statusDelete env name) :=
  (confined_act (show (Action.statusDelete name false).Within P from trivial) _).bind fun _ =>
    confined_check _ _

theorem confined_mkdirhier (e : Stop) {path : Path} (h : P path) :
    Confined P (mkdirhier env e path) :=
  (confined_act (show (Action.mkdirhier path).Within P from h) _).bind fun _ => confined_check _ _

theorem confined_install (fa : Attrs.Fattr) {topath : Path} (frompath : Option Path)
    (h : P topath) : Confined P (install env fa topath frompath) :=
  confined_act (show (Action.install fa topath frompath).Within P from h) _

theorem confined_create (path : Path) : Confined P (create env path) :=
  (confined_tell _).bind fun _ => confined_check _ _

theorem confined_writeFile (path : Path) (data : List Byte) :
    Confined P (writeFile env path data) := (confined_tell _).bind fun _ => confined_check _ _

variable {env}

/-- The paths of a name, in the world `w`. -/
def Prepares (env : Env W F D) (P : Path → Prop) (name : List Byte) (attic : Bool) (w : W) : Prop :=
  ∀ e fup, (prepare env e name attic w).val = .ok fup → fup.Within P

theorem actsAt_prepare_bind {e : Stop} {name : List Byte} {attic : Bool} {w : W}
    (h : Prepares env P name attic w) {k : Fup → Task W β}
    (hk : ∀ fup, fup.Within P → (k fup).Acts (Action.Within P) S) :
    (prepare env e name attic >>= k).ActsAt (Action.Within P) S w := by
  refine actsAt_bind (Q := Fup.Within P) ⟨?_, fun v hv => h e v hv⟩ fun fup hf => hk fup hf _
  have hlog : (prepare env e name attic w).log = [] := by
    unfold prepare
    split
    · cases checkoutpath env.coll.pre name <;> rfl
    · rfl
  simp [hlog]

theorem actsAt_decode_bind {attr : List Byte} {w : W} {k : Attrs.Fattr → Task W β}
    (hk : ∀ fa, (k fa).ActsAt (Action.Within P) S w) :
    (decode env attr >>= k).ActsAt (Action.Within P) S w := by
  refine actsAt_bind (confined_decode env attr w) fun fa _ => ?_
  rw [world_decode]
  exact hk fa

theorem actsAt_need_bind {e : Stop} {o : Option α} {w : W} {k : α → Task W β}
    (hk : ∀ a, (k a).ActsAt (Action.Within P) S w) :
    (need e o >>= k).ActsAt (Action.Within P) S w := by
  refine actsAt_bind (confined_need e o w) fun a _ => ?_
  have hw : ((need e o : Task W α) w).world = w := by cases o <;> rfl
  rw [hw]
  exact hk a

theorem confined_deletefile {path : Path} (h : P path) : Confined P (deletefile env path) :=
  confined_act (show (Action.delete path).Within P from h) _

/-! ## Files -/

section

variable {fup : Fup} (hf : fup.Within P)

include hf

theorem confined_updateFile (temppath : Path) (isfixup : Bool) (wantmd5 sum : List Byte)
    (sr : StatusRec) (clientattr : Attrs.Fattr) :
    Confined P (updateFile env fup temppath isfixup wantmd5 sum sr clientattr) :=
  .ite (confined_tell _) <| (confined_install env _ _ hf.1).bind fun _ =>
    (confined_check _ _).bind fun _ => (confined_ask _).bind fun _ =>
    (confined_need _ _).bind fun _ => confined_statusPut env _

theorem confined_updateRcs (temppath path : Path) (attic isfixup : Bool) (e : Stop)
    (name wantmd5 sum : List Byte) (serverattr : Attrs.Fattr) :
    Confined P (updateRcs env fup temppath path attic isfixup e name wantmd5 sum serverattr) :=
  (confined_ask _).bind fun _ => (confined_need _ _).bind fun _ =>
    confined_updateFile hf _ _ _ _ _ _

theorem confined_removeOrig : Confined P (removeOrig env fup) := by
  unfold removeOrig
  split
  · exact acts_pure trivial
  · rename_i o ho
    exact confined_deletefile (hf.2 o ho)

theorem confined_updaterSetattrs (name tag date revnum revdate : List Byte)
    (rcsattr : Attrs.Fattr) :
    Confined P (updaterSetattrs env fup name tag date revnum revdate rcsattr) := by
  refine (confined_ask _).bind fun fa => ?_
  cases fa with
  | none => exact confined_statusDelete env name
  | some fileattr =>
    refine (confined_install env _ _ hf.1).bind fun rv => ?_
    cases rv with
    | failed => exact acts_fail _
    | unchanged => exact confined_statusPut env _
    | changed =>
      refine (confined_ask _).bind fun fa => ?_
      cases fa with
      | none => exact confined_statusDelete env name
      | some fileattr => exact confined_statusPut env _

/-- In CVS mode no directories are pruned. -/
theorem confined_updaterDelete (hmode : env.coll.checkoutmode = false) (count : Nat) :
    Confined P (updaterDelete env fup count) := by
  unfold updaterDelete
  rw [hmode]
  exact .ite (.ite (acts_fail _) ((confined_deletefile hf.1).bind fun _ => acts_pure trivial))
    (acts_pure trivial)

theorem confined_closeDiff (temppath : Path) (name tag date wantmd5 : List Byte)
    (serverattr : Attrs.Fattr) (last : Option (Diff.File × DeltaInfo)) :
    Confined P (closeDiff env fup temppath name tag date wantmd5 serverattr last) :=
  (confined_ask _).bind fun _ => (confined_need _ _).bind fun _ => (confined_need _ _).bind fun _ =>
    (confined_create env _).bind fun _ => (confined_writeFile env _ _).bind fun _ =>
    confined_updateFile hf _ _ _ _ _ _

theorem confined_closeRcsedit (temppath : Path) (attic : Bool) (name wantmd5 : List Byte)
    (serverattr : Attrs.Fattr) (rf : Option F) :
    Confined P (closeRcsedit env fup temppath attic name wantmd5 serverattr rf) := by
  cases rf with
  | none =>
    exact (confined_install env _ _ hf.1).bind fun _ => (confined_ask _).bind fun _ =>
      (confined_need _ _).bind fun _ => (confined_statusPut env _).bind fun _ =>
      confined_removeOrig hf
  | some f =>
    exact (confined_create env _).bind fun _ => (confined_must _ _).bind fun _ =>
      (confined_writeFile env _ _).bind fun _ => (confined_updateRcs hf _ _ _ _ _ _ _ _ _).bind
      fun _ => confined_removeOrig hf

end

/-! ## Commands -/

/-- The name in a command, and whether it is of a file in the attic. -/
def fileOf : Command → Option (List Byte × Bool)
  | .setattrs name .. | .dead _ name .. | .diff name .. | .checkout _ name .. | .delete name
  | .rsync name .. | .dirdown name | .rmdown name | .dirup name _ | .rmup name
  | .append name .. => some (name, false)
  | .addfile attic _ name _ | .node attic name _ | .rcsedit attic name .. => some (name, attic)
  | .record .. | .warning _ => none

abbrev ConfinedAt (P : Path → Prop) (m : Session W α) (p : List Byte) (w : W) : Prop :=
  m.ActsAt (Action.Within P) (fun _ => True) p w

theorem confinedAt_map (f : α → β) {m : Session W α} {p : List Byte} {w : W}
    (h : ConfinedAt P m p w) : ConfinedAt P (f <$> m) p w :=
  Prog.actsAt_bind h fun _ _ => Prog.acts_pure trivial

theorem acts_readLines (mark : List Byte → α → List Note)
    (f : List Diff.Line → Except Halt (α × List Diff.Line)) :
    (readLines mark f : Session W α).Acts (Action.Within P) fun _ => True := Prog.acts_read _ _

theorem acts_run {t : Task W α} (h : Confined P t) :
    (run t).Acts (Action.Within P) fun _ => True := fun _ w => Prog.actsAt_work (h w)

theorem acts_getFile {temppath : Path} {orig : List Byte} {size : Int}
    {close : List Byte → List Byte → Task W Unit} (h : ∀ wantmd5 sum, Confined P (close wantmd5 sum)) :
    (getFile env temppath orig size close).Acts (Action.Within P) fun _ => True :=
  Prog.acts_bind (Prog.acts_read _ _) fun _ _ =>
    Prog.acts_bind (acts_run (confined_writeFile env _ _)) fun _ _ =>
    Prog.acts_bind (acts_readLines _ _) fun _ _ => Prog.acts_bind (acts_readLines _ _) fun _ _ =>
    acts_run (h _ _)

theorem confined_openDest (e : Stop) {path : Path} (temppath : Path) (h : P path) :
    Confined P (openDest env e path temppath) :=
  (confined_mkdirhier env e h).bind fun _ => confined_create env _

/-! ### One command -/

section

variable {name : List Byte} {attic : Bool} {w : W} (h : Prepares env P name attic w)

include h

theorem confinedAt_cmdAddfile (isfixup : Bool) (attr p : List Byte) :
    ConfinedAt P (cmdAddfile env attic isfixup name attr) p w := by
  have hopen : (openAddfile env attic name attr).ActsAt (Action.Within P)
      (fun x => x.1.Within P) w :=
    actsAt_prepare_bind h fun _ hf => (confined_tell _).bind fun _ => (confined_decode env _).bind
      fun _ => (confined_openDest _ _ hf.1).bind fun _ => acts_pure hf
  exact Prog.actsAt_bind (Prog.actsAt_work hopen) fun _ hf =>
    acts_getFile fun _ _ => confined_updateRcs hf _ _ _ _ _ _ _ _ _

theorem actsAt_cmdNode (attr : List Byte) :
    (cmdNode env attic name attr).ActsAt (Action.Within P) (fun _ => True) w := by
  refine actsAt_prepare_bind h fun fup hf => (confined_decode env _).bind fun fa =>
    (confined_mkdirhier env _ hf.1).bind fun _ => (confined_ask _).bind fun there => ?_
  have hrest (fa : Attrs.Fattr) (sr : Attrs.Fattr → StatusRec) :
      Confined P (do
        let rv ← install env fa fup.destpath none
        check errMsg (rv ≠ .failed)
        let fileattr ← need errMsg (← frompath env fup.destpath)
        statusPut env (sr fileattr)) :=
    (confined_install env _ _ hf.1).bind fun _ => (confined_check _ _).bind fun _ =>
      (confined_ask _).bind fun _ => (confined_need _ _).bind fun _ => confined_statusPut env _
  refine .ite ?_ (hrest _ _)
  exact (confined_act (show (Action.makenode fa fup.destpath).Within P from hf.1) _).bind
    fun _ => hrest _ _

theorem actsAt_openRcsedit (attr : List Byte) : (openRcsedit env attic name attr).ActsAt
    (Action.Within P) (fun x => x.1.Within P) w := by
  refine actsAt_prepare_bind h fun fup hf => (confined_tell _).bind fun _ =>
    (confined_decode env _).bind fun _ => ?_
  have hrest (k : Attrs.Fattr → Option F → Path × Attrs.Fattr × Option F) :
      (do
        let oldfattr ← need errMsg (← frompath env (fup.origpath.getD fup.destpath))
        let openrcs ← Work.ask fun w => env.api.frompath (env.host.files w)
          (fup.origpath.getD fup.destpath)
        return (fup, k oldfattr openrcs) :
          Task W (Fup × Path × Attrs.Fattr × Option F)).Acts (Action.Within P)
        fun x => x.1.Within P :=
    (confined_ask _).bind fun _ => (confined_need _ _).bind fun _ => (confined_ask _).bind fun _ =>
      acts_pure hf
  exact .ite ((confined_mkdirhier env _ hf.1).bind fun _ => hrest _) (hrest _)

theorem confinedAt_cmdRcsedit (attr wantmd5 p : List Byte) :
    ConfinedAt P (cmdRcsedit env attic name attr wantmd5) p w := by
  refine Prog.actsAt_bind (Prog.actsAt_work (actsAt_openRcsedit h attr)) fun x hf =>
    Prog.acts_bind (acts_readLines _ _) fun e _ => ?_
  cases e with
  | done rf => exact acts_run (confined_closeRcsedit hf _ _ _ _ _ _)
  | invalid =>
    exact Prog.acts_bind (acts_run ((confined_check _ _).bind fun _ => confined_tell _)) fun _ _ =>
      Prog.acts_bind (acts_readLines _ _) fun _ _ => Prog.acts_pure trivial

end

section

variable {name : List Byte} {w : W} (h : Prepares env P name false w)

include h

theorem actsAt_cmdSetattrs (tag date revnum revdate attr : List Byte) :
    (cmdSetattrs env name tag date revnum revdate attr).ActsAt (Action.Within P)
      (fun _ => True) w :=
  actsAt_decode_bind fun _ => actsAt_prepare_bind h fun _ hf =>
    confined_updaterSetattrs hf _ _ _ _ _ _

theorem actsAt_cmdDead (hmode : env.coll.checkoutmode = false) (update : Bool)
    (tag date attr : List Byte) (count : Nat) :
    (cmdDead env update name tag date attr count).ActsAt (Action.Within P) (fun _ => True) w := by
  have hdelete : (deleteDead env update name count).ActsAt (Action.Within P) (fun _ => True) w :=
    actsAt_prepare_bind h fun _ hf => (confined_ask _).bind fun _ =>
      .ite (confined_updaterDelete hf hmode count) (acts_pure trivial)
  exact actsAt_bind hdelete fun _ _ => ((confined_decode env _).bind fun _ =>
    (confined_statusPut env _).bind fun _ => acts_pure trivial) _

theorem actsAt_cmdDelete (hmode : env.coll.checkoutmode = false) (count : Nat) :
    (cmdDelete env name count).ActsAt (Action.Within P) (fun _ => True) w :=
  actsAt_prepare_bind h fun _ hf => (confined_updaterDelete hf hmode count).bind fun _ =>
    (confined_statusDelete env _).bind fun _ => acts_pure trivial

theorem actsAt_cmdDirdown :
    (cmdDirdown env name).ActsAt (Action.Within P) (fun _ => True) w := by
  refine actsAt_prepare_bind h fun fup hf => (confined_mkdirhier env _ hf.1).bind fun _ =>
    (confined_ask _).bind fun _ => ?_
  refine .ite ?_ (confined_statusPut env _)
  exact (confined_act (show (Action.makenode _ fup.destpath).Within P from hf.1) _).bind
    fun _ => (confined_check _ _).bind fun _ => confined_statusPut env _

theorem actsAt_cmdDirup (attr : List Byte) :
    (cmdDirup env name attr).ActsAt (Action.Within P) (fun _ => True) w :=
  actsAt_prepare_bind h fun _ hf => (confined_decode env _).bind fun _ =>
    (confined_install env _ _ hf.1).bind fun _ => (confined_check _ _).bind fun _ =>
    (confined_ask _).bind fun _ => (confined_need _ _).bind fun _ => confined_statusPut env _

theorem actsAt_cmdRmup : (cmdRmup env name).ActsAt (Action.Within P) (fun _ => True) w :=
  actsAt_prepare_bind h fun _ hf => (confined_deletefile hf.1).bind fun _ =>
    confined_statusDelete env _

theorem confinedAt_cmdCheckout (isfixup : Bool) (tag date revnum revdate attr p : List Byte) :
    ConfinedAt P (cmdCheckout env isfixup name tag date revnum revdate attr) p w := by
  have hopen : (do
      let serverattr ← decode env attr
      return (serverattr, ← openCheckout env name revdate) :
        Task W (Attrs.Fattr × BitVec 64 × Fup × Path)).ActsAt (Action.Within P)
      (fun x => x.2.2.1.Within P) w :=
    actsAt_decode_bind fun _ => actsAt_bind (Q := fun x : BitVec 64 × Fup × Path => x.2.1.Within P)
      (actsAt_need_bind fun _ => actsAt_prepare_bind h fun _ hf => (confined_tell _).bind fun _ =>
        (confined_openDest _ _ hf.1).bind fun _ => acts_pure hf)
      fun _ hf => acts_pure (Q := fun x : Attrs.Fattr × BitVec 64 × Fup × Path =>
        x.2.2.1.Within P) hf _
  exact Prog.actsAt_bind (Prog.actsAt_work hopen) fun _ hf =>
    Prog.acts_bind (acts_readLines _ _) fun _ _ =>
    Prog.acts_bind (acts_run (confined_writeFile env _ _)) fun _ _ =>
    Prog.acts_bind (acts_readLines _ _) fun _ _ => acts_run (confined_updateFile hf _ _ _ _ _ _)

theorem confinedAt_cmdAppend (attr pos p : List Byte) :
    ConfinedAt P (cmdAppend env name attr pos) p w := by
  have hopen : (openAppend env name attr).ActsAt (Action.Within P) (fun x => x.1.Within P) w :=
    actsAt_prepare_bind h fun _ hf => (confined_tell _).bind fun _ => (confined_decode env _).bind
      fun _ => (confined_create env _).bind fun _ => (confined_ask _).bind fun _ =>
      (confined_need _ _).bind fun _ => acts_pure hf
  exact Prog.actsAt_bind (Prog.actsAt_work hopen) fun _ hf =>
    acts_getFile fun _ _ => confined_updateRcs hf _ _ _ _ _ _ _ _ _

theorem confinedAt_cmdRsync (attr blocksize wantmd5 p : List Byte) :
    ConfinedAt P (cmdRsync env name attr blocksize wantmd5) p w := by
  have hopen : (openRsync env name attr).ActsAt (Action.Within P) (fun x => x.1.Within P) w :=
    actsAt_prepare_bind h fun _ hf => (confined_tell _).bind fun _ => (confined_decode env _).bind
      fun _ => (confined_create env _).bind fun _ => (confined_ask _).bind fun _ =>
      (confined_need _ _).bind fun _ => acts_pure hf
  exact Prog.actsAt_bind (Prog.actsAt_work hopen) fun _ hf =>
    Prog.acts_bind (acts_readLines _ _) fun _ _ => acts_run ((confined_writeFile env _ _).bind
      fun _ => confined_updateRcs hf _ _ _ _ _ _ _ _ _)

theorem confinedAt_cmdDiff (tag date expand attr wantmd5 p : List Byte) :
    ConfinedAt P (cmdDiff env name tag date expand attr wantmd5) p w := by
  have hopen : (openDiff env name expand attr).ActsAt (Action.Within P)
      (fun x => x.1.Within P) w :=
    actsAt_decode_bind fun _ => actsAt_need_bind fun _ => actsAt_prepare_bind h fun _ hf =>
      (confined_tell _).bind fun _ => (confined_ask _).bind fun _ => acts_pure hf
  exact Prog.actsAt_bind (Prog.actsAt_work hopen) fun _ hf =>
    Prog.acts_bind (acts_readLines _ _) fun _ _ => acts_run (confined_closeDiff hf _ _ _ _ _ _ _)

end

/-- A command in CVS mode acts on the paths of its name. -/
theorem acts_docommand (hmode : env.coll.checkoutmode = false) (count : Nat) (c : Command)
    (p : List Byte) (w : W)
    (h : ∀ name attic, fileOf c = some (name, attic) → Prepares env P name attic w) :
    ∀ a ∈ (docommand env count c p w).log, a.Within P := by
  refine (show ConfinedAt P (docommand env count c) p w from ?_).1
  cases c with
  | setattrs => exact confinedAt_map _ (Prog.actsAt_work (actsAt_cmdSetattrs (h _ _ rfl) _ _ _ _ _))
  | dead => exact Prog.actsAt_work (actsAt_cmdDead (h _ _ rfl) hmode _ _ _ _ _)
  | diff => exact confinedAt_map _ (confinedAt_cmdDiff (h _ _ rfl) _ _ _ _ _ _)
  | checkout => exact confinedAt_map _ (confinedAt_cmdCheckout (h _ _ rfl) _ _ _ _ _ _ _)
  | delete => exact Prog.actsAt_work (actsAt_cmdDelete (h _ _ rfl) hmode _)
  | addfile => exact confinedAt_map _ (confinedAt_cmdAddfile (h _ _ rfl) _ _ _)
  | rsync => exact confinedAt_map _ (confinedAt_cmdRsync (h _ _ rfl) _ _ _ _)
  | dirdown => exact confinedAt_map _ (Prog.actsAt_work (actsAt_cmdDirdown (h _ _ rfl)))
  | rmdown =>
    exact confinedAt_map _ (Prog.actsAt_work (actsAt_prepare_bind (h _ _ rfl) fun _ _ =>
      confined_statusDelete env _))
  | dirup => exact confinedAt_map _ (Prog.actsAt_work (actsAt_cmdDirup (h _ _ rfl) _))
  | rmup => exact confinedAt_map _ (Prog.actsAt_work (actsAt_cmdRmup (h _ _ rfl)))
  | record =>
    exact confinedAt_map _ (Prog.actsAt_work
      (((confined_decode env _).bind fun _ => confined_statusPut env _) w))
  | node => exact confinedAt_map _ (Prog.actsAt_work (actsAt_cmdNode (h _ _ rfl) _))
  | rcsedit => exact confinedAt_map _ (confinedAt_cmdRcsedit (h _ _ rfl) _ _ _)
  | append => exact confinedAt_map _ (confinedAt_cmdAppend (h _ _ rfl) _ _ _)
  | warning => exact Prog.acts_pure trivial _ _

end Csup.Docoll
