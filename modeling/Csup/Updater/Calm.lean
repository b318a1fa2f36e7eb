import Csup.Framework.Keeps
import Csup.Updater.Batch

/-!
# What calls for no fixup

The parts of the updater that do not come to `updater_needfixup`: none of them calls
`fixups_put`, whatever the system does.
-/

namespace Csup.Docoll

open Csup.Attrs (fattrDecode)
open Csup.Framework (Prog Work)
open Csup.Status (StatusRec)
open Csup.Updater

variable {C W F D α β : Type} (env : Env W F D) (coll : C)

abbrev Calm (t : Task (Called C W) α) : Prop := t.Still Called.calls

/-! ## Checks -/

theorem calm_need (e : Stop) (o : Option α) : Calm (need e o : Task (Called C W) α) := by
  cases o with
  | none => exact Work.still_fail e
  | some a => exact Work.still_pure a

theorem calm_check (e : Stop) (b : Bool) : Calm (check e b : Task (Called C W) Unit) :=
  .ite (Work.still_pure ()) (Work.still_fail e)

theorem calm_must (e : Err → Stop) (x : Except Err α) : Calm (must e x : Task (Called C W) α) := by
  cases x with
  | ok a => exact Work.still_pure a
  | error h => exact Work.still_fail _

/-- A call that must succeed. -/
theorem calm_call {t : Task (Called C W) Bool} (ht : Calm t) (e : Stop) :
    Calm (t >>= fun ok => check e ok) := ht.bind fun ok => calm_check e ok

/-! ## The system -/

theorem calm_prepare (e : Stop) (name : List Byte) (attic : Bool) :
    Calm (prepare (env.called coll) e name attic) := .ite (calm_need e _) (Work.still_ask _)

theorem calm_tempname (path : Path) : Calm (tempname (env.called coll) path) :=
  Work.still_tell fun _ => rfl

theorem calm_decode (attr : List Byte) : Calm (decode (env.called coll) attr) := by
  unfold decode
  split
  · exact Work.still_pure _
  · exact Work.still_fail _
  · exact Work.still_fail _

theorem calm_frompath (path : Path) : Calm (frompath (env.called coll) path) := Work.still_ask _

theorem calm_install (fa : Attrs.Fattr) (topath : Path) (frompath : Option Path) :
    Calm (install (env.called coll) fa topath frompath) := Work.still_act _ fun _ => rfl

theorem calm_statusPut (sr : StatusRec) : Calm (statusPut (env.called coll) sr) :=
  calm_call (Work.still_act _ fun _ => rfl) errMsg

theorem calm_statusDelete (name : List Byte) : Calm (statusDelete (env.called coll) name) :=
  calm_call (Work.still_act _ fun _ => rfl) errMsg

theorem calm_deletefile (path : Path) : Calm (deletefile (env.called coll) path) :=
  Work.still_act _ fun _ => rfl

theorem calm_mkdirhier (e : Stop) (path : Path) : Calm (mkdirhier (env.called coll) e path) :=
  calm_call (Work.still_act _ fun _ => rfl) e

theorem calm_writeFile (path : Path) (data : List Byte) :
    Calm (writeFile (env.called coll) path data) := calm_call (Work.still_tell fun _ => rfl) errMsg

theorem calm_create (path : Path) : Calm (create (env.called coll) path) :=
  calm_call (Work.still_tell fun _ => rfl) errMsg

theorem calm_pruneLoop (base : Path) (n : Nat) (file : Path) :
    Calm (pruneLoop (env.called coll) base n file) := by
  induction n generalizing file with
  | zero => exact Work.still_pure ()
  | succ n ih =>
    unfold pruneLoop
    split
    · exact Work.still_pure ()
    · refine .ite (Work.still_pure ()) (.bind (Work.still_act _ fun _ => rfl) fun ok => ?_)
      exact .ite (ih _) (Work.still_pure ())

theorem calm_updaterDelete (fup : Fup) (count : Nat) :
    Calm (updaterDelete (env.called coll) fup count) := by
  refine .ite (.ite (Work.still_fail _) ?_) (Work.still_pure _)
  refine .bind (calm_deletefile env coll _) fun _ => ?_
  exact .ite (.bind (calm_pruneLoop env coll _ _ _) fun _ => Work.still_pure _) (Work.still_pure _)

/-! ## Commands that read nothing -/

theorem calm_recordAttrs (name tag date revnum revdate : List Byte) (rcsattr fileattr : Attrs.Fattr) :
    Calm (recordAttrs (env.called coll) name tag date revnum revdate rcsattr fileattr) :=
  calm_statusPut env coll _

theorem calm_updaterSetattrs (fup : Fup) (name tag date revnum revdate : List Byte)
    (rcsattr : Attrs.Fattr) :
    Calm (updaterSetattrs (env.called coll) fup name tag date revnum revdate rcsattr) := by
  refine .bind (calm_frompath env coll _) fun fa => ?_
  cases fa with
  | none => exact calm_statusDelete env coll name
  | some fileattr =>
    refine .bind (calm_install env coll _ _ _) fun rv => ?_
    cases rv with
    | failed => exact Work.still_fail _
    | unchanged => exact calm_recordAttrs env coll _ _ _ _ _ _ _
    | changed =>
      refine .bind (calm_frompath env coll _) fun fa => ?_
      cases fa with
      | none => exact calm_statusDelete env coll name
      | some fileattr => exact calm_recordAttrs env coll _ _ _ _ _ _ _

theorem calm_cmdSetattrs (name tag date revnum revdate attr : List Byte) :
    Calm (cmdSetattrs (env.called coll) name tag date revnum revdate attr) :=
  .bind (calm_decode env coll _) fun _ => .bind (calm_prepare env coll _ _ _) fun _ =>
    calm_updaterSetattrs env coll _ _ _ _ _ _ _

theorem calm_cmdDead (update : Bool) (name tag date attr : List Byte) (count : Nat) :
    Calm (cmdDead (env.called coll) update name tag date attr count) := by
  have hdelete : Calm (deleteDead (env.called coll) update name count) :=
    .bind (calm_prepare env coll _ _ _) fun _ => .bind (Work.still_ask _) fun _ =>
      .ite (calm_updaterDelete env coll _ _) (Work.still_pure _)
  exact hdelete.bind fun _ => .bind (calm_decode env coll _) fun _ =>
    .bind (calm_statusPut env coll _) fun _ => Work.still_pure _

theorem calm_cmdDelete (name : List Byte) (count : Nat) :
    Calm (cmdDelete (env.called coll) name count) :=
  .bind (calm_prepare env coll _ _ _) fun _ => .bind (calm_updaterDelete env coll _ _) fun _ =>
    .bind (calm_statusDelete env coll _) fun _ => Work.still_pure _

theorem calm_cmdDirdown (name : List Byte) : Calm (cmdDirdown (env.called coll) name) := by
  refine .bind (calm_prepare env coll _ _ _) fun fup => .bind (calm_mkdirhier env coll _ _) fun _ =>
    .bind (Work.still_ask _) fun there => ?_
  refine .ite ?_ (calm_statusPut env coll _)
  exact .bind (Work.still_act _ fun _ => rfl) fun ok => .bind (calm_check _ ok) fun _ =>
    calm_statusPut env coll _

theorem calm_cmdRmdown (name : List Byte) : Calm (cmdRmdown (env.called coll) name) :=
  .bind (calm_prepare env coll _ _ _) fun _ => calm_statusDelete env coll name

theorem calm_cmdDirup (name attr : List Byte) : Calm (cmdDirup (env.called coll) name attr) :=
  .bind (calm_prepare env coll _ _ _) fun _ => .bind (calm_decode env coll _) fun _ =>
    .bind (calm_install env coll _ _ _) fun _ => .bind (calm_check _ _) fun _ =>
    .bind (calm_frompath env coll _) fun _ => .bind (calm_need _ _) fun _ =>
    calm_statusPut env coll _

theorem calm_cmdRmup (name : List Byte) : Calm (cmdRmup (env.called coll) name) :=
  .bind (calm_prepare env coll _ _ _) fun _ => .bind (calm_deletefile env coll _) fun _ =>
    calm_statusDelete env coll name

theorem calm_cmdRecord (attic : Bool) (name attr : List Byte) :
    Calm (cmdRecord (env.called coll) attic name attr) :=
  .bind (calm_decode env coll _) fun _ => calm_statusPut env coll _

theorem calm_cmdNode (attic : Bool) (name attr : List Byte) :
    Calm (cmdNode (env.called coll) attic name attr) := by
  refine .bind (calm_prepare env coll _ _ _) fun fup => .bind (calm_decode env coll _) fun fa =>
    .bind (calm_mkdirhier env coll _ _) fun _ => .bind (Work.still_ask _) fun there => ?_
  have hrest (fa : Attrs.Fattr) (sr : Attrs.Fattr → StatusRec) :
      Calm (do
        let rv ← install (env.called coll) fa fup.destpath none
        check errMsg (rv ≠ .failed)
        let fileattr ← need errMsg (← frompath (env.called coll) fup.destpath)
        statusPut (env.called coll) (sr fileattr)) :=
    .bind (calm_install env coll _ _ _) fun _ => .bind (calm_check _ _) fun _ =>
      .bind (calm_frompath env coll _) fun _ => .bind (calm_need _ _) fun _ =>
      calm_statusPut env coll _
  refine .ite ?_ (hrest _ _)
  exact .bind (Work.still_act _ fun _ => rfl) fun _ => hrest _ _

/-! ## The beginnings of the others -/

theorem calm_openDest (e : Stop) (path temppath : Path) :
    Calm (openDest (env.called coll) e path temppath) :=
  .bind (calm_mkdirhier env coll e path) fun _ => calm_create env coll temppath

theorem calm_openCheckout (name revdate : List Byte) :
    Calm (openCheckout (env.called coll) name revdate) :=
  .bind (calm_need _ _) fun _ => .bind (calm_prepare env coll _ _ _) fun _ =>
    .bind (calm_tempname env coll _) fun _ => .bind (calm_openDest env coll _ _ _) fun _ =>
    Work.still_pure _

theorem calm_openAddfile (attic : Bool) (name attr : List Byte) :
    Calm (openAddfile (env.called coll) attic name attr) :=
  .bind (calm_prepare env coll _ _ _) fun _ => .bind (calm_tempname env coll _) fun _ =>
    .bind (calm_decode env coll _) fun _ => .bind (calm_openDest env coll _ _ _) fun _ =>
    Work.still_pure _

theorem calm_openAppend (name attr : List Byte) : Calm (openAppend (env.called coll) name attr) :=
  .bind (calm_prepare env coll _ _ _) fun _ => .bind (calm_tempname env coll _) fun _ =>
    .bind (calm_decode env coll _) fun _ => .bind (calm_create env coll _) fun _ =>
    .bind (Work.still_ask _) fun _ => .bind (calm_need _ _) fun _ => Work.still_pure _

theorem calm_openRsync (name attr : List Byte) : Calm (openRsync (env.called coll) name attr) :=
  .bind (calm_prepare env coll _ _ _) fun _ => .bind (calm_tempname env coll _) fun _ =>
    .bind (calm_decode env coll _) fun _ => .bind (calm_create env coll _) fun _ =>
    .bind (Work.still_ask _) fun _ => .bind (calm_need _ _) fun _ => Work.still_pure _

theorem calm_openDiff (name expand attr : List Byte) :
    Calm (openDiff (env.called coll) name expand attr) :=
  .bind (calm_decode env coll _) fun _ => .bind (calm_need _ _) fun _ =>
    .bind (calm_prepare env coll _ _ _) fun _ => .bind (calm_tempname env coll _) fun _ =>
    .bind (Work.still_ask _) fun _ => Work.still_pure _

theorem calm_openRcsedit (attic : Bool) (name attr : List Byte) :
    Calm (openRcsedit (env.called coll) attic name attr) := by
  refine .bind (calm_prepare env coll _ _ _) fun fup => .bind (calm_tempname env coll _) fun _ =>
    .bind (calm_decode env coll _) fun _ => ?_
  have hrest (k : Attrs.Fattr → Option F → Fup × Path × Attrs.Fattr × Option F) :
      Calm (do
        let oldfattr ← need errMsg (← frompath (env.called coll) (fup.origpath.getD fup.destpath))
        let openrcs ← Work.ask fun w => (env.called coll).api.frompath ((env.called coll).host.files w)
          (fup.origpath.getD fup.destpath)
        return k oldfattr openrcs) :=
    .bind (calm_frompath env coll _) fun _ => .bind (calm_need _ _) fun _ =>
      .bind (Work.still_ask _) fun _ => Work.still_pure _
  exact .ite (.bind (calm_mkdirhier env coll _ _) fun _ => hrest _) (hrest _)

theorem calm_removeOrig (fup : Fup) : Calm (removeOrig (env.called coll) fup) := by
  unfold removeOrig
  split
  · exact Work.still_pure ()
  · exact calm_deletefile env coll _

end Csup.Docoll
