import Csup.Updater.Calm

/-!
# When a command calls for a fixup

`Fits` says of a command of the server, what is behind it on the stream, and the
world, that the file which it makes has the checksum that it names, or that it is the
answer to a fixup; an RCS file that has to be edited can be parsed. It is so just when
the command does not call `fixups_put` (`keeps_docommand`).
-/

namespace Csup.Docoll

open Csup.Attrs (fattrDecode)
open Csup.Diff (Line)
open Csup.Framework (Prog Work onLines)
open Csup.Status (StatusRec)
open Csup.Updater

variable {C W F D α β : Type}

/-! ## What fits -/

/-- The bytes can be written to `temppath`, and then `path` can be looked at. -/
structure Makes (env : Env W F D) (temppath : Path) (data : List Byte) (path : Path) (w : W) :
    Prop where
  written : (env.host.write temppath data w).1 = true
  found : (env.host.frompath path (env.host.write temppath data w).2).isSome

/-- The file that is sent behind `orig` has the checksum that is sent with it. -/
def FileFits (env : Env W F D) (temppath path : Path) (orig : List Byte) (size : Int)
    (p : List Byte) (w : W) : Prop :=
  ∀ data p₁ u p₂ wantmd5 p₃, readBytes size p = .ok (data, p₁) →
    Makes env temppath (orig ++ data) path w → onLines nl readMarker p₁ = .ok (u, p₂) →
    onLines nl (readChecksum (.err .proto)) p₂ = .ok (wantmd5, p₃) → wantmd5 = env.md5 (orig ++ data)

/-- The text that is checked out has the checksum that is sent with it. -/
def CheckoutFits (env : Env W F D) (name revdate attr : List Byte) (p : List Byte) (w : W) : Prop :=
  ∀ fa t fup temppath text p₁ wantmd5 p₂, fattrDecode env.fflags env.ids attr = .ok fa →
    (openCheckout env name revdate w).val = .ok (t, fup, temppath) →
    onLines nl readCheckout p = .ok (text, p₁) →
    (env.host.write temppath text (openCheckout env name revdate w).world).1 = true →
    onLines nl (readChecksum (.err .read)) p₁ = .ok (wantmd5, p₂) → wantmd5 = env.md5 text

/-- The file that the blocks make has the checksum that the command names. -/
def RsyncFits (env : Env W F D) (name attr blocksize wantmd5 : List Byte) (p : List Byte) (w : W) :
    Prop :=
  ∀ fup temppath fa orig text b p₁,
    (openRsync env name attr w).val = .ok (fup, temppath, fa, orig) →
    onLines nl (readRsync orig (strtol blocksize).1) p = .ok ((text, b), p₁) →
    Makes env temppath text fup.destpath (openRsync env name attr w).world →
    wantmd5 = env.md5 text

/-- The file that the deltas make has the checksum that the command names. -/
def DiffFits (env : Env W F D) (name tag expand attr wantmd5 : List Byte) (p : List Byte) (w : W) :
    Prop :=
  ∀ fup temppath fa exp file dest delta p₁,
    (openDiff env name expand attr w).val = .ok (fup, temppath, fa, exp, file) →
    onLines nl (readDeltas ⟨env.coll.keyword, env.coll.cvsroot, name, some tag, exp⟩ file) p =
      .ok (some (dest, delta), p₁) →
    let w := (openDiff env name expand attr w).world
    (env.host.frompathFollow fup.destpath w).isSome → (env.host.create temppath w).1 = true →
    (env.host.write temppath dest.data (env.host.create temppath w).2).1 = true →
    wantmd5 = env.md5 dest.data

/-- The RCS file can be parsed, and when it is edited it has the checksum that the command names. -/
def EditFits (env : Env W F D) (fup : Fup) (temppath : Path) (wantmd5 : List Byte) (w : W) :
    EditEnd F → Prop
  | .invalid => env.coll.exactrcs = false
  | .done rf => ∀ f, rf = some f → ∀ data, orErr .msg (env.api.write f) = .ok data →
    (env.host.create temppath w).1 = true →
    Makes env temppath data (fup.origpath.getD fup.destpath) (env.host.create temppath w).2 →
    wantmd5 = env.md5rcs data

def RcseditFits (env : Env W F D) (attic : Bool) (name attr wantmd5 : List Byte) (p : List Byte)
    (w : W) : Prop :=
  ∀ fup temppath fa openrcs e p₁,
    (openRcsedit env attic name attr w).val = .ok (fup, temppath, fa, openrcs) →
    onLines nl (fun rd => (readEdits env.api openrcs rd).mapError Halt.err) p = .ok (e, p₁) →
    EditFits env fup temppath wantmd5 (openRcsedit env attic name attr w).world e

def Fits (env : Env W F D) (p : List Byte) (w : W) : Command → Prop
  | .diff name tag _ expand attr wantmd5 => DiffFits env name tag expand attr wantmd5 p w
  | .checkout isfixup name _ _ _ revdate attr =>
    isfixup = true ∨ CheckoutFits env name revdate attr p w
  | .addfile attic isfixup name attr =>
    isfixup = true ∨ ∀ fup temppath fa,
      (openAddfile env attic name attr w).val = .ok (fup, temppath, fa) →
      FileFits env temppath temppath [] fa.size.toInt p (openAddfile env attic name attr w).world
  | .rsync name attr blocksize wantmd5 => RsyncFits env name attr blocksize wantmd5 p w
  | .rcsedit attic name attr _ wantmd5 => RcseditFits env attic name attr wantmd5 p w
  | .append name attr pos =>
    ∀ fup temppath fa orig, (openAppend env name attr w).val = .ok (fup, temppath, fa, orig) →
      FileFits env temppath fup.destpath orig (fa.size.toInt - (strtol pos).1) p
        (openAppend env name attr w).world
  | _ => True

/-! ## The parts -/

section

variable (env : Env W F D) (coll : C)

/-- A part of the updater that calls for nothing, here and now. -/
abbrev Keeps (m : Session (Called C W) α) (p : List Byte) (w : Called C W) : Prop :=
  Prog.Keeps Called.calls m p w

theorem keeps_run (t : Task (Called C W) α) (p : List Byte) (w : Called C W) :
    Keeps (run t) p w ↔ t.Keeps Called.calls w := Iff.rfl

theorem keeps_run_bind {t : Task (Called C W) α} (ht : Calm t) {k : α → Session (Called C W) β}
    (p : List Byte) (w : Called C W) :
    Keeps (run t >>= k) p w ↔ ∀ a, (t w).val = .ok a → Keeps (k a) p (t w).world :=
  Prog.keeps_work_bind ht p w

theorem keeps_readLines_bind {mark : List Byte → α → List Note}
    {f : List Line → Except Halt (α × List Line)} {k : α → Session (Called C W) β}
    (p : List Byte) (w : Called C W) :
    Keeps (readLines mark f >>= k) p w ↔
      ∀ a rest, onLines nl f p = .ok (a, rest) → Keeps (k a) rest w := by
  refine (Prog.keeps_read_bind p w).trans ?_
  refine forall₂_congr fun a rest => ?_
  cases onLines nl f p <;> simp [Except.mapError]

theorem keeps_readBytes_bind {size : Int} {k : List Byte → Session (Called C W) β}
    (p : List Byte) (w : Called C W) :
    Keeps (Prog.read (fun _ _ => []) (fun p => (readBytes size p).mapError fun h => some (.halt h))
      >>= k) p w ↔ ∀ data rest, readBytes size p = .ok (data, rest) → Keeps (k data) rest w := by
  refine (Prog.keeps_read_bind p w).trans ?_
  refine forall₂_congr fun a rest => ?_
  cases readBytes size p <;> simp [Except.mapError]

theorem keeps_map (f : α → β) (m : Session (Called C W) α) (p : List Byte) (w : Called C W) :
    Keeps (f <$> m) p w ↔ Keeps m p w := Prog.keeps_bind_left (fun _ => Prog.still_pure _) p w

/-- `updater_needfixup` calls for a fixup unless the file is the answer to one. -/
theorem calls_needfixupFile (name temppath : List Byte) (isfixup : Bool) (w : Called C W) :
    (needfixupFile (env.called coll) name temppath isfixup w).world.calls =
      w.calls ++ if isfixup then [] else [.put ⟨coll, name⟩] := by
  have hkeep (w' : Called C W) : (if env.coll.keepbadfiles then w' else
      (env.called coll).host.delete temppath w').calls = w'.calls := by
    split <;> rfl
  show (if env.coll.keepbadfiles then _ else _ : Called C W).calls = _
  rw [hkeep]
  cases isfixup with
  | true => exact (List.append_nil _).symm
  | false => rfl

theorem keeps_needfixupFile (name temppath : List Byte) (isfixup : Bool) (w : Called C W) :
    Work.Keeps Called.calls (needfixupFile (env.called coll) name temppath isfixup) w ↔
      isfixup = true := by
  unfold Work.Keeps
  rw [calls_needfixupFile, List.append_right_eq_self]
  cases isfixup <;> simp

theorem keeps_updateFile (fup : Fup) (temppath : Path) (isfixup : Bool) (wantmd5 sum : List Byte)
    (sr : StatusRec) (clientattr : Attrs.Fattr) (w : Called C W) :
    Work.Keeps Called.calls
      (updateFile (env.called coll) fup temppath isfixup wantmd5 sum sr clientattr) w ↔
      isfixup = true ∨ wantmd5 = sum := by
  unfold updateFile
  by_cases h : wantmd5 = sum
  · rw [if_neg (not_not.mpr h)]
    refine iff_of_true (Work.Still.bind (calm_install env coll _ _ _) (fun _ => ?_) w) (.inr h)
    exact .bind (calm_check _ _) fun _ => .bind (calm_frompath env coll _) fun _ =>
      .bind (calm_need _ _) fun _ => calm_statusPut env coll _
  · rw [if_pos h, keeps_needfixupFile]
    simp [h]

theorem keeps_need_bind {e : Stop} {o : Option α} {k : α → Task (Called C W) β} (w : Called C W) :
    Work.Keeps Called.calls (need e o >>= k) w ↔ ∀ a, o = some a → Work.Keeps Called.calls (k a) w := by
  rw [Work.keeps_bind (calm_need e o w)]
  cases o <;> simp [need, Work.fail, Work.pure]

theorem keeps_must_bind {e : Err → Stop} {x : Except Err α} {k : α → Task (Called C W) β}
    (w : Called C W) : Work.Keeps Called.calls (must e x >>= k) w ↔
      ∀ a, x = .ok a → Work.Keeps Called.calls (k a) w := by
  rw [Work.keeps_bind (calm_must e x w)]
  cases x <;> simp [must, Work.fail, Work.pure]

theorem keeps_ask_bind {g : Called C W → α} {k : α → Task (Called C W) β} (w : Called C W) :
    Work.Keeps Called.calls (Work.ask g >>= k) w ↔ Work.Keeps Called.calls (k (g w)) w := by
  rw [Work.keeps_bind (Work.still_ask g w)]
  exact ⟨fun h => h _ rfl, fun h a ha => Except.ok.inj ha ▸ h⟩

/-- A call that must succeed. -/
theorem tell_check (g : Called C W → Bool × Called C W) (e : Stop) (w : Called C W) :
    ((Work.tell g >>= fun ok => check e ok) w : Framework.Done Stop _ Action Unit) =
      ⟨if (g w).1 then .ok () else .error e, (g w).2, []⟩ := by
  show Work.bind (Work.tell g) (fun ok => check e ok) w = _
  cases h : (g w).1 <;> simp [Work.bind, Work.tell, check, h, Work.fail, Work.pure]

theorem forall_tell_check {g : Called C W → Bool × Called C W} {e : Stop} {w : Called C W}
    {P : Unit → Called C W → Prop} :
    (∀ a, ((Work.tell g >>= fun ok => check e ok) w : Framework.Done Stop _ Action Unit).val = .ok a →
      P a ((Work.tell g >>= fun ok => check e ok) w : Framework.Done Stop _ Action Unit).world) ↔
      ((g w).1 = true → P () (g w).2) := by
  rw [tell_check]
  cases (g w).1 with
  | false => simp
  | true => exact ⟨fun h _ => h () rfl, fun h _ _ => h rfl⟩

theorem keeps_writeFile_bind {path : Path} {data : List Byte} {k : Unit → Task (Called C W) β}
    (w : Called C W) : Work.Keeps Called.calls (writeFile (env.called coll) path data >>= k) w ↔
      (((env.called coll).host.write path data w).1 = true →
        Work.Keeps Called.calls (k ()) ((env.called coll).host.write path data w).2) :=
  (Work.keeps_bind (calm_writeFile env coll path data w)).trans forall_tell_check

theorem keeps_run_writeFile_bind {path : Path} {data : List Byte}
    {k : Unit → Session (Called C W) β} (p : List Byte) (w : Called C W) :
    Keeps (run (writeFile (env.called coll) path data) >>= k) p w ↔
      (((env.called coll).host.write path data w).1 = true →
        Keeps (k ()) p ((env.called coll).host.write path data w).2) :=
  (keeps_run_bind (calm_writeFile env coll path data) p w).trans
    (forall_tell_check (P := fun a w => Keeps (k a) p w))

theorem keeps_create_bind {path : Path} {k : Unit → Task (Called C W) β} (w : Called C W) :
    Work.Keeps Called.calls (create (env.called coll) path >>= k) w ↔
      (((env.called coll).host.create path w).1 = true →
        Work.Keeps Called.calls (k ()) ((env.called coll).host.create path w).2) :=
  (Work.keeps_bind (calm_create env coll path w)).trans forall_tell_check

theorem keeps_updateRcs (fup : Fup) (temppath path : Path) (attic isfixup : Bool) (e : Stop)
    (name wantmd5 sum : List Byte) (serverattr : Attrs.Fattr) (w : Called C W) :
    Work.Keeps Called.calls (updateRcs (env.called coll) fup temppath path attic isfixup e name
        wantmd5 sum serverattr) w ↔
      (((env.called coll).host.frompath path w).isSome → isfixup = true ∨ wantmd5 = sum) := by
  unfold updateRcs frompath
  simp only [keeps_ask_bind, keeps_need_bind, keeps_updateFile, Option.isSome_iff_exists,
    forall_exists_index]

/-! ## The commands -/

theorem keeps_getFile {temppath : Path} {orig : List Byte} {size : Int}
    {close : List Byte → List Byte → Task (Called C W) Unit} (p : List Byte) (w : Called C W) :
    Keeps (getFile (env.called coll) temppath orig size close) p w ↔
      ∀ data p₁, readBytes size p = .ok (data, p₁) →
        ((env.called coll).host.write temppath (orig ++ data) w).1 = true →
        ∀ u p₂, onLines nl readMarker p₁ = .ok (u, p₂) →
        ∀ wantmd5 p₃, onLines nl (readChecksum (.err .proto)) p₂ = .ok (wantmd5, p₃) →
        Work.Keeps Called.calls (close wantmd5 (env.md5 (orig ++ data)))
          ((env.called coll).host.write temppath (orig ++ data) w).2 := by
  unfold getFile getChecksum
  simp only [keeps_readBytes_bind, keeps_run_writeFile_bind, keeps_readLines_bind]
  rfl

/-- A file that is sent as it is. -/
theorem keeps_getFile_updateRcs (fup : Fup) (temppath path : Path) (orig : List Byte) (size : Int)
    (attic isfixup : Bool) (name : List Byte) (fa : Attrs.Fattr) (p : List Byte) (w : Called C W) :
    Keeps (getFile (env.called coll) temppath orig size fun wantmd5 sum =>
        updateRcs (env.called coll) fup temppath path attic isfixup errProto name wantmd5 sum fa) p w ↔
      isfixup = true ∨ FileFits (env.called coll) temppath path orig size p w := by
  simp only [keeps_getFile, keeps_updateRcs]
  cases isfixup with
  | true => simp
  | false =>
    simp only [Bool.false_eq_true, false_or]
    constructor
    · intro h data p₁ u p₂ wantmd5 p₃ hd hm hu hs
      exact h data p₁ hd hm.written u p₂ hu wantmd5 p₃ hs hm.found
    · intro h data p₁ hd hw u p₂ hu wantmd5 p₃ hs hf
      exact h data p₁ u p₂ wantmd5 p₃ hd ⟨hw, hf⟩ hu hs

theorem keeps_cmdAddfile (attic isfixup : Bool) (name attr : List Byte) (p : List Byte)
    (w : Called C W) : Keeps (cmdAddfile (env.called coll) attic isfixup name attr) p w ↔
      Fits (env.called coll) p w (.addfile attic isfixup name attr) := by
  unfold cmdAddfile
  simp only [keeps_run_bind (calm_openAddfile env coll attic name attr), Prod.forall,
    keeps_getFile_updateRcs]
  cases isfixup <;> simp [Fits]

theorem keeps_cmdAppend (name attr pos : List Byte) (p : List Byte) (w : Called C W) :
    Keeps (cmdAppend (env.called coll) name attr pos) p w ↔
      Fits (env.called coll) p w (.append name attr pos) := by
  unfold cmdAppend
  simp only [keeps_run_bind (calm_openAppend env coll name attr), Prod.forall,
    keeps_getFile_updateRcs]
  simp [Fits]

theorem keeps_cmdRsync (name attr blocksize wantmd5 : List Byte) (p : List Byte) (w : Called C W) :
    Keeps (cmdRsync (env.called coll) name attr blocksize wantmd5) p w ↔
      RsyncFits (env.called coll) name attr blocksize wantmd5 p w := by
  unfold cmdRsync
  simp only [keeps_run_bind (calm_openRsync env coll name attr), Prod.forall, keeps_readLines_bind,
    keeps_run, keeps_writeFile_bind, keeps_updateRcs, Bool.false_eq_true, false_or]
  constructor
  · intro h fup temppath fa orig text b p₁ ho hr hm
    exact h fup temppath fa orig ho text b p₁ hr hm.written hm.found
  · intro h fup temppath fa orig ho text b p₁ hr hw hf
    exact h fup temppath fa orig text b p₁ ho hr ⟨hw, hf⟩

omit coll in
/-- The attributes, and then what does not need them. -/
theorem forall_decode {attr : List Byte} {t : Task W β} {w : W} {P : Attrs.Fattr → β → W → Prop} :
    (∀ fa b, ((do let fa ← decode env attr; return (fa, ← t)) w :
        Framework.Done Stop W Action (Attrs.Fattr × β)).val = .ok (fa, b) →
      P fa b ((do let fa ← decode env attr; return (fa, ← t)) w :
        Framework.Done Stop W Action (Attrs.Fattr × β)).world) ↔
      ∀ fa b, fattrDecode env.fflags env.ids attr = .ok fa → (t w).val = .ok b → P fa b (t w).world := by
  show (∀ fa b, (Work.bind (decode env attr) (fun fa => Work.bind t fun b => Work.pure (fa, b)) w).val =
    .ok (fa, b) → P fa b (Work.bind (decode env attr) (fun fa => Work.bind t fun b =>
      Work.pure (fa, b)) w).world) ↔ _
  cases hd : fattrDecode env.fflags env.ids attr with
  | error e => cases e <;> simp [decode, hd, Work.bind, Work.fail]
  | ok fa => cases ht : (t w).val <;> simp [decode, hd, ht, Work.bind, Work.pure]

theorem keeps_cmdCheckout (isfixup : Bool) (name tag date revnum revdate attr : List Byte)
    (p : List Byte) (w : Called C W) :
    Keeps (cmdCheckout (env.called coll) isfixup name tag date revnum revdate attr) p w ↔
      isfixup = true ∨ CheckoutFits (env.called coll) name revdate attr p w := by
  unfold cmdCheckout getChecksum
  have ho : Calm (do
      let serverattr ← decode (env.called coll) attr
      return (serverattr, ← openCheckout (env.called coll) name revdate)) :=
    .bind (calm_decode env coll attr) fun _ => .bind (calm_openCheckout env coll name revdate) fun _ =>
      Work.still_pure _
  rw [keeps_run_bind ho, Prod.forall, forall_decode]
  simp only [Prod.forall, keeps_readLines_bind, keeps_run_writeFile_bind, keeps_run, keeps_updateFile]
  cases isfixup with
  | true => simp
  | false =>
    simp only [Bool.false_eq_true, false_or]
    constructor
    · intro h fa t fup temppath text p₁ wantmd5 p₂ hd ho hr hw hs
      exact h fa t fup temppath hd ho text p₁ hr hw wantmd5 p₂ hs
    · intro h fa t fup temppath hd ho text p₁ hr hw wantmd5 p₂ hs
      exact h fa t fup temppath text p₁ wantmd5 p₂ hd ho hr hw hs

theorem keeps_closeDiff (fup : Fup) (temppath : Path) (name tag date wantmd5 : List Byte)
    (fa : Attrs.Fattr) (last : Option (Diff.File × DeltaInfo)) (w : Called C W) :
    Work.Keeps Called.calls
        (closeDiff (env.called coll) fup temppath name tag date wantmd5 fa last) w ↔
      (((env.called coll).host.frompathFollow fup.destpath w).isSome → ∀ dest delta,
        last = some (dest, delta) → ((env.called coll).host.create temppath w).1 = true →
        ((env.called coll).host.write temppath dest.data
          ((env.called coll).host.create temppath w).2).1 = true → wantmd5 = env.md5 dest.data) := by
  unfold closeDiff
  simp only [keeps_ask_bind, keeps_need_bind, Prod.forall, keeps_create_bind, keeps_writeFile_bind,
    keeps_updateFile, Bool.false_eq_true, false_or, Option.isSome_iff_exists, forall_exists_index]
  rfl

theorem keeps_cmdDiff (name tag date expand attr wantmd5 : List Byte) (p : List Byte)
    (w : Called C W) : Keeps (cmdDiff (env.called coll) name tag date expand attr wantmd5) p w ↔
      DiffFits (env.called coll) name tag expand attr wantmd5 p w := by
  unfold cmdDiff
  simp only [keeps_run_bind (calm_openDiff env coll name expand attr), Prod.forall,
    keeps_readLines_bind, keeps_run, keeps_closeDiff]
  constructor
  · intro h fup temppath fa exp file dest delta p₁ ho hr
    exact fun hf => h fup temppath fa exp file ho _ p₁ hr hf dest delta rfl
  · intro h fup temppath fa exp file ho last p₁ hr hf dest delta hl
    subst hl
    exact h fup temppath fa exp file dest delta p₁ ho hr hf

theorem calm_closeRcsedit (fup : Fup) (temppath : Path) (attic : Bool) (name wantmd5 : List Byte)
    (fa : Attrs.Fattr) :
    Calm (closeRcsedit (env.called coll) fup temppath attic name wantmd5 fa none) :=
  .bind (calm_install env coll _ _ _) fun _ => .bind (calm_frompath env coll _) fun _ =>
    .bind (calm_need _ _) fun _ => .bind (calm_statusPut env coll _) fun _ =>
    calm_removeOrig env coll fup

theorem keeps_closeRcsedit (fup : Fup) (temppath : Path) (attic : Bool) (name wantmd5 : List Byte)
    (fa : Attrs.Fattr) (rf : Option F) (w : Called C W) :
    Work.Keeps Called.calls
        (closeRcsedit (env.called coll) fup temppath attic name wantmd5 fa rf) w ↔
      EditFits (env.called coll) fup temppath wantmd5 w (.done rf) := by
  cases rf with
  | none =>
    exact iff_of_true (calm_closeRcsedit env coll fup temppath attic name wantmd5 fa w) nofun
  | some f =>
    unfold closeRcsedit
    have hend (_ : Unit) : Calm (removeOrig (env.called coll) fup) := calm_removeOrig env coll fup
    simp only [keeps_create_bind, keeps_must_bind, keeps_writeFile_bind, Work.keeps_bind_left hend,
      keeps_updateRcs, Bool.false_eq_true, false_or]
    constructor
    · rintro h f' hf data hd hc hm
      obtain rfl := Option.some.inj hf
      exact h hc data hd hm.written hm.found
    · intro h hc data hd hw hf
      exact h f rfl data hd hc ⟨hw, hf⟩

/-- An RCS file that cannot be parsed. -/
theorem keeps_invalid (name temppath : List Byte) (w : Called C W) :
    Work.Keeps Called.calls (do
        check errMsg env.coll.exactrcs
        needfixupFile (env.called coll) name temppath false) w ↔ env.coll.exactrcs = false := by
  rw [Work.keeps_bind (calm_check errMsg _ w)]
  simp only [keeps_needfixupFile]
  cases env.coll.exactrcs <;> simp [check, Work.fail, Work.pure]

theorem keeps_cmdRcsedit (attic : Bool) (name attr wantmd5 : List Byte) (p : List Byte)
    (w : Called C W) : Keeps (cmdRcsedit (env.called coll) attic name attr wantmd5) p w ↔
      RcseditFits (env.called coll) attic name attr wantmd5 p w := by
  have hskip (_ : Unit) : Prog.Still Called.calls (do
      let _ ← readLines (fun _ _ => []) readSkipped
      return () : Session (Called C W) Unit) :=
    fun p w => (keeps_readLines_bind p w).mpr fun _ _ _ => Prog.still_pure _ _ _
  unfold cmdRcsedit
  simp only [keeps_run_bind (calm_openRcsedit env coll attic name attr), Prod.forall,
    keeps_readLines_bind]
  constructor
  · intro h fup temppath fa openrcs e p₁ ho hr
    have he := h fup temppath fa openrcs ho e p₁ hr
    cases e with
    | done rf => exact (keeps_closeRcsedit env coll fup temppath attic name wantmd5 fa rf _).mp he
    | invalid =>
      exact (keeps_invalid env coll name temppath _).mp ((Prog.keeps_bind_left hskip _ _).mp he)
  · intro h fup temppath fa openrcs ho e p₁ hr
    have he := h fup temppath fa openrcs e p₁ ho hr
    cases e with
    | done rf => exact (keeps_closeRcsedit env coll fup temppath attic name wantmd5 fa rf _).mpr he
    | invalid =>
      exact (Prog.keeps_bind_left hskip _ _).mpr ((keeps_invalid env coll name temppath _).mpr he)

/-! ## The loop -/

/-- A command calls for a fixup just when what it makes does not fit. -/
theorem keeps_docommand (count : Nat) (c : Command) (p : List Byte) (w : Called C W) :
    Keeps (docommand (env.called coll) count c) p w ↔ Fits (env.called coll) p w c := by
  cases c with
  | setattrs => exact iff_of_true ((keeps_map _ _ p w).mpr (calm_cmdSetattrs env coll _ _ _ _ _ _ w)) trivial
  | dead => exact iff_of_true (calm_cmdDead env coll _ _ _ _ _ _ w) trivial
  | diff name tag date expand attr wantmd5 =>
    exact (keeps_map _ _ p w).trans (keeps_cmdDiff env coll name tag date expand attr wantmd5 p w)
  | checkout isfixup name tag date revnum revdate attr =>
    exact (keeps_map _ _ p w).trans
      (keeps_cmdCheckout env coll isfixup name tag date revnum revdate attr p w)
  | delete => exact iff_of_true (calm_cmdDelete env coll _ _ w) trivial
  | addfile attic isfixup name attr =>
    exact (keeps_map _ _ p w).trans (keeps_cmdAddfile env coll attic isfixup name attr p w)
  | rsync name attr blocksize wantmd5 =>
    exact (keeps_map _ _ p w).trans (keeps_cmdRsync env coll name attr blocksize wantmd5 p w)
  | dirdown => exact iff_of_true ((keeps_map _ _ p w).mpr (calm_cmdDirdown env coll _ w)) trivial
  | rmdown => exact iff_of_true ((keeps_map _ _ p w).mpr (calm_cmdRmdown env coll _ w)) trivial
  | dirup => exact iff_of_true ((keeps_map _ _ p w).mpr (calm_cmdDirup env coll _ _ w)) trivial
  | rmup => exact iff_of_true ((keeps_map _ _ p w).mpr (calm_cmdRmup env coll _ w)) trivial
  | record => exact iff_of_true ((keeps_map _ _ p w).mpr (calm_cmdRecord env coll _ _ _ w)) trivial
  | node => exact iff_of_true ((keeps_map _ _ p w).mpr (calm_cmdNode env coll _ _ _ w)) trivial
  | rcsedit attic name attr _ wantmd5 =>
    exact (keeps_map _ _ p w).trans (keeps_cmdRcsedit env coll attic name attr wantmd5 p w)
  | append name attr pos =>
    exact (keeps_map _ _ p w).trans (keeps_cmdAppend env coll name attr pos p w)
  | warning => exact iff_of_true rfl trivial

/-- A round of the loop, with the command that it reads. -/
theorem keeps_docollStep (count : Nat) (p : List Byte) (w : Called C W) :
    Keeps (docollStep (env.called coll) count) p w ↔
      ∀ c rest, onLines nl readCommand p = .ok (some c, rest) → Fits (env.called coll) rest w c := by
  refine (keeps_readLines_bind p w).trans ?_
  constructor
  · intro h c rest hr
    exact (keeps_docommand env coll count c rest w).mp ((keeps_map _ _ rest w).mp (h _ rest hr))
  · intro h line rest hr
    cases line with
    | none => exact Prog.still_pure _ _ _
    | some c =>
      exact (keeps_map _ _ rest w).mpr ((keeps_docommand env coll count c rest w).mpr (h c rest hr))

end

end Csup.Docoll
