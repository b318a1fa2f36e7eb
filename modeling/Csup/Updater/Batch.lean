import Csup.Detailer.Defs
import Csup.Updater.Docoll

/-!
# The updater: `updater` and `updater_batch`

The two batches of the server, with the calls of `fixups_put` and `fixups_close`
(`Called.calls`). A step of the updater is a collection skipped or begun, a round of
the loop of `updater_docoll`, the end of a collection or of a batch, or the closing of
the queue; one follows from the state before it (`UpState.step`), as what the system
does is a function of the world.

What `stream_filter_start` does to the stream, and the masks of files, are left out.
-/

namespace Csup.Docoll

open Csup.Detailer (Fixups Op)
open Csup.Diff (Line)
open Csup.Framework (oneLine onLines)
open Csup.Updater

/-! ## The calls -/

/-- A world with the calls for the queue of fixups. -/
structure Called (C W : Type) where
  world : W
  calls : List (Op C (List Byte))

variable {C W F D α : Type}

/-- What is done to the world is no call. -/
def Called.lift (f : W → α × W) (w : Called C W) : α × Called C W :=
  ((f w.world).1, { w with world := (f w.world).2 })

/-- The system, where `fixups_put` is called for the collection `coll`. -/
def Host.called (host : Host W) (coll : C) : Host (Called C W) where
  access path w := host.access path w.world
  frompath path w := host.frompath path w.world
  frompathFollow path w := host.frompathFollow path w.world
  read path w := host.read path w.world
  files w := host.files w.world
  delete path w := { w with world := host.delete path w.world }
  rmdir path := Called.lift (host.rmdir path)
  mkdirhier path := Called.lift (host.mkdirhier path)
  makenode fa path := Called.lift (host.makenode fa path)
  install fa topath frompath := Called.lift (host.install fa topath frompath)
  statusPut sr := Called.lift (host.statusPut sr)
  statusDelete name isdirup := Called.lift (host.statusDelete name isdirup)
  fixupsPut name w := ⟨host.fixupsPut name w.world, w.calls ++ [.put ⟨coll, name⟩]⟩
  tempname path := Called.lift (host.tempname path)
  create path := Called.lift (host.create path)
  write path data := Called.lift (host.write path data)

def Env.called (env : Env W F D) (coll : C) : Env (Called C W) F D :=
  { env with host := env.host.called coll }

/-! ## Batches -/

/-- A collection, as `updater_batch` sees it. `status_open` and `status_close` say
whether they succeed. -/
structure BatchColl (C W F D : Type) where
  coll : C
  skip : Bool
  name : List Byte
  release : List Byte
  statusOpen : W → Bool × W
  statusClose : W → Bool × W
  env : Env W F D

/-- The line in front of a collection. -/
def readColl (name release : List Byte) : List Line → Except Halt (Unit × List Line) :=
  oneLine (.err .read) fun line =>
    match getFields 3 (some (cline line)) with
    | some [cmd, collname, rel] =>
      if cmd = bytes ['C', 'O', 'L', 'L'] ∧ collname = name ∧ rel = release then .ok ()
      else .error (.err .proto)
    | _ => .error (.err .proto)

/-- The line behind the collections. -/
def readDot : List Line → Except Halt (Unit × List Line) :=
  oneLine (.err .read) fun line => if cline line = [46] then .ok () else .error (.err .proto)

/-- Where the updater is. -/
inductive UpPhase (C W F D : Type)
  /-- in `updater_batch`, with the collections that are left -/
  | batch (isfixups : Bool) (left : List (BatchColl C W F D))
  /-- in the loop of `updater_docoll` -/
  | docoll (isfixups : Bool) (coll : BatchColl C W F D) (left : List (BatchColl C W F D))
  /-- behind the first batch -/
  | close (ok : Bool)
  | done

/-- Behind a batch, which went well or did not. -/
def UpPhase.behind (isfixups ok : Bool) : UpPhase C W F D :=
  if isfixups then done else close ok

structure UpState (C W F D : Type) where
  phase : UpPhase C W F D
  /-- `deletecount` -/
  count : Nat
  input : List Byte
  world : Called C W

/-- The step the updater takes. -/
def UpState.step (colls : List (BatchColl C W F D)) (s : UpState C W F D) :
    Option (UpState C W F D) :=
  match s.phase with
  | .batch isfixups [] =>
    match onLines nl readDot s.input with
    | .error _ => some { s with phase := .behind isfixups false }
    | .ok (_, input) => some { s with phase := .behind isfixups true, input }
  | .batch isfixups (c :: left) =>
    if c.skip then some { s with phase := .batch isfixups left }
    else
      match onLines nl (readColl c.name c.release) s.input with
      | .error _ => some { s with phase := .behind isfixups false }
      | .ok (_, input) =>
        let (ok, world) := Called.lift c.statusOpen s.world
        some { s with
          phase := if ok then .docoll isfixups c left else .behind isfixups false, input, world }
  | .docoll isfixups c left =>
    let r := docollStep (c.env.called c.coll) s.count s.input s.world
    match r.val with
    | .ok (.inl count) => some { s with count, input := r.input, world := r.world }
    | .ok (.inr count) =>
      let (ok, world) := Called.lift c.statusClose r.world
      let phase := if ok then .batch isfixups left else .behind isfixups false
      some { phase, count, input := r.input, world }
    | .error _ =>
      let (_, world) := Called.lift c.statusClose r.world
      some { s with phase := .behind isfixups false, input := r.input, world }
  | .close ok =>
    let world := { s.world with calls := s.world.calls ++ [.close] }
    some { s with phase := if ok then .batch true colls else .done, world }
  | .done => none

def UpState.init (colls : List (BatchColl C W F D)) (input : List Byte) (world : W) :
    UpState C W F D :=
  ⟨.batch false colls, 0, input, ⟨world, []⟩⟩

/-- What the updater comes to by steps from states that are `ok`. -/
inductive UpRun (ok : UpState C W F D → Prop) (colls : List (BatchColl C W F D))
    (input : List Byte) (world : W) : UpState C W F D → Prop
  | init : UpRun ok colls input world (.init colls input world)
  | next {s s' : UpState C W F D} : UpRun ok colls input world s → ok s →
    s.step colls = some s' → UpRun ok colls input world s'

/-! ## The queue -/

/-- The queue behind the calls; `none` is an assertion that failed. -/
def performs (q : Fixups C (List Byte)) : List (Op C (List Byte)) → Option (Fixups C (List Byte))
  | [] => some q
  | op :: ops => (q.call op).bind fun r => performs r.1 ops

/-- `fixups_put` is not called behind `fixups_close`. -/
def PutsFirst (calls : List (Op C (List Byte))) : Prop :=
  ∀ before behind, calls = before ++ .close :: behind → ∀ f, .put f ∉ behind

end Csup.Docoll
