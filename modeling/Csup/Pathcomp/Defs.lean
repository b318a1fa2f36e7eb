import Csup.Misc.Path

/-!
# The path compressor: `pathcomp.c`

`pathcomp_put`, `pathcomp_get` and `pathcomp_finish`. The buffers hold the
terminating NUL; the caller's path is memory of its own, which the functions
take and give back, and `target` says whether the compressor points to it.

`pathcompRun` puts paths and takes out what comes, as `status_wr` does.
-/

namespace Csup.Pathcomp

inductive PcType
  | dirDown | file | dirUp
  deriving DecidableEq

/-- A type and a name, as `pathcomp_get` gives them. -/
abbrev Event := PcType × List Byte

inductive Fault
  /-- An assertion fails. -/
  | assert
  /-- An access outside a buffer or through a null pointer. -/
  | undefined
  /-- More calls than are counted on. -/
  | calls
  deriving DecidableEq

/-- `struct pathcomp` -/
structure State where
  target : Bool
  targetlen : Nat
  trashed : Option Nat
  prev : Option (List Byte)
  prevlen : Nat
  goal : Nat
  curlen : Nat

/-- `pathcomp_new`; the goal is not initialized. -/
def pathcompNew (goal : Nat) : State where
  target := false
  targetlen := 0
  trashed := none
  prev := none
  prevlen := 0
  goal := goal
  curlen := 0

/-- The length of the target: of the path, or of its directory. -/
def targetLength : PcType → List Byte → Nat
  | .dirDown, path => (cstr path).length
  | .file, path => (slashBefore path (cstr path).length).getD 0
  | .dirUp, path => (slashBefore path (cstr path).length).getD 0

/-- What stays open of the previous path. -/
def commonGoal (pc : State) (path : List Byte) (targetlen : Nat) : Nat :=
  match pc.prev with
  | some prev => commonpathlength prev pc.prevlen path targetlen
  | none => 0

/-- `pathcomp_put` and what it returns. -/
def pathcompPut (pc : State) (type : PcType) (path : List Byte) : Except Fault (State × Int) :=
  if pc.target then .error .assert
  else if path.head? = some 47 then .ok (pc, -1)
  else
    let targetlen := targetLength type path
    let goal := commonGoal pc path targetlen
    .ok ({ pc with target := true, targetlen, goal := if pc.curlen = goal then targetlen else goal },
      0)

/-- The overwritten slash is put back. -/
def restore (trashed : Option Nat) (path : List Byte) : List Byte :=
  match trashed with
  | some k => path.set k 47
  | none => path

/-- Going up. -/
def getUp (pc : State) : Except Fault (State × Event) :=
  match pc.prev with
  | none => .error .assert
  | some prev =>
    if prev.length ≤ pc.curlen then .error .undefined
    else
      let prev := prev.set pc.curlen 0
      let slashpos := (slashBefore prev pc.curlen).getD 0
      let pc := { pc with prev := some prev, curlen := slashpos }
      if pc.goal < slashpos then .ok (pc, .dirUp, cstr prev)
      else if slashpos = pc.goal then .ok ({ pc with goal := pc.targetlen }, .dirUp, cstr prev)
      else .error .assert

/-- Going down. -/
def getDown (pc : State) (path : List Byte) : Except Fault (State × List Byte × Event) :=
  if pc.target then
    let path := restore pc.trashed path
    let start := if pc.curlen = 0 then 0 else pc.curlen + 1
    let slashpos := nextSlash path (pc.goal - start) start
    match path[slashpos]? with
    | none => .error .undefined
    | some b =>
      if b = 0 then .ok ({ pc with trashed := none, curlen := slashpos }, path, .dirDown, cstr path)
      else if b = 47 then
        let path := path.set slashpos 0
        .ok ({ pc with trashed := some slashpos, curlen := slashpos }, path, .dirDown, cstr path)
      else .error .assert
  else .error .undefined

/-- `pathcomp_get`: an event, or `none` when it returns 0. -/
def pathcompGet (pc : State) (path : List Byte) :
    Except Fault (State × List Byte × Option Event) :=
  if pc.goal < pc.curlen then do
    let (pc, event) ← getUp pc
    return (pc, path, some event)
  else if pc.curlen < pc.goal then do
    let (pc, path, event) ← getDown pc path
    return (pc, path, some event)
  else if pc.target then
    let path := restore pc.trashed path
    .ok ({ pc with
      trashed := none
      prev := some (path.take pc.targetlen ++ [0])
      prevlen := pc.targetlen
      target := false
      targetlen := 0 }, path, none)
  else .ok (pc, path, none)

/-- `pathcomp_finish` -/
def pathcompFinish (pc : State) : State := { pc with target := false, targetlen := 0, goal := 0 }

/-! ## Runs -/

/-- `pathcomp_get` until it returns 0. -/
def drain : Nat → State → List Byte → Except Fault (List Event × State × List Byte)
  | 0, _, _ => .error .calls
  | calls + 1, pc, path => do
    match ← pathcompGet pc path with
    | (pc, path, none) => return ([], pc, path)
    | (pc, path, some event) =>
      let (events, pc, path) ← drain calls pc path
      return (event :: events, pc, path)

/-- What comes for each put, with the caller's path behind it, and what comes
after `pathcomp_finish`. Each time as many calls are allowed as there are bytes
to go up and down, and one. -/
def pathcompRun (pc : State) :
    List (PcType × List Byte) → Except Fault (List (List Event × List Byte) × List Event × State)
  | [] => do
    let (events, pc, _) ← drain (pc.curlen + 1) (pathcompFinish pc) []
    return ([], events, pc)
  | (type, path) :: puts => do
    let (pc, _) ← pathcompPut pc type path
    let (events, pc, path) ← drain (pc.curlen + pc.targetlen + 1) pc path
    let (outs, last, pc) ← pathcompRun pc puts
    return ((events, path) :: outs, last, pc)

end Csup.Pathcomp
