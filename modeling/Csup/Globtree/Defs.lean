import Csup.Base.Clib
import Csup.Framework.Heap

/-!
# Filter trees: `globtree.c`

The nodes of the trees are cells of a heap; a pointer that is `NULL` is `none`, and
the use of a cell that is not allocated is a `Fault`, as is an assertion that fails.
`fnmatch`, `regcomp` and `regexec` are those of a `Matchers`.

`globtree_test` is a machine: `step` is a step of one of its two inner loops. Its stack
goes through the nodes.
-/

namespace Csup.Globtree

open Csup.Framework

inductive NodeType
  | not | and | or | matching | regex | true | false
  deriving DecidableEq

inductive Walkstate
  | doingleft | doingright
  deriving DecidableEq

inductive Fault
  | assertion | badPointer
  deriving DecidableEq

def FNM_NOMATCH : Int := 1

def REG_NOMATCH : Int := 1

/-- The primitive matching operations, with the values they return. -/
structure Matchers (R : Type*) where
  fnmatch : List Byte → List Byte → Nat → Int
  regcomp : List Byte → Option R
  regexec : R → List Byte → Int
  fnmatch_returns (pattern path : List Byte) (flags : Nat) :
    fnmatch pattern path flags = 0 ∨ fnmatch pattern path flags = FNM_NOMATCH
  regexec_returns (r : R) (path : List Byte) : regexec r path = 0 ∨ regexec r path = REG_NOMATCH

/-- What the field `data` points to. -/
inductive Data (R : Type*)
  | pattern (p : List Byte)
  | regex (r : R)

/-- `struct globtree` -/
structure Node (R : Type*) where
  type : NodeType
  left : Option Loc
  right : Option Loc
  data : Option (Data R)
  flags : Nat
  state : Option Walkstate
  stackNext : Option Loc

variable {R : Type*}

/-- `globtree_new`, before the allocation. -/
def globtreeNew (type : NodeType) : Node R := ⟨type, none, none, none, 0, none, none⟩

abbrev Tree (R : Type*) := Loc × Heap (Node R)

/-! ## Constructors -/

def globtreeTrue (h : Heap (Node R)) : Tree R := h.alloc (globtreeNew .true)

def globtreeFalse (h : Heap (Node R)) : Tree R := h.alloc (globtreeNew .false)

def globtreeMatch (h : Heap (Node R)) (pattern : List Byte) (flags : Nat) : Tree R :=
  h.alloc { (globtreeNew .matching : Node R) with data := some (.pattern pattern), flags := flags }

def globtreeRegex (m : Matchers R) (h : Heap (Node R)) (pattern : List Byte) :
    Except Fault (Tree R) :=
  match m.regcomp pattern with
  | none => .error .assertion
  | some r => .ok (h.alloc { (globtreeNew .regex : Node R) with data := some (.regex r) })

/-- `gt` of the node at `l`. -/
def deref (h : Heap (Node R)) (l : Loc) : Except Fault (Node R) :=
  match h.cell l with
  | none => .error .badPointer
  | some n => .ok n

/-- The recursion of `globtree_free`, no deeper than there are nodes. -/
def freeTree : Nat → Heap (Node R) → Loc → Except Fault (Heap (Node R))
  | 0, _, _ => .error .badPointer
  | fuel + 1, h, l => do
    let n ← deref h l
    let h ← match n.left with
      | none => .ok h
      | some c => freeTree fuel h c
    let h ← match n.right with
      | none => .ok h
      | some c => freeTree fuel h c
    .ok (h.free l)

/-- `globtree_free` -/
def globtreeFree (h : Heap (Node R)) (l : Loc) : Except Fault (Heap (Node R)) :=
  freeTree h.next h l

/-- The two operators with two operands. -/
inductive Op
  | and | or
  deriving DecidableEq

namespace Op

def type : Op → NodeType
  | and => .and
  | or => .or

/-- The leaf that decides the operator. -/
def zero : Op → NodeType
  | and => .false
  | or => .true

/-- The leaf that leaves the other operand. -/
def unit : Op → NodeType
  | and => .true
  | or => .false

/-- Whether the value of the left operand leaves the right one to be evaluated. -/
def goesOn (op : Op) (val : Bool) : Bool :=
  match op with
  | and => val
  | or => !val

end Op

def globtreeBinary (op : Op) (h : Heap (Node R)) (left right : Loc) : Except Fault (Tree R) := do
  let nl ← deref h left
  let nr ← deref h right
  if nl.type = op.zero ∨ nr.type = op.zero then
    let h ← globtreeFree h left
    let h ← globtreeFree h right
    .ok (h.alloc (globtreeNew op.zero))
  else if nl.type = op.unit then
    let h ← globtreeFree h left
    .ok (right, h)
  else if nr.type = op.unit then
    let h ← globtreeFree h right
    .ok (left, h)
  else .ok (h.alloc { globtreeNew op.type with left := some left, right := some right })

def globtreeAnd (h : Heap (Node R)) (left right : Loc) : Except Fault (Tree R) :=
  globtreeBinary .and h left right

def globtreeOr (h : Heap (Node R)) (left right : Loc) : Except Fault (Tree R) :=
  globtreeBinary .or h left right

def globtreeNot (h : Heap (Node R)) (child : Loc) : Except Fault (Tree R) := do
  let n ← deref h child
  if n.type = .true then
    let h ← globtreeFree h child
    .ok (h.alloc (globtreeNew .false))
  else if n.type = .false then
    let h ← globtreeFree h child
    .ok (h.alloc (globtreeNew .true))
  else .ok (h.alloc { globtreeNew .not with left := some child })

/-! ## Tests -/

/-- `globtree_eval` -/
def globtreeEval (m : Matchers R) (gt : Node R) (path : List Byte) : Except Fault Bool :=
  match gt.type with
  | .true => .ok true
  | .false => .ok false
  | .matching =>
    match gt.data with
    | some (.pattern p) =>
      let rv := m.fnmatch p path gt.flags
      if rv = 0 then .ok true
      else if rv = FNM_NOMATCH then .ok false
      else .error .assertion
    | some (.regex _) => .error .badPointer
    | none => .error .assertion
  | .regex =>
    match gt.data with
    | some (.regex r) =>
      let rv := m.regexec r path
      if rv = 0 then .ok true
      else if rv = REG_NOMATCH then .ok false
      else .error .assertion
    | some (.pattern _) => .error .badPointer
    | none => .error .assertion
  | _ => .error .assertion

/-- Where `globtree_test` is: on its way down at a node, on its way up with a value, or
at its end. -/
inductive Ctl
  | down (gt : Loc)
  | up (val : Bool)
  | done (val : Bool)
  | fault (f : Fault)

/-- `globtree_test` at work; `stack` is the head of its stack. -/
structure Walk (R : Type*) where
  heap : Heap (Node R)
  stack : Option Loc
  ctl : Ctl

/-- A node as it is on the stack. -/
def Node.onStack (n : Node R) (state : Walkstate) (next : Option Loc) : Node R :=
  { n with state := some state, stackNext := next }

/-- `gt` is put on the stack. -/
def Walk.push (w : Walk R) (gt : Loc) (n : Node R) (state : Walkstate) : Walk R :=
  { w with heap := w.heap.set gt (n.onStack state w.stack), stack := some gt }

/-- A node that comes off the stack with the value `val` of an operand. -/
def Walk.pop (w : Walk R) (gt : Loc) (n : Node R) (val : Bool) : Walk R :=
  let w := { w with stack := n.stackNext }
  let goRight (op : Op) : Walk R :=
    if n.state = some .doingleft ∧ op.goesOn val = true then
      { w.push gt n .doingright with
        ctl := match n.right with
          | some r => .down r
          | none => .fault .badPointer }
    else { w with ctl := .up val }
  match n.type with
  | .not => { w with ctl := .up (!val) }
  | .and => goRight .and
  | .or => goRight .or
  | _ => { w with ctl := .fault .assertion }

def Walk.step (m : Matchers R) (path : List Byte) (w : Walk R) : Walk R :=
  match w.ctl with
  | .down gt =>
    match deref w.heap gt with
    | .error f => { w with ctl := .fault f }
    | .ok n =>
      match n.left with
      | some l => { w.push gt n .doingleft with ctl := .down l }
      | none =>
        match globtreeEval m n path with
        | .error f => { w with ctl := .fault f }
        | .ok val => { w with ctl := .up val }
  | .up val =>
    match w.stack with
    | none => { w with ctl := .done val }
    | some gt =>
      match deref w.heap gt with
      | .error f => { w with ctl := .fault f }
      | .ok n => w.pop gt n val
  | .done _ => w
  | .fault _ => w

/-- `globtree_test`, for so many steps: what it returns and the heap it leaves. -/
def globtreeTest (m : Matchers R) (fuel : Nat) (t : Tree R) (path : List Byte) :
    Option (Bool × Heap (Node R)) :=
  let w := (Walk.step m path)^[fuel] ⟨t.2, none, .down t.1⟩
  match w.ctl with
  | .done val => some (val, w.heap)
  | _ => none

/-- Tests of one path after the other. -/
def globtreeTests (m : Matchers R) (fuel : Nat) (t : Tree R) : List (List Byte) → Option (List Bool)
  | [] => some []
  | path :: paths =>
    match globtreeTest m fuel t path with
    | none => none
    | some (val, h) => (globtreeTests m fuel (t.1, h) paths).map (val :: ·)

end Csup.Globtree
