import Mathlib.Data.List.Nodup

/-!
# Fixups: `fixups.c` and `detailer_batch`

The queue of the files to ask for once more, the thread that puts them in, which is
`updater` up to `fixups_close`, and the thread that takes them out and asks for them,
the second loop of `detailer_batch`.

A step is a stretch of code between two calls of the thread library, or a line that
is written. A collection is known by its address, of type `C`. The compression of
what is written, and when it is flushed, are left out.
-/

namespace Csup.Detailer

/-! ## The queue -/

/-- `struct fixup` -/
structure Fixup (C N : Type*) where
  coll : C
  name : N

inductive Thread
  | updater
  | detailer
  deriving DecidableEq

/-- `struct fixups`; the lock is a thread's or free. -/
structure Fixups (C N : Type*) where
  lock : Option Thread
  fixupq : List (Fixup C N)
  cur : Option (Fixup C N)
  size : Nat
  closed : Bool

/-- The calls of the updater. -/
inductive Op (C N : Type*)
  | put (f : Fixup C N)
  | close

section

variable {C N : Type*}

/-- `fixups_new` -/
def Fixups.new : Fixups C N := ⟨none, [], none, 0, false⟩

/-- `fixups_put` under the lock, with `dosignal`; it asserts that the queue is not closed. -/
def Fixups.put (q : Fixups C N) (f : Fixup C N) : Option (Fixups C N × Bool) :=
  if q.closed then none
  else some ({ q with fixupq := q.fixupq ++ [f], size := q.size + 1 }, q.size = 0)

/-- `fixups_close` under the lock, with `dosignal`. -/
def Fixups.close (q : Fixups C N) : Fixups C N × Bool :=
  ({ q with closed := true }, q.size = 0 && !q.closed)

def Fixups.call (q : Fixups C N) : Op C N → Option (Fixups C N × Bool)
  | .put f => q.put f
  | .close => some q.close

/-- What `fixups_get` comes to under the lock: it has to wait, or returns, with what. -/
inductive Got (C N : Type*)
  | wait
  | ret (fixup : Option (Fixup C N)) (q : Fixups C N)

/-- `fixups_get` under the lock; it asserts that there is a fixup when the size is not 0.
What was `cur` is freed behind the lock. -/
def Fixups.get (q : Fixups C N) : Option (Got C N) :=
  if q.size = 0 ∧ q.closed = false then some .wait
  else if q.closed = true ∧ q.size = 0 then some (.ret none q)
  else
    match q.fixupq with
    | [] => none
    | f :: fixupq => some (.ret (some f) { q with fixupq, cur := some f, size := q.size - 1 })

end

/-! ## What is written -/

/-- The part of a `struct coll` that is used. -/
structure Coll (N : Type*) where
  skip : Bool
  checkoutmode : Bool
  name : N
  release : N
  tag : N
  date : N

/-- The collections, in their order. -/
structure Config (C N : Type*) where
  colls : List C
  nodup : colls.Nodup
  coll : C → Coll N

/-- The lines the detailer writes. -/
inductive Line (N : Type*)
  | coll (name release : N)
  | Y (name tag date : N)
  | X (name : N)
  | dot
  deriving DecidableEq

variable {C N : Type*}

def Coll.line (coll : Coll N) : Line N := .coll coll.name coll.release

/-- The request for a fixup. -/
def Coll.request (coll : Coll N) (name : N) : Line N :=
  if coll.checkoutmode then .Y name coll.tag coll.date else .X name

/-! ## The threads -/

/-- Where the updater is. -/
inductive UpdaterPc (C N : Type*)
  /-- between two calls -/
  | idle
  | locked (op : Op C N)
  | unlock (dosignal : Bool)
  | signal

/-- Where the detailer is. -/
inductive DetailerPc (C N : Type*)
  /-- about to look at the next collection -/
  | loop
  /-- in the loop for a collection -/
  | block
  /-- about to call `fixups_get` -/
  | call
  /-- in `fixups_get`, with the lock -/
  | locked
  /-- waiting for the condition -/
  | wait
  /-- woken up, and without the lock yet -/
  | woken
  | unlock (ret : Option (Fixup C N))
  | finished

structure State (C N : Type*) where
  fixups : Fixups C N
  updater : UpdaterPc C N
  /-- what the updater has still to call -/
  todo : List (Op C N)
  detailer : DetailerPc C N
  /-- what is left of the list of collections; the first is `coll` -/
  colls : List C
  fixup : Option (Fixup C N)
  fixupseof : Bool
  /-- A line could not be written. -/
  failed : Bool
  out : List (Line N)

/-- The fixups of the first batch, given the names for each collection. -/
def Config.fixups (conf : Config C N) (names : C → List N) : List (Fixup C N) :=
  (conf.colls.filter fun c => !(conf.coll c).skip).flatMap fun c => (names c).map (Fixup.mk c)

def State.init (conf : Config C N) (names : C → List N) : State C N where
  fixups := .new
  updater := .idle
  todo := (conf.fixups names).map .put ++ [.close]
  detailer := .loop
  colls := conf.colls
  fixup := none
  fixupseof := false
  failed := false
  out := []

/-- A line that is written, and what the detailer does behind it. -/
inductive Write (conf : Config C N) (s : State C N) : Line N → State C N → Prop
  | done : s.detailer = .loop → s.colls = [] → Write conf s .dot { s with detailer := .finished }
  | coll {c : C} {colls : List C} : s.detailer = .loop → s.colls = c :: colls →
    (conf.coll c).skip = false → Write conf s (conf.coll c).line { s with detailer := .block }
  | eof {c : C} {colls : List C} : s.detailer = .block → s.colls = c :: colls →
    s.fixupseof = true → Write conf s .dot { s with colls, detailer := .loop }
  | other {c : C} {colls : List C} {f : Fixup C N} : s.detailer = .block → s.colls = c :: colls →
    s.fixupseof = false → s.fixup = some f → f.coll ≠ c →
    Write conf s .dot { s with colls, detailer := .loop }
  | request {c : C} {colls : List C} {f : Fixup C N} : s.detailer = .block →
    s.colls = c :: colls → s.fixupseof = false → s.fixup = some f → f.coll = c →
    Write conf s ((conf.coll c).request f.name) { s with fixup := none }

/-- A signal wakes the detailer up when it waits. -/
def DetailerPc.wake : DetailerPc C N → DetailerPc C N
  | wait => woken
  | pc => pc

/-- The steps of the threads. -/
inductive Step (conf : Config C N) (s : State C N) : State C N → Prop
  | lock {op : Op C N} {todo : List (Op C N)} : s.updater = .idle → s.todo = op :: todo →
    s.fixups.lock = none → Step conf s
      { s with updater := .locked op, todo, fixups := { s.fixups with lock := some .updater } }
  | op {op : Op C N} {q : Fixups C N} {dosignal : Bool} : s.updater = .locked op →
    s.fixups.call op = some (q, dosignal) →
    Step conf s { s with updater := .unlock dosignal, fixups := q }
  | unlock {dosignal : Bool} : s.updater = .unlock dosignal → Step conf s
    { s with updater := if dosignal then .signal else .idle,
             fixups := { s.fixups with lock := none } }
  | signal : s.updater = .signal →
    Step conf s { s with updater := .idle, detailer := s.detailer.wake }
  | skip {c : C} {colls : List C} : s.failed = false → s.detailer = .loop →
    s.colls = c :: colls → (conf.coll c).skip = true → Step conf s { s with colls }
  | write {line : Line N} {s' : State C N} : s.failed = false → Write conf s line s' →
    Step conf s { s' with out := s.out ++ [line] }
  | call : s.failed = false → s.detailer = .block → s.fixupseof = false → s.fixup = none →
    Step conf s { s with detailer := .call }
  | get : s.detailer = .call ∨ s.detailer = .woken → s.fixups.lock = none → Step conf s
    { s with detailer := .locked, fixups := { s.fixups with lock := some .detailer } }
  | wait : s.detailer = .locked → s.fixups.get = some .wait → Step conf s
    { s with detailer := .wait, fixups := { s.fixups with lock := none } }
  | ret {fixup : Option (Fixup C N)} {q : Fixups C N} : s.detailer = .locked →
    s.fixups.get = some (.ret fixup q) →
    Step conf s { s with detailer := .unlock fixup, fixups := q }
  | got {fixup : Option (Fixup C N)} : s.detailer = .unlock fixup → Step conf s
    { s with detailer := .block, fixup, fixupseof := fixup.isNone,
             fixups := { s.fixups with lock := none } }

/-- A thread takes a step, the detailer wakes up without a signal, or it returns as a
line cannot be written. -/
inductive Next (conf : Config C N) (s : State C N) : State C N → Prop
  | step {s' : State C N} : Step conf s s' → Next conf s s'
  | spurious : s.detailer = .wait → Next conf s { s with detailer := .woken }
  | fail {line : Line N} {s' : State C N} : s.failed = false → Write conf s line s' →
    Next conf s { s with failed := true }

inductive Run (conf : Config C N) (names : C → List N) : State C N → Prop
  | init : Run conf names (.init conf names)
  | next {s s' : State C N} : Run conf names s → Next conf s s' → Run conf names s'

end Csup.Detailer
