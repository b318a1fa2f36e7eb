import Csup.Base.Revnum
import Csup.Diff.Defs
import Mathlib.Data.List.Perm.Basic

/-!
# RCS files in memory: `rcsfile.c`

The deltas of an RCS file opened for editing, the functions that build and edit
the tree of them, and `rcsfile_write`.

Pointers to deltas are numbers, handed out in increasing order by `alloc` and
never again; a freed delta is gone from `mem`. A `LIST` is the list of its
elements, and a delta on a stack carries the elements behind it (`Node`), which
is what `LIST_NEXT` reads. The strings a placeholder has not got yet are empty.

Of the admin part of the file only `head`, which decides where a full text is,
is kept. What is written is a record (`RcsDoc`), one entry for each delta and
one for each text.
-/

namespace Csup.Rcs

open Csup.Framework Csup.Keyword Csup.Diff

/-- Why a function gives no result: it returned an error, it read through a
pointer it must not read through, or its loop is not done after as many steps
as there are deltas. -/
inductive Fail
  | error | undefined | diverges
  deriving DecidableEq

abbrev Ptr := Nat

structure Branch where
  revnum : Revnum
  deltalist : List Ptr

structure Delta where
  revdate : List Byte
  revnum : Revnum
  author : List Byte
  state : Option (List Byte)
  log : List Byte
  text : List Byte
  placeholder : Bool
  diffbase : Option Ptr
  branchlist : List Branch

structure RcsFile where
  mem : Ptr → Option Delta
  brk : Ptr
  head : Revnum
  trunk : List Ptr
  deltatable : List Ptr

namespace RcsFile

variable (rf : RcsFile)

/-- The delta a pointer points to. -/
def deref (p : Ptr) : Except Fail Delta :=
  match rf.mem p with
  | some d => .ok d
  | none => .error .undefined

def alloc (d : Delta) : RcsFile :=
  { rf with mem := fun q => if q = rf.brk then some d else rf.mem q, brk := rf.brk + 1 }

def modify (p : Ptr) (f : Delta → Delta) : RcsFile :=
  { rf with mem := fun q => if q = p then (rf.mem q).map f else rf.mem q }

/-- The revision number and the date of a delta, where lists are sorted by
them. -/
def revnum (p : Ptr) : Revnum := ((rf.mem p).map Delta.revnum).getD []

def revdate (p : Ptr) : List Byte := ((rf.mem p).map Delta.revdate).getD []

/-- `rcsfile_getdelta`: search the delta table. -/
def getdelta (revnum : Revnum) : Option Ptr :=
  rf.deltatable.find? fun p => decide ((rf.mem p).map Delta.revnum = some revnum)

end RcsFile

/-- `rcsfile_createdelta` -/
def createdelta (revnum : Revnum) : Delta :=
  ⟨[], revnum, [], none, [], [], false, none, []⟩

/-! ## Insertion -/

/-- The insertion loops of the source: `x` goes before the first element that
`before` holds of, else to the end. -/
def insertBefore {α : Type*} (before : α → Bool) (x : α) : List α → List α
  | [] => [x]
  | y :: ys => if before y then x :: y :: ys else y :: insertBefore before x ys

theorem insertBefore_perm {α : Type*} (before : α → Bool) (x : α) (l : List α) :
    (insertBefore before x l).Perm (x :: l) := by
  induction l with
  | nil => exact .refl _
  | cons y ys ih =>
    simp only [insertBefore]
    split
    · exact .refl _
    · exact (ih.cons y).trans (.swap x y ys)

/-- The new element is in front of those like it. -/
theorem find?_insertBefore {α : Type*} {before p : α → Bool} {x : α} {l : List α}
    (h : ∀ y ∈ l, p x = true → p y = true → before y = true) :
    (insertBefore before x l).find? p = if p x then some x else l.find? p := by
  induction l with
  | nil =>
    rw [insertBefore, List.find?_cons]
    cases p x <;> rfl
  | cons y ys ih =>
    rw [insertBefore]
    by_cases hb : before y = true
    · rw [if_pos hb, List.find?_cons]
      cases p x <;> rfl
    · rw [if_neg hb, List.find?_cons, ih fun z hz => h z (.tail _ hz), List.find?_cons]
      by_cases hx : p x = true
      · have hy : p y = false := by
          by_contra hy
          exact hb (h y List.mem_cons_self hx (by simpa using hy))
        rw [hy, if_pos hx]
      · rw [if_neg hx, if_neg hx]

/-- A list in an order stays in it. -/
theorem pairwise_insertBefore {α : Type*} {R : α → α → Prop} {before : α → Bool} {x : α}
    {l : List α} (htrans : ∀ y z, R x y → R y z → R x z) (hx : ∀ y ∈ l, before y = true → R x y)
    (hy : ∀ y ∈ l, before y = false → R y x) (hl : l.Pairwise R) :
    (insertBefore before x l).Pairwise R := by
  induction l with
  | nil => exact List.pairwise_singleton R x
  | cons y ys ih =>
    obtain ⟨hys, hl⟩ := List.pairwise_cons.mp hl
    simp only [insertBefore]
    split
    · rename_i hb
      have hxy := hx y List.mem_cons_self hb
      refine List.pairwise_cons.mpr ⟨fun z hz => ?_, List.pairwise_cons.mpr ⟨hys, hl⟩⟩
      rcases List.mem_cons.mp hz with rfl | hz
      · exact hxy
      · exact htrans y z hxy (hys z hz)
    · rename_i hb
      refine List.pairwise_cons.mpr ⟨fun z hz => ?_, ih (fun z hz => hx z (.tail _ hz))
        (fun z hz => hy z (.tail _ hz)) hl⟩
      rcases List.mem_cons.mp ((insertBefore_perm before x ys).mem_iff.mp hz) with rfl | hz
      · exact hy y List.mem_cons_self (by simpa using hb)
      · exact hys z hz

/-- `rcsdelta_insertbranch`: branches are in descending order. -/
def insertbranch (b : Branch) : List Branch → List Branch :=
  insertBefore (fun b' => rcsnumCmp b.revnum b'.revnum = .gt) b

/-- `rcsfile_insertdelta`: the trunk is in descending, a branch in ascending
order. -/
def insertdelta (rf : RcsFile) (trunk : Bool) (d : Ptr) : List Ptr → List Ptr :=
  insertBefore (fun d2 =>
    if trunk then decide (rcsnumCmp (rf.revnum d) (rf.revnum d2) ≠ .lt)
    else decide (rcsnumCmp (rf.revnum d) (rf.revnum d2) = .lt)) d

/-- `rcsfile_insertsorteddelta`: the table is in ascending order. -/
def insertsorteddelta (rf : RcsFile) (d : Ptr) : RcsFile :=
  { rf with
    deltatable :=
      insertBefore (fun d2 => rcsnumCmp (rf.revnum d) (rf.revnum d2) ≠ .gt) d rf.deltatable }

/-! ## Branches -/

/-- A `struct branch *`: the trunk, or the branch of a delta that is found by
its number. -/
inductive BranchRef
  | trunk
  | ofDelta (p : Ptr) (revnum : Revnum)

/-- The test of `rcsfile_getbranch`. -/
def Branch.is (branchrev : Revnum) (b : Branch) : Bool := rcsnumCmp b.revnum branchrev = .eq

/-- `f` applied to the first element that `p` holds of. -/
def modifyFirst {α : Type*} (p : α → Bool) (f : α → α) : List α → List α
  | [] => []
  | y :: ys => if p y then f y :: ys else y :: modifyFirst p f ys

/-- The list of a branch with `d` in it: `rcsfile_insertdelta(b, d, trunk)`. -/
def RcsFile.insertdelta (rf : RcsFile) (b : BranchRef) (d : Ptr) (trunk : Bool) : RcsFile :=
  match b with
  | .trunk => { rf with trunk := Rcs.insertdelta rf trunk d rf.trunk }
  | .ofDelta p branchrev =>
    rf.modify p fun dp =>
      { dp with
        branchlist := modifyFirst (Branch.is branchrev)
          (fun b => { b with deltalist := Rcs.insertdelta rf trunk d b.deltalist })
          dp.branchlist }

/-- `LIST_FIRST(&b->deltalist)` -/
def RcsFile.first (rf : RcsFile) : BranchRef → Option Ptr
  | .trunk => rf.trunk.head?
  | .ofDelta p branchrev => do
    let dp ← rf.mem p
    let b ← dp.branchlist.find? (Branch.is branchrev)
    b.deltalist.head?

/-- The branch point of a revision number and the number of its branch:
`rcsrev_prefix` of `rcsrev_prefix`, and `rcsrev_prefix`. -/
def branchpoint (revnum : Revnum) : Except Fail (Revnum × Revnum) :=
  match rcsrevPrefix revnum with
  | none => .error .undefined
  | some brev => match rcsrevPrefix brev with
    | none => .error .undefined
    | some bprev => .ok (bprev, brev)

/-- `rcsfile_getbranch`; `none` is `NULL`. -/
def RcsFile.getbranch (rf : RcsFile) (revnum : Revnum) : Except Fail (Option BranchRef) := do
  let (bprev, branchrev) ← branchpoint revnum
  match rf.getdelta bprev with
  | none => .error .undefined
  | some p =>
    let d ← rf.deref p
    return if d.branchlist.any (Branch.is branchrev) then some (.ofDelta p branchrev) else none

/-- The branch a new delta goes to, created at its branch point when there is
none; the common part of `rcsfile_addelta` and `rcsfile_importdelta`. `none` when
there is no branch point. -/
def RcsFile.findbranch (rf : RcsFile) (revnum : Revnum) :
    Except Fail (RcsFile × Option BranchRef) :=
  match rcsrevIstrunk revnum with
  | none => .error .undefined
  | some true => .ok (rf, some .trunk)
  | some false => do
    match ← rf.getbranch revnum with
    | some b => return (rf, some b)
    | none =>
      let (bprev, brev) ← branchpoint revnum
      match rf.getdelta bprev with
      | none => return (rf, none)
      | some p =>
        return (rf.modify p fun d => { d with branchlist := insertbranch ⟨brev, []⟩ d.branchlist },
          some (.ofDelta p brev))

/-! ## Editing -/

/-- `rcsfile_addelta`; the pointer is `none` where the source returns `NULL`. -/
def RcsFile.addelta (rf : RcsFile) (revnum revdate author diffbase : List Byte) :
    Except Fail (RcsFile × Option Ptr) :=
  match rf.getdelta revnum with
  | some _ => .ok (rf, none)
  | none => do
    let d := rf.brk
    let rf := rf.alloc
      { createdelta revnum with revdate, author, diffbase := rf.getdelta diffbase }
    match ← rf.findbranch revnum with
    | (rf, none) => return (rf, none)
    | (rf, some b) =>
      let trunk := rcsrevIstrunk revnum = some true
      return (insertsorteddelta (rf.insertdelta b d trunk) d, some d)

/-- The fields of a delta that `rcsfile_importdelta` sets. -/
def Delta.fill (revdate author : List Byte) (state : Option (List Byte)) (d : Delta) : Delta :=
  { d with revdate, author, state := match state with | some s => some s | none => d.state }

/-- `d->placeholder = 0` -/
def Delta.unmark (d : Delta) : Delta := { d with placeholder := false }

/-- The placeholder for the next delta, with the delta as its diffbase. -/
def RcsFile.importnext (rf : RcsFile) (d : Ptr) : Option Revnum → RcsFile × Option Ptr
  | none => (rf, none)
  | some next =>
    (rf.alloc { createdelta next with placeholder := true, diffbase := some d }, some rf.brk)

/-- The first delta of a branch has the branch point as its diffbase. -/
def RcsFile.importbase (rf : RcsFile) (b : BranchRef) (d : Ptr) (revnum : Revnum) :
    Except Fail RcsFile :=
  if rcsrevIstrunk revnum ≠ some true ∧ rf.first b = some d then do
    let (bprev, _) ← branchpoint revnum
    match rf.getdelta bprev with
    | none => .error .undefined
    | some bp => return rf.modify d fun dd => { dd with diffbase := some bp }
  else .ok rf

/-- The delta `d` is put into the tree, and into the table unless it is there
already, as a placeholder. -/
def RcsFile.importplace (rf : RcsFile) (d : Ptr) (revnum : Revnum) (placeholder : Bool) :
    Except Fail (Option RcsFile) := do
  match ← rf.findbranch revnum with
  | (_, none) => return none
  | (rf, some b) =>
    let rf := rf.insertdelta b d (rcsrevIstrunk revnum = some true)
    if placeholder then return some (rf.modify d Delta.unmark)
    else
      let rf ← rf.importbase b d revnum
      return some (insertsorteddelta rf d)

/-- `rcsfile_importdelta` from where its delta is known. -/
def RcsFile.importinto (rf : RcsFile) (d : Ptr) (placeholder : Bool) (revnum revdate author : List Byte)
    (state : Option (List Byte)) (next : Option Revnum) : Except Fail RcsFile := do
  let rf := rf.modify d (Delta.fill revdate author state)
  let (rf, dNext) := rf.importnext d next
  match ← rf.importplace d revnum placeholder with
  | none => return rf
  | some rf =>
    match dNext with
    | none => return rf
    | some n => return insertsorteddelta rf n

/-- `rcsfile_importdelta` when the file is opened for editing. -/
def RcsFile.importdelta (rf : RcsFile) (revnum revdate author : List Byte)
    (state : Option (List Byte)) (next : Option Revnum) : Except Fail RcsFile :=
  match rf.getdelta revnum with
  | none => (rf.alloc (createdelta revnum)).importinto rf.brk false revnum revdate author state next
  | some p => do
    let d ← rf.deref p
    if d.placeholder then rf.importinto p true revnum revdate author state next
    else return rf   -- it exists already

/-- `LIST_REMOVE(d, delta_next)`, `LIST_REMOVE(d, table_next)` and `free`. -/
def RcsFile.remove (rf : RcsFile) (p : Ptr) : RcsFile :=
  { rf with
    mem := fun q =>
      if q = p then none
      else (rf.mem q).map fun d =>
        { d with
          branchlist := d.branchlist.map fun b => { b with deltalist := b.deltalist.erase p } }
    trunk := rf.trunk.erase p
    deltatable := rf.deltatable.erase p }

/-- `rcsfile_deleterev`. A placeholder is in no branch it could be removed
from. -/
def RcsFile.deleterev (rf : RcsFile) (revname : Revnum) : Except Fail RcsFile :=
  match rf.getdelta revname with
  | none => .error .undefined
  | some p => do
    let d ← rf.deref p
    if d.placeholder then .error .undefined
    else return rf.remove p

/-- `rcsdelta_writestring`: every `@` is doubled. -/
def writestring (s : List Byte) : List Byte := s.flatMap fun c => if c = 64 then [64, 64] else [c]

/-- `rcsdelta_appendlog` -/
def RcsFile.appendlog (rf : RcsFile) (p : Ptr) (logline : List Byte) : RcsFile :=
  rf.modify p fun d => { d with log := d.log ++ writestring logline }

/-- `rcsdelta_appendtext` -/
def RcsFile.appendtext (rf : RcsFile) (p : Ptr) (textline : List Byte) : RcsFile :=
  rf.modify p fun d => { d with text := d.text ++ writestring textline }

/-! ## Delta texts -/

/-- The texts are written with `EXPAND_OLD`, which scans no line. -/
def expOld : Expander := expandOld fun _ => none

/-- `rcsfile_getdeltatext`: the text of a delta, its diff applied to the text of
its diffbase. Diffbases are older than their deltas. -/
def RcsFile.getdeltatext (rf : RcsFile) : Nat → Ptr → Except Fail (List Byte)
  | 0, _ => .error .diverges
  | fuel + 1, p => do
    let d ← rf.deref p
    match d.diffbase with
    | none =>
      if rf.head = d.revnum then return d.text else .error .undefined
    | some base =>
      let orig ← rf.getdeltatext fuel base
      match diffApply expOld false d.text orig with
      | none => .error .error
      | some dest => return dest

/-- `rcsfile_puttext`: what is written for `d` behind `diffbase`. -/
def RcsFile.puttext (rf : RcsFile) (d : Ptr) (diffbase : Option Ptr) :
    Except Fail (List Byte) := do
  let dd ← rf.deref d
  if dd.diffbase = diffbase then return dd.text
  else match diffbase with
    | none => rf.getdeltatext (d + 1) d
    | some p =>
      let dp ← rf.deref p
      -- A new head was probably added.
      if dp.diffbase = some d then
        let orig ← rf.getdeltatext (d + 1) d
        match diffReverse expOld dp.text orig with
        | none => .error .error
        | some dest => return dest
      else return []

/-! ## `rcsfile_write` -/

/-- A delta in its list, with those behind it. -/
abbrev Node := Ptr × List Ptr

/-- The first node of a list. -/
def node? : List Ptr → Option Node
  | [] => none
  | d :: ds => some (d, ds)

/-- The header of a delta. -/
structure HeaderEntry where
  revnum : Revnum
  revdate : List Byte
  author : List Byte
  state : Option (List Byte)
  branches : List Revnum
  next : Option Revnum
  deriving DecidableEq

structure TextEntry where
  revnum : Revnum
  log : List Byte
  text : List Byte
  deriving DecidableEq

structure RcsDoc where
  head : Revnum
  deltas : List HeaderEntry
  texts : List TextEntry
  deriving DecidableEq

/-- The first nodes of branches, empty ones left out. -/
def heads (bs : List Branch) : List Node := bs.filterMap fun b => node? b.deltalist

/-- The loop of `rcsfile_write` over the stack of deltas. -/
def RcsFile.writeDeltas (rf : RcsFile) : Nat → List Node → Except Fail (List HeaderEntry)
  | _, [] => return []
  | 0, _ :: _ => .error .diverges
  | fuel + 1, (p, rest) :: stack => do
    let d ← rf.deref p
    if d.placeholder then rf.writeDeltas fuel stack
    else
      let inverted := (heads d.branchlist).reverse
      let next := (node? rest).toList
      let out ← rf.writeDeltas fuel (next ++ inverted ++ stack)
      return ⟨d.revnum, d.revdate, d.author, d.state, inverted.map fun n => rf.revnum n.1,
        rest.head?.map rf.revnum⟩ :: out

/-- The branches up to the first empty one. -/
def uptoEmpty (bs : List Branch) : List Branch := bs.takeWhile fun b => !b.deltalist.isEmpty

/-- Insertion by date. -/
def insertDated (rf : RcsFile) (sorted : List Node) (n : Node) : List Node :=
  insertBefore (fun n3 => rcsnumCmp (rf.revdate n.1) (rf.revdate n3.1) ≠ .gt) n sorted

/-- Where the next delta goes: on the trunk below the branches, on a branch among
them. -/
def RcsFile.placenext (rf : RcsFile) : Option Node → Except Fail (List Node × List Node)
  | none => .ok ([], [])
  | some n => match rcsrevIstrunk (rf.revnum n.1) with
    | none => .error .undefined
    | some true => .ok ([n], [])
    | some false => .ok ([], [n])

/-- The loop of `rcsfile_write_deltatext` over the stack of deltas, each with
the delta it was reached from (`prev`). -/
def RcsFile.writeDeltatext (rf : RcsFile) :
    Nat → List (Option Ptr × Node) → Except Fail (List TextEntry)
  | _, [] => return []
  | 0, _ :: _ => .error .diverges
  | fuel + 1, (prev, p, rest) :: stack => do
    let d ← rf.deref p
    if d.placeholder then return []
    else
      let text ← rf.puttext p prev
      let (trunkNext, sorted) ← rf.placenext (node? rest)
      let sorted := (heads (uptoEmpty d.branchlist)).foldl (insertDated rf) sorted
      let pushed := (sorted.reverse ++ trunkNext).map fun n => (some p, n)
      let out ← rf.writeDeltatext fuel (pushed ++ stack)
      return ⟨d.revnum, d.log, text⟩ :: out

/-- `rcsfile_write` -/
def RcsFile.write (rf : RcsFile) : Except Fail RcsDoc :=
  match rf.trunk with
  | [] => .error .undefined
  | d :: ds => do
    let dd ← rf.deref d
    let deltas ← rf.writeDeltas rf.deltatable.length [(d, ds)]
    let texts ← rf.writeDeltatext rf.deltatable.length [(none, d, ds)]
    return ⟨dd.revnum, deltas, texts⟩

/-! ## Runs -/

/-- The delta entry of a file: what `parse_deltas` reads of it. -/
structure DeltaEntry where
  revnum : Revnum
  revdate : List Byte
  author : List Byte
  state : Option (List Byte)
  next : Option Revnum

/-- `parse_deltatexts`: an unknown revision ends it. -/
def RcsFile.parseDeltatexts (rf : RcsFile) : List TextEntry → RcsFile
  | [] => rf
  | t :: ts => match rf.getdelta t.revnum with
    | none => rf
    | some p => (rf.modify p fun d =>
        { d with log := d.log ++ t.log, text := d.text ++ t.text }).parseDeltatexts ts

/-- The file `rcsfile_frompath` starts from. -/
def RcsFile.empty (head : Revnum) : RcsFile := ⟨fun _ => none, 0, head, [], []⟩

/-- `rcsparse` on a file with the delta entries `deltas` and the texts `texts`. -/
def rcsparse (head : Revnum) (deltas : List DeltaEntry) (texts : List TextEntry) :
    Except Fail RcsFile := do
  let rf ← deltas.foldlM
    (fun rf e => rf.importdelta e.revnum e.revdate e.author e.state e.next) (RcsFile.empty head)
  return rf.parseDeltatexts texts

/-- `rcsdelta_setstate` -/
def RcsFile.setstate (rf : RcsFile) (p : Ptr) (state : Option (List Byte)) : RcsFile :=
  rf.modify p fun d => { d with state }

/-- The calls that edit a file. -/
inductive Edit
  | addelta (revnum revdate author diffbase : List Byte)
  | deleterev (revname : Revnum)
  | setstate (p : Ptr) (state : Option (List Byte))
  | appendlog (p : Ptr) (logline : List Byte)
  | appendtext (p : Ptr) (textline : List Byte)

def RcsFile.edit (rf : RcsFile) : Edit → Except Fail RcsFile
  | .addelta revnum revdate author diffbase => do
    let (rf, _) ← rf.addelta revnum revdate author diffbase
    return rf
  | .deleterev revname => rf.deleterev revname
  | .setstate p state => .ok (rf.setstate p state)
  | .appendlog p logline => .ok (rf.appendlog p logline)
  | .appendtext p textline => .ok (rf.appendtext p textline)

end Csup.Rcs
