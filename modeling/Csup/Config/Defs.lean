import Csup.Config.Lex
import Csup.Framework.Lines
import Csup.Proto.Tokens
import Mathlib.Data.Option.Basic

/-!
# Supfiles: `parse.y` and `config.c`

The globals of the parser (`Globals`) are the collections so far, the one whose options are read, and
the defaults. Where the program ends, there is an `Exit`.

The keywords and the filters of a collection, which only `proto_xchgcoll` uses, are left out.
-/

namespace Csup.Config

open Csup.Framework (splitLines)

/-! ## Options -/

def CO_DELETE : BitVec 32 := 0x00000002#32
def CO_COMPRESS : BitVec 32 := 0x00000040#32
def CO_USERELSUFFIX : BitVec 32 := 0x00000080#32
def CO_EXACTRCS : BitVec 32 := 0x00000100#32
def CO_CHECKRCS : BitVec 32 := 0x00000200#32
def CO_SKIP : BitVec 32 := 0x00000400#32
def CO_CHECKOUTMODE : BitVec 32 := 0x00000800#32
def CO_NORSYNC : BitVec 32 := 0x00001000#32
def CO_KEEPBADFILES : BitVec 32 := 0x00002000#32
def CO_SETMODE : BitVec 32 := 0x00010000#32
def CO_NORCS : BitVec 32 := 0x00040000#32
def CO_TRUSTSTATUSFILE : BitVec 32 := 0x00100000#32

def CO_MASK : BitVec 32 := 0x007fffff#32

def has (options flag : BitVec 32) : Bool := options &&& flag != 0

theorem has_or (a b flag : BitVec 32) : has (a ||| b) flag = (has a flag || has b flag) := by
  rw [Bool.eq_iff_iff, Bool.or_eq_true]
  simp only [has, bne_iff_ne, ne_eq, BitVec.and_or_distrib_right]
  exact (not_congr BitVec.or_eq_zero_iff).trans not_and_or

theorem has_clear (a flag : BitVec 32) : has (a &&& ~~~flag) flag = false := by
  rw [has, BitVec.and_assoc, BitVec.not_and_self]
  simp

/-- Clearing other bits. -/
theorem has_clear_other {mask flag : BitVec 32} (h : ~~~mask &&& flag = flag) (a : BitVec 32) :
    has (a &&& ~~~mask) flag = has a flag := by
  rw [has, BitVec.and_assoc, h, has]

/-! ## Collections -/

/-- A `struct coll`; `none` is `NULL`. -/
@[ext]
structure Coll where
  name : Option (List Byte)
  host : Option (List Byte)
  base : Option (List Byte)
  date : Option (List Byte)
  pre : Option (List Byte)
  release : Option (List Byte)
  tag : Option (List Byte)
  colldir : Option (List Byte)
  listsuffix : Option (List Byte)
  accepts : List (List Byte)
  refusals : List (List Byte)
  options : BitVec 32
  umask : BitVec 32

/-- `coll_new` -/
def collNew : Option Coll → Coll
  | some d => { d with name := none, colldir := none, accepts := [], refusals := [] }
  | none =>
    { name := none, host := none, base := none, date := some [46], pre := none, release := none,
      tag := some [46], colldir := none, listsuffix := none, accepts := [], refusals := [],
      options := 0, umask := 0 }

/-- `coll_override` -/
def collOverride (coll frm : Coll) (mask : BitVec 32) : Coll :=
  let newoptions := frm.options &&& mask
  let oldoptions := coll.options &&& (CO_MASK &&& ~~~mask)
  let checkout := has newoptions CO_CHECKOUTMODE
  { coll with
    release := frm.release.or coll.release
    host := frm.host.or coll.host
    base := frm.base.or coll.base
    colldir := frm.colldir.or coll.colldir
    pre := frm.pre.or coll.pre
    tag := if checkout then frm.tag.or coll.tag else coll.tag
    date := if checkout then frm.date.or coll.date else coll.date
    listsuffix := frm.listsuffix.or coll.listsuffix
    accepts := coll.accepts ++ frm.accepts
    refusals := coll.refusals ++ frm.refusals
    options := oldoptions ||| newoptions }

/-- Why the program ends. -/
inductive Exit
  /-- `yyerror` -/
  | parse
  | list | umask | release | host | hosts
  deriving DecidableEq

/-- `coll_setopt`; a boolean has no value. -/
def collSetopt (coll : Coll) (opt : Pt) (value : List Byte) : Except Exit Coll :=
  match opt with
  | .host => .ok { coll with host := some value }
  | .base => .ok { coll with base := some value }
  | .date => .ok { coll with date := some value, options := coll.options ||| CO_CHECKOUTMODE }
  | .pre => .ok { coll with pre := some value }
  | .release => .ok { coll with release := some value }
  | .tag => .ok { coll with tag := some value, options := coll.options ||| CO_CHECKOUTMODE }
  | .list => if 47 ∈ value then .error .list else .ok { coll with listsuffix := some value }
  | .umask =>
    match asciitoint 8 value with
    | none => .error .umask
    | some mask => .ok { coll with umask := BitVec.ofInt 32 mask }
  | .useRelSuffix => .ok { coll with options := coll.options ||| CO_USERELSUFFIX }
  | .delete => .ok { coll with options := coll.options ||| (CO_DELETE ||| CO_EXACTRCS) }
  | .compress => .ok { coll with options := coll.options ||| CO_COMPRESS }
  | .norsync => .ok { coll with options := coll.options ||| CO_NORSYNC }

/-! ## The parser -/

structure Globals where
  colls : List Coll
  curColl : Coll
  defaults : Coll

/-- What `config_init` starts the parser with. -/
def Globals.init (umask : BitVec 32) : Globals :=
  let defaults := { collNew none with umask }
  ⟨[], collNew (some defaults), defaults⟩

/-- `coll_setdef` -/
def collSetdef (g : Globals) : Globals :=
  { g with defaults := g.curColl, curColl := collNew (some g.curColl) }

section

variable (ovcoll : Coll) (ovmask : BitVec 32)

/-- `coll_add` -/
def collAdd (name : List Byte) (g : Globals) : Except Exit Globals :=
  let coll := collOverride { g.curColl with name := some name } ovcoll ovmask
  if coll.release = none then .error .release
  else if coll.host = none then .error .host
  else if g.colls.getLast?.any (·.host ≠ coll.host) then .error .hosts
  else .ok ⟨g.colls ++ [coll], collNew (some g.defaults), g.defaults⟩

/-- What options are read for. -/
inductive Head
  | default
  | coll (name : List Byte)

/-- The action of a line, when its options have been read. -/
def reduce (g : Globals) : Head → Except Exit Globals
  | .default => .ok (collSetdef g)
  | .coll name => collAdd ovcoll ovmask name g

/-- `yyparse`; a line that has begun is reduced at any other token than those of an option. -/
def yyparse : Option Head → Globals → List Token → Except Exit Globals
  | none, g, [] => .ok g
  | some head, g, [] => reduce ovcoll ovmask g head
  | none, g, .default :: ts => yyparse (some .default) g ts
  | none, g, .string name :: ts => yyparse (some (.coll name)) g ts
  | none, _, _ :: _ => .error .parse
  | some head, g, .boolean i :: ts => do
    let coll ← collSetopt g.curColl i []
    yyparse (some head) { g with curColl := coll } ts
  | some head, g, .name i :: .equal :: .string value :: ts => do
    let coll ← collSetopt g.curColl i value
    yyparse (some head) { g with curColl := coll } ts
  | some _, _, .name _ :: _ => .error .parse
  | some head, g, .default :: ts => do
    let g ← reduce ovcoll ovmask g head
    yyparse (some .default) g ts
  | some head, g, .string name :: ts => do
    let g ← reduce ovcoll ovmask g head
    yyparse (some (.coll name)) g ts
  | some head, g, .equal :: _ => do
    let _ ← reduce ovcoll ovmask g head
    .error .parse

end

/-! ## The command line -/

/-- The options of the command line that have to do with collections. -/
inductive CmdArg
  | base (s : List Byte)
  | colldir (s : List Byte)
  | host (s : List Byte)
  | accept (pattern : List Byte)
  | keepbadfiles
  | truststatusfile
  | compress
  | nocompress
  deriving DecidableEq

def overrideArg (o : Coll × BitVec 32) : CmdArg → Coll × BitVec 32
  | .base s => ({ o.1 with base := some s }, o.2)
  | .colldir s => ({ o.1 with colldir := some s }, o.2)
  | .host s => ({ o.1 with host := some s }, o.2)
  | .accept pattern => ({ o.1 with accepts := o.1.accepts ++ [pattern] }, o.2)
  | .keepbadfiles =>
    ({ o.1 with options := o.1.options ||| CO_KEEPBADFILES }, o.2 ||| CO_KEEPBADFILES)
  | .truststatusfile =>
    ({ o.1 with options := o.1.options ||| CO_TRUSTSTATUSFILE }, o.2 ||| CO_TRUSTSTATUSFILE)
  | .compress => ({ o.1 with options := o.1.options ||| CO_COMPRESS }, o.2 ||| CO_COMPRESS)
  | .nocompress => ({ o.1 with options := o.1.options &&& ~~~CO_COMPRESS }, o.2 &&& ~~~CO_COMPRESS)

/-- `override` and `overridemask`, as `main` makes them. -/
def override (args : List CmdArg) : Coll × BitVec 32 := args.foldl overrideArg (collNew none, 0)

/-! ## Status files -/

/-- `coll_statussuffix`; `none` is a suffix that is not initialized. -/
def collStatussuffix (coll : Coll) : Option (Option (List Byte)) :=
  match coll.listsuffix with
  | some listsuffix => some (some (46 :: listsuffix))
  | none =>
    if has coll.options CO_USERELSUFFIX then
      let tag := coll.tag.getD [46]
      match coll.release with
      | some release =>
        if has coll.options CO_CHECKOUTMODE then some (some (46 :: release ++ 58 :: tag))
        else some (some (46 :: release))
      | none => if has coll.options CO_CHECKOUTMODE then some (some (58 :: tag)) else none
    else some none

/-- The directory of a collection: `co_colldir`, which may be in the base directory. -/
def supdir (coll : Coll) : List Byte :=
  let colldir := coll.colldir.getD []
  if colldir.head? = some 47 then colldir else coll.base.getD [] ++ 47 :: colldir

/-- `coll_statuspath` -/
def collStatuspath (coll : Coll) : Option (List Byte) :=
  (collStatussuffix coll).map fun suffix =>
    supdir coll ++ 47 :: (coll.name.getD [] ++ bytes "/checkouts".toList ++ suffix.getD [])

/-! ## Refuse files -/

def blank (b : Byte) : Bool := b = 32 || b = 9

/-- The patterns of a line. -/
def patterns : List Byte → List (List Byte)
  | [] => []
  | b :: s =>
    if blank b then patterns s
    else (b :: s.takeWhile (!blank ·)) :: patterns (s.dropWhile (!blank ·))
termination_by s => s.length
decreasing_by
  all_goals rw [List.length_cons]
  · exact Nat.lt_succ_self _
  · exact Nat.lt_succ_of_le (List.length_dropWhile_le _ _)

/-- What is at the path of a refuse file: nothing that can be opened, or the bytes that are read and
whether they are all. -/
abbrev Reads := List Byte → Option (List Byte × Bool)

variable (reads : Reads)

/-- `config_parse_refusefile`; `none` where it returns -1. -/
def configParseRefusefile (coll : Coll) (path : List Byte) : Option Coll :=
  match reads path with
  | none => some coll
  | some (content, all) =>
    if all then
      some { coll with
        refusals := coll.refusals ++ (splitLines nl content).flatMap fun l => patterns (cline l) }
    else none

/-- `config_parse_refusefiles`; `none` also where the suffix is not initialized. -/
def configParseRefusefiles (coll : Coll) : Option Coll := do
  let coll ← configParseRefusefile reads coll (supdir coll ++ bytes "/refuse".toList)
  let collstem := supdir coll ++ 47 :: (coll.name.getD [] ++ bytes "/refuse".toList)
  let coll ← configParseRefusefile reads coll collstem
  match ← collStatussuffix coll with
  | none => return coll
  | some suffix => configParseRefusefile reads coll (collstem ++ suffix)

/-! ## `config_init` -/

/-- The prefix of a collection with that base. -/
def prefixOf (base : List Byte) : Option (List Byte) → List Byte
  | none => base
  | some pre =>
    if pre.head? = some 47 then pre
    else if base ≠ [] ∧ base.getLast? ≠ some 47 then base ++ 47 :: pre else base ++ pre

/-- What is filled in for a collection behind the parser. -/
def fixup (coll : Coll) : Coll :=
  let base := coll.base.getD (bytes "/usr/local/etc/cvsup".toList)
  let options :=
    if has coll.options CO_EXACTRCS then coll.options ||| CO_CHECKRCS
    else coll.options &&& ~~~CO_CHECKRCS
  { coll with
    base := some base
    colldir := some (coll.colldir.getD (bytes "sup".toList))
    pre := some (prefixOf base coll.pre)
    options := options ||| CO_SETMODE ||| CO_NORSYNC }

/-- `config_init` for a supfile that can be opened; `none` where it returns `NULL`. -/
def configInit (umask : BitVec 32) (ovcoll : Coll) (ovmask : BitVec 32) (content : List Byte) :
    Except Exit (Option (List Coll)) := do
  let g ← yyparse ovcoll ovmask none (.init umask) (tokens content)
  if g.colls = [] then return none
  else return g.colls.mapM fun coll => configParseRefusefiles reads (fixup coll)

/-- `config_checkcolls`: a collection whose prefix is no directory is skipped. -/
def configCheckcolls (isdir : List Byte → Bool) (colls : List Coll) : List Coll × Nat :=
  (colls.map fun coll =>
    if isdir (coll.pre.getD []) then coll else { coll with options := coll.options ||| CO_SKIP },
    colls.countP fun coll => isdir (coll.pre.getD []))

end Csup.Config
