import Csup.Fattr.Inside
import Csup.Proto.Tokens
import Csup.Proto.Words
import Csup.Updater.Docoll

/-!
# The lines of the server

What becomes of a line where the client expects a command: in `updater_docoll`, in
`detailer_batch` and `detailer_coll`, in `proto_xchgcoll` and in `proto_greet`. The line
is what `stream_getln` returns, NULL at the end of the stream.

A command is a number of fields and what is asked of them, in the order of the source,
before it is carried out (`Case`). The pointers are `Option`s: the code reads all the
fields, looks at the last one, and hands all of them to string functions.
-/

namespace Csup.Server

open Csup.Attrs (decodeAt Ids)
open Csup.Diff (Line)
open Csup.Docoll (Collection checkoutpath)
open Csup.Framework (Cells)
open Csup.Keyword (keywordDecodeExpand Tag)
open Csup.Misc (Tm rcsdatetotm)
open Csup.Proto
open Csup.Updater (Path cvspath)

/-- What goes wrong: a string function gets a null pointer, an assertion fails, or memory
outside of a string is used. -/
inductive Fault
  | null | assertion | outside
  deriving DecidableEq

/-- What becomes of a line. A command is carried out with its fields and with the paths
it has made of them. -/
inductive Outcome
  | rejected
  | ended
  | executed (fields : List (List Byte)) (paths : List (Option Path))
  | fault (f : Fault)

/-- What the client has when it reads the line. -/
structure Setting where
  coll : Collection
  /-- `co_name` -/
  name : List Byte
  /-- `co_release` -/
  release : List Byte
  fflags : Bool
  ids : Ids
  /-- `timegm`; `none` is -1. -/
  timegm : Tm → Option (BitVec 64)
  /-- `updater_delete` does not return 0. -/
  stops : Bool

variable (env : Setting)

/-! ## What is asked of the fields -/

/-- `destpath` as `fup_prepare` makes it, and the path of `detailer_send_co` and of
`detailer_checkrcsattr`. -/
def destpath (name : List Byte) (attic : Bool) : Option Path :=
  if env.coll.checkoutmode then checkoutpath env.coll.pre name
  else some (cvspath env.coll.pre name attic)

/-- What is done before a command is carried out. A field is named by its place; a path is
made of the first one. -/
inductive Step
  /-- `fattr_decode` -/
  | decode (attr : Nat)
  | path (attic : Bool)
  /-- The path, and no look at what `fup_prepare` returns. -/
  | pathUnasked
  /-- `updater_delete` -/
  | delete
  /-- `keyword_decode_expand` -/
  | expand (mode : Nat)
  /-- `rcsdatetotime` -/
  | date (revdate : Nat)
  /-- The assertion of `detailer_checkrcsattr`. -/
  | cvsmode
  | equal (field : Nat) (s : List Byte)
  /-- `proto_get_int` -/
  | int (field : Nat)
  /-- `proto_get_time` -/
  | time (field : Nat)
  /-- The search of `keyword_alias`. -/
  | key (rcskey : Nat)
  /-- The search of `keyword_enable` and `keyword_disable`. -/
  | keys (ident : Nat)

/-- How that comes out. A deletion that does not return 0 is the end of a command. -/
inductive Verdict
  | pass | reject | stop
  | fault (f : Fault)
  deriving DecidableEq

def ensure (b : Bool) : Verdict := if b then .pass else .reject

/-- A keyword of that name is in the table. -/
def known (tags : List Tag) (ident : List Byte) : Bool := tags.any (·.ident = ident)

/-- A number that is a whole field. -/
def isTime (s : List Byte) : Bool :=
  match strtoll 10 s with
  | (_, [], false) => true
  | _ => false

variable (fields : List (List Byte))

def field (i : Nat) : List Byte := fields.getD i []

def Step.verdict : Step → Verdict
  | .decode attr =>
    match decodeAt env.fflags env.ids (Cells.terminated (field fields attr)) with
    | none => .fault .outside
    | some (_, fa) => ensure fa.isSome
  | .path attic => ensure (destpath env (field fields 0) attic).isSome
  -- `tempname` gets the path
  | .pathUnasked => if (destpath env (field fields 0) false).isSome then .pass else .fault .null
  | .delete => if env.stops then .stop else .pass
  | .expand mode => ensure (keywordDecodeExpand (field fields mode)).isSome
  | .date revdate => ensure ((rcsdatetotm (field fields revdate)).bind env.timegm).isSome
  | .cvsmode => if env.coll.checkoutmode then .fault .assertion else .pass
  | .equal i s => ensure (field fields i = s)
  | .int i => ensure (asciitoint 10 (field fields i)).isSome
  | .time i => ensure (isTime (field fields i))
  | .key rcskey => ensure (known env.coll.keyword.keywords (field fields rcskey))
  | .keys ident =>
    ensure (field fields ident = [46] || known env.coll.keyword.keywords (field fields ident))

/-- The path that a step makes. -/
def Step.paths : Step → List (Option Path)
  | .path attic => [destpath env (field fields 0) attic]
  | .pathUnasked => [destpath env (field fields 0) false]
  | _ => []

/-- The steps of a command, one after the other. -/
def run : List (Option Path) → List Step → Outcome
  | paths, [] => .executed fields paths
  | paths, step :: steps =>
    match step.verdict env fields with
    | .pass => run (step.paths env fields ++ paths) steps
    | .reject => .rejected
    | .stop => .executed fields paths
    | .fault f => .fault f

/-! ## A command -/

/-- A number of fields, the last of which is looked at, and what is asked of them. -/
structure Arm where
  fields : Nat
  steps : List Step
  pos : 0 < fields

/-- A case of a switch: a number of fields; the rest of the line (`proto_get_rest`); or
fields that may be missing. -/
inductive Case
  | arm (a : Arm)
  | rest
  | upTo (n : Nat)

def arm (n : Nat) [NeZero n] (steps : List Step) : Option Case :=
  some (.arm ⟨n, steps, Nat.pos_of_neZero n⟩)

/-- A case on what is behind the command; `none` is the default. -/
def perform : Option Case → Option (List Byte) → Outcome
  | none, _ => .rejected
  | some (.arm a), line =>
    let (rets, line) := getAsciis a.fields line
    if rets.getLast? = some none ∨ line ≠ none then .rejected
    else if none ∈ rets then .fault .null
    else run env rets.reduceOption [] a.steps
  -- `msg` is unescaped before it is looked at
  | some .rest, none => .fault .null
  | some .rest, some msg => .executed [protoUnescape msg] []
  | some (.upTo n), line => .executed (getAsciis n line).1.reduceOption []

/-- `proto_get_char` with its assertion. -/
def getChar (line : Option (List Byte)) : Except Fault (Option Byte × Option (List Byte)) :=
  if (protoGetAscii line).1 = some [] then .error .assertion else .ok (protoGetChar line)

/-! ## `updater_docoll` -/

/-- The switch of `updater_docoll`. -/
def docollCase (cmd : Byte) : Option Case :=
  match Char.ofNat cmd.toNat with
  | 'T' => arm 6 [.decode 5, .path false]           -- name tag date revnum revdate attr
  | 'c' => arm 4 [.path false, .delete, .decode 3]  -- name tag date attr
  | 'U' => arm 9 [.decode 7, .expand 6, .path false]  -- name tag date - - - expand attr wantmd5
  | 'u' => arm 4 [.path false, .delete, .decode 3]
  | 'C' => arm 6 [.decode 5, .date 4, .path false]
  | 'Y' => arm 6 [.decode 5, .date 4, .path false]
  | 'D' => arm 1 [.path false]
  | 'A' => arm 2 [.path false, .decode 1]           -- name attr
  | 'a' => arm 2 [.path true, .decode 1]
  | 'R' => arm 2 [.path false, .decode 1]
  | 'r' => arm 4 [.path false, .decode 1]           -- name attr blocksize wantmd5
  | 'I' => arm 1 [.path false]
  | 'i' => arm 1 [.path false]
  | 'J' => arm 2 [.path false, .decode 1]
  | 'j' => arm 1 [.path false]
  | 'L' => arm 2 [.decode 1]
  | 'l' => arm 2 [.decode 1]
  | 'N' => arm 2 [.path false, .decode 1]
  | 'n' => arm 2 [.path true, .decode 1]
  | 'V' => arm 4 [.path false, .decode 1]           -- name attr rcsopt wantmd5
  | 'v' => arm 4 [.path true, .decode 1]
  | 'X' => arm 2 [.path false, .decode 1]
  | 'x' => arm 2 [.path true, .decode 1]
  | 'Z' => arm 3 [.pathUnasked, .decode 1]          -- name attr pos
  | '!' => some .rest
  | _ => none

/-- A line in the loop of `updater_docoll`. -/
def docoll : Option Line → Outcome
  | none => .rejected
  | some line =>
    match getChar (some (cline line)) with
    | .error f => .fault f
    | .ok (cmd, rest) =>
      if cmd = some 46 ∧ rest = none then .ended else perform env (cmd.bind docollCase) rest

/-! ## `detailer.c` -/

/-- The switch of `detailer_coll`. -/
def detailerCase (cmd : Byte) : Option Case :=
  match Char.ofNat cmd.toNat with
  | 'D' => arm 1 []
  | 'I' => arm 1 []
  | 'i' => arm 1 []
  | 'j' => arm 1 []
  | 'J' => arm 2 []                                 -- file attr
  | 'H' => arm 2 []                                 -- file target
  | 'h' => arm 2 []
  | 't' => arm 2 [.decode 1, .cvsmode, .path true]  -- file attr
  | 'T' => arm 2 [.decode 1, .cvsmode, .path false]
  | 'U' => arm 1 [.path false]
  | '!' => some .rest
  | _ => none

/-- A line in the loop of `detailer_coll`. -/
def detailerColl : Option Line → Outcome
  | none => .rejected
  | some line =>
    if cline line = [46] then .ended
    else match getChar (some (cline line)) with
      | .error f => .fault f
      | .ok (cmd, rest) => perform env (cmd.bind detailerCase) rest

def detailerHeaderCase : Option Case :=
  arm 4 [.time 3, .equal 0 (bytes "COLL".toList), .equal 1 env.name, .equal 2 env.release]

/-- The line of a collection in `detailer_batch`, which may be NULL. -/
def detailerHeader (line : Option Line) : Outcome :=
  perform env (detailerHeaderCase env) (line.map cline)

/-- The line behind the last collection in `detailer_batch`. -/
def detailerEnd : Option Line → Outcome
  | none => .rejected
  | some line => if cline line = [46] then .ended else .rejected

/-! ## `proto.c` -/

/-- The commands of `proto_xchgcoll`. -/
def xchgCase (cmd : List Byte) : Option Case :=
  if cmd = bytes "!".toList then some .rest
  else if cmd = bytes "PRFX".toList then arm 1 []
  else if cmd = bytes "KEYALIAS".toList then arm 2 [.key 1]
  else if cmd = bytes "KEYON".toList then arm 1 [.keys 0]
  else if cmd = bytes "KEYOFF".toList then arm 1 [.keys 0]
  else if cmd = bytes "NORS".toList then arm 1 []
  else if cmd = bytes "RNORS".toList then arm 1 []
  else none

/-- A line in the loop of `proto_xchgcoll`. -/
def xchgcoll : Option Line → Outcome
  | none => .rejected
  | some line =>
    if cline line = [46] then .ended
    else match protoGetAscii (some (cline line)) with
      | (cmd, rest) => perform env (cmd.bind xchgCase) rest

def xchgHeaderCase : Option Case :=
  arm 4 [.int 3, .equal 0 (bytes "COLL".toList), .equal 1 env.name, .equal 2 env.release]

/-- The line of a collection in `proto_xchgcoll`. -/
def xchgHeader : Option Line → Outcome
  | none => .rejected
  | some line => perform env (xchgHeaderCase env) (some (cline line))

/-- The greetings: behind `OK` come two numbers, which are dropped, and the version of the
server, which may be missing. -/
def greetCase (cmd : List Byte) : Option Case :=
  if cmd = bytes "OK".toList then some (.upTo 3)
  else if cmd = bytes "!".toList then some .rest
  else none

/-- The line of `proto_greet`, which may be NULL. -/
def greet (line : Option Line) : Outcome :=
  match protoGetAscii (line.map cline) with
  | (cmd, rest) => perform env (cmd.bind greetCase) rest

/-! ## All of them -/

/-- Where a line is expected. -/
inductive Place
  | docoll | detailerHeader | detailerColl | detailerEnd | xchgHeader | xchgcoll | greet

def outcome : Place → Option Line → Outcome
  | .docoll => docoll env
  | .detailerHeader => detailerHeader env
  | .detailerColl => detailerColl env
  | .detailerEnd => detailerEnd
  | .xchgHeader => xchgHeader env
  | .xchgcoll => xchgcoll env
  | .greet => greet env

end Csup.Server
