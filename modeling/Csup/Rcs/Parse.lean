import Csup.Framework.Scan
import Csup.Rcs.Defs
import Csup.Rcs.Lex

/-!
# The parser of RCS files: `rcsparse.c`

`parse_admin` and `parse_deltas` on the bytes of a file. A token comes with its bytes, which
stay where they are. What is done with an entry of `parse_deltas` is a parameter: the file
that is built depends on how it is opened.

The parser returns -1 (`Stop.error`), or it reads outside of the file, or it looks into a
token or a delta that is not there (`Stop.absent`), or one of its loops is not done after as many
rounds as the file has bytes (`Stop.spins`).
-/

namespace Csup.Rcsparse

open Csup.Framework Csup.Keyword Csup.Lexer
open Csup.Rcs (DeltaEntry)

inductive Stop
  | error | outside | absent | spins
  deriving DecidableEq

abbrev Parser (α : Type) := Scan Rcslex Stop α

/-! ## Tokens -/

/-- A `struct rcstok`, with its bytes. -/
structure Tok where
  type : TokType
  text : List Byte

/-- `rcslex_get` -/
def rcslexGet : Parser (Option Tok) := fun lex =>
  match lex.get with
  | .error _ => .error .outside
  | .ok (none, lex') => .ok (none, lex')
  | .ok (some tok, lex') =>
    if tok.value + tok.len ≤ lex.data.length then .ok (some ⟨tok.type, lex.value tok⟩, lex')
    else .error .outside

/-- `rcslex_unget` of the last token. -/
def rcslexUnget (tok : Tok) : Parser Unit := fun lex =>
  if tok.text.length ≤ lex.offset then
    .ok ((), { lex with offset := lex.offset - tok.text.length })
  else .error .outside

/-- `return (-1)` where there is none. -/
def need {α : Type} (m : Parser (Option α)) : Parser α := do
  match ← m with
  | some a => return a
  | none => throw .error

/-- `rcslex_want`, of a token that `p` holds of -/
def rcslexWant (p : Tok → Bool) : Parser (Option Tok) := do
  return (← rcslexGet).filter p

/-- `rcstok_is_kw` -/
def Tok.isKw (tok : Tok) (kw : List Byte) : Bool := decide (tok.type = .id) && decide (tok.text = kw)

/-- `rcstok_validate_num` -/
def Tok.validateNum (tok : Tok) : Bool :=
  decide (tok.type = .id) && tok.text.all fun c => isdigit c || decide (c = dot)

/-- `isprint` -/
def isprint (c : Byte) : Bool := 32 ≤ c && c < 127

/-- `rcstok_validate_id` -/
def Tok.validateId (tok : Tok) : Bool :=
  decide (tok.type = .id) &&
    (tok.text.all fun c => !decide (c ∈ 0 :: bytes "$,:;@".toList) && isprint c) &&
    tok.text.any fun c => !isdigit c && !decide (c = dot)

def wantKw (kw : String) : Parser (Option Tok) := rcslexWant fun tok => tok.isKw (bytes kw.toList)

def wantType (type : TokType) : Parser (Option Tok) := rcslexWant fun tok => decide (tok.type = type)

/-- `rcslex_get_num` -/
def getNum : Parser (Option (List Byte)) := do
  return ((← wantType .id).filter Tok.validateNum).map Tok.text

/-- `rcslex_get_id` -/
def getId : Parser (Option (List Byte)) := do
  return ((← wantType .id).filter Tok.validateId).map Tok.text

/-- `rcslex_get_string` -/
def getString : Parser (Option (List Byte)) := do
  return (← wantType .string).map Tok.text

/-- A loop that takes a token in each of its rounds, but for the first and the last. -/
def loop {β γ : Type} (body : β → Parser (β ⊕ γ)) (b : β) : Parser γ := fun lex =>
  Scan.rounds .spins body (lex.data.length + 2) b lex

/-- `tok == NULL || tok->type != RCSLEX_SCOLON` -/
def endsPhrase : Option Tok → Parser Unit
  | some tok => if tok.type = .scolon then pure () else throw .error
  | none => throw .error

/-- The rest of a new phrase. -/
def skipPhrase : Parser Unit :=
  loop (fun _ => do
    let tok ← rcslexGet
    if tok.any fun t => t.type ≠ .scolon then return .inl ()
    else
      endsPhrase tok
      return .inr ()) ()

/-- `while ((tok = rcslex_get(lex)) != NULL && tok->type == RCSLEX_ID)`, with the token that
ended it. A round may end it as well. -/
def eachId {β : Type} (body : β → Tok → Parser (β ⊕ β)) : β → Parser (β × Option Tok) :=
  loop fun b => do
    match ← rcslexGet with
    | none => return .inr (b, none)
    | some tok =>
      if tok.type = .id then
        match ← body b tok with
        | .inl b => return .inl b
        | .inr b => return .inr (b, some tok)
      else return .inr (b, some tok)

/-- A list of the admin part, up to its semicolon. -/
def listOf {β : Type} (body : β → Tok → Parser β) (b : β) : Parser β := do
  let (b, tok) ← eachId (fun b tok => do return .inl (← body b tok)) b
  endsPhrase tok
  return b

/-! ## The admin part -/

/-- The fields of `struct rcsfile` that `parse_admin` sets. -/
structure Admin where
  head : Revnum
  branch : Option Revnum
  accesslist : List (List Byte)
  taglist : List (List Byte × Revnum)
  strictlock : Bool
  comment : Option (List Byte)
  expand : Expand
  deriving DecidableEq

/-- `head {num};` -/
def parseHead : Parser Revnum := do
  let _ ← need (wantKw "head")
  let num ← need getNum
  let _ ← need (wantType .scolon)
  return num

/-- `{ branch {num}; }`, and the token behind it -/
def parseBranch : Parser (Option Revnum × Option Tok) := do
  let tok ← need (wantType .id)
  if tok.isKw (bytes "branch".toList) then
    let num ← need getNum
    let _ ← need (wantType .scolon)
    let tok ← rcslexGet
    return (some num, tok)
  else return (none, some tok)

/-- `access {id}*;`. The first token is looked at without a test for `NULL`. -/
def parseAccess : Option Tok → Parser (List (List Byte))
  | none => throw .absent
  | some tok =>
    if tok.isKw (bytes "access".toList) then
      listOf (fun ids id => return ids ++ [id.text]) []
    else throw .error

/-- `symbols {sym : num}*;` -/
def parseSymbols : Parser (List (List Byte × Revnum)) := do
  let _ ← need (wantKw "symbols")
  listOf (fun tags sym => do
    let _ ← need (wantType .colon)
    let num ← need getNum
    return tags ++ [(sym.text, num)]) []

/-- `locks {id : num}*;`, which are skipped -/
def parseLocks : Parser Unit := do
  let _ ← need (wantKw "locks")
  listOf (fun _ _ => do
    let _ ← need (wantType .colon)
    let _ ← need (wantType .id)) ()

/-- What may follow, one phrase; another token is put back. -/
def parseOption (adm : Admin) (tok : Tok) : Parser (Admin ⊕ Admin) := do
  if tok.isKw (bytes "strict".toList) then
    let _ ← need (wantType .scolon)
    return .inl { adm with strictlock := true }
  else if tok.isKw (bytes "comment".toList) then
    let str ← need getString
    let _ ← need (wantType .scolon)
    return .inl { adm with comment := some str }
  else if tok.isKw (bytes "expand".toList) then
    let str ← need getString
    let expand ← need (pure (keywordDecodeExpand (cstr str)))
    let _ ← need (wantType .scolon)
    return .inl { adm with expand }
  else if tok.validateId then
    skipPhrase
    return .inl adm
  else
    rcslexUnget tok
    return .inr adm

/-- `parse_admin` -/
def parseAdmin : Parser Admin := do
  let head ← parseHead
  let (branch, tok) ← parseBranch
  let accesslist ← parseAccess tok
  let taglist ← parseSymbols
  parseLocks
  let (adm, _) ← eachId parseOption ⟨head, branch, accesslist, taglist, false, none, .default⟩
  return adm

/-! ## Deltas -/

/-- `{num}*`, from a token on, with the one that ends them. -/
def skipNums : Option Tok → Parser (Option Tok) :=
  loop fun tok => do
    if tok.any Tok.validateNum then return .inl (← rcslexGet) else return .inr tok

/-- A token that need not be there, and the one behind it. -/
def optional (valid : Tok → Bool) (tok : Tok) : Parser (Option (List Byte) × Option Tok) := do
  if valid tok then return (some tok.text, ← rcslexGet) else return (none, some tok)

/-- `{ newphrase }*` up to the keyword `kw`, from a token on, with the one that ends them. -/
def skipPhrases (kw : String) : Option Tok → Parser (Option Tok) :=
  loop fun tok => do
    if tok.any fun t => !t.isKw (bytes kw.toList) && t.validateId then
      skipPhrase
      return .inl (← rcslexGet)
    else return .inr tok

/-- An entry of `parse_deltas`, behind its number, and the token behind it. -/
def parseDelta (revnum : Revnum) : Parser (DeltaEntry × Tok) := do
  let _ ← need (wantKw "date")
  let revdate ← need getNum
  let _ ← need (wantType .scolon)
  let _ ← need (wantKw "author")
  let author ← need getId
  let _ ← need (wantType .scolon)
  let _ ← need (wantKw "state")
  let (state, tok) ← optional Tok.validateId (← need rcslexGet)
  endsPhrase tok
  let _ ← need (wantKw "branches")
  endsPhrase (← skipNums (some (← need rcslexGet)))
  let _ ← need (wantKw "next")
  let (next, tok) ← optional Tok.validateNum (← need rcslexGet)
  endsPhrase tok
  let tok ← need (skipPhrases "desc" (← rcslexGet))
  return (⟨revnum, revdate, author, state, next⟩, tok)

section

variable {ρ : Type} (importdelta : ρ → DeltaEntry → Except Stop ρ)

/-- One round of `parse_deltas`. -/
def deltaRound : Option Tok × ρ → Parser ((Option Tok × ρ) ⊕ ρ)
  | (none, rf) => return .inr rf
  | (some tok, rf) => do
    if tok.validateNum then
      let (entry, tok) ← parseDelta tok.text
      let rf ← liftM (importdelta rf entry)
      return .inl (some tok, rf)
    else
      -- the end of the deltas
      rcslexUnget tok
      return .inr rf

/-- `parse_deltas` -/
def parseDeltas (rf : ρ) : Parser ρ := do
  let tok ← rcslexGet
  loop (deltaRound importdelta) (tok, rf)

/-- The parser behind the deltas, where `parse_deltatexts` is `texts`. -/
def parseRest (texts : ρ → Parser ρ) (rf : ρ) : Parser ρ := do
  let _ ← need (wantKw "desc")
  let _ ← need getString
  texts rf

def parseFile (start : Revnum → ρ) (texts : ρ → Parser ρ) : Parser (Admin × ρ) := do
  let adm ← parseAdmin
  let rf ← parseDeltas importdelta (start adm.head)
  let rf ← parseRest texts rf
  return (adm, rf)

/-- `rcsparse` of a file with these bytes -/
def rcsparse (start : Revnum → ρ) (texts : ρ → Parser ρ) (content : List Byte) :
    Except Stop (Admin × ρ) :=
  match rcslexNew content with
  | none => .error .error
  | some lex => (parseFile importdelta start texts lex).map Prod.fst

end

end Csup.Rcsparse
