import Csup.Config.Defs
import Csup.Framework.Settings
import Csup.Globtree.Filters
import Csup.Keyword.Table
import Csup.Proto.Tokens
import Csup.Proto.Words
import Csup.Server.Lines

/-!
# The exchange of collection information: `proto_xchgcoll`

The server answers for each collection, in the order of the collections, with the options, the
keywords and the patterns of the files that are not sent by rsync. The collections are kept when a
session fails and the next one is tried: it starts from what the server said in the session before.

* `serve_iff_executed`, `replyHead_iff_executed`: a line is accepted where `Csup.Server` has it
  carried out;
* `exchanges_kept`: what no server changes, in any number of sessions;
* `xchgEntry_again_iff`: when the answer of the session before is accepted once more, which is
  not always so: `keyword_prepare` has removed what the server has disabled;
* `xchgEntry_again`: what it leaves then.
-/

namespace Csup.Exchange

open Csup.Config Csup.Keyword Csup.Globtree
open Csup.Proto (getAsciis line_cases protoGetAscii protoGetAscii_empty protoGetAscii_field
  protoGetAscii_last protoGetInt protoUnescape subset_rest zero_notMem_cline
  zero_notMem_protoUnescape)
open Csup.Framework (lastValue lastValue_cons)

variable {R : Type*} {m : Matchers R}

/-! ## Options -/

/-- Options that the server is allowed to set. -/
def CO_SERVMAYSET : BitVec 32 := CO_SKIP ||| CO_NORSYNC ||| CO_NORCS

/-- Options that the server is allowed to clear. -/
def CO_SERVMAYCLEAR : BitVec 32 := CO_CHECKRCS

def CO_SETOWNER : BitVec 32 := 0x00008000#32
def CO_SETFLAGS : BitVec 32 := 0x00020000#32

def FA_OWNER : BitVec 32 := 0x0020#32
def FA_GROUP : BitVec 32 := 0x0040#32
def FA_MODE : BitVec 32 := 0x0080#32
def FA_FLAGS : BitVec 32 := 0x0100#32
def FA_DEV : BitVec 32 := 0x0400#32
def FA_INODE : BitVec 32 := 0x0800#32

/-- The options behind an answer with the options `said`. -/
def served (options said : BitVec 32) : BitVec 32 :=
  (options ||| (said &&& CO_SERVMAYSET)) &&& ~~~(~~~said &&& CO_SERVMAYCLEAR)

/-- The attributes that are not synchronized. -/
def ignored (options : BitVec 32) : BitVec 32 :=
  (if has options CO_SETOWNER then 0 else FA_OWNER ||| FA_GROUP) |||
    (if has options CO_SETMODE then 0 else FA_MODE) |||
    (if has options CO_SETFLAGS then 0 else FA_FLAGS)

/-! ## Answers -/

/-- A `struct coll`, with the fields that an exchange writes. -/
structure Entry (m : Matchers R) where
  coll : Coll
  keyword : Keywords
  cvsroot : Option (List Byte)
  norsync : Expr m.withFnmatch
  dirfilter : Expr m.withFnmatch
  filefilter : Expr m.withFnmatch
  attrignore : BitVec 32

/-- A collection in front of the first session, as `coll_new` leaves these fields. The trees are
`NULL` then, and not read before an exchange makes them. -/
def newEntry (m : Matchers R) (behind : Nat → Byte) (coll : Coll) : Entry m where
  coll
  keyword := keywordNew behind
  cvsroot := none
  norsync := .false
  dirfilter := .false
  filefilter := .false
  attrignore := FA_DEV ||| FA_INODE

inductive Cmd
  /-- `!` -/
  | message (text : List Byte)
  | prfx (path : List Byte)
  | keyword (c : Setup)
  /-- `NORS` and `RNORS` -/
  | nors (pat : List Byte) (flags : Nat)

/-- One more field, the last one. -/
def lastField (rest : Option (List Byte)) : Option (List Byte) :=
  match protoGetAscii rest with
  | (some word, none) => some word
  | _ => none

/-- The command on a line; `none` where the source goes to `bad`. A `!` alone has no text, and the
source reads through `NULL` then. -/
def readCmd (line : List Byte) : Option Cmd :=
  match protoGetAscii (some line) with
  | (none, _) => none
  | (some cmd, rest) =>
    if cmd = bytes "!".toList then rest.map fun text => .message (protoUnescape text)
    else if cmd = bytes "PRFX".toList then (lastField rest).map .prfx
    else if cmd = bytes "KEYALIAS".toList then
      match protoGetAscii rest with
      | (none, _) => none
      | (some ident, rest) => (lastField rest).map fun rcskey => .keyword (.keyalias ident rcskey)
    else if cmd = bytes "KEYON".toList then
      (lastField rest).map fun ident => .keyword (.keyon ident)
    else if cmd = bytes "KEYOFF".toList then
      (lastField rest).map fun ident => .keyword (.keyoff ident)
    else if cmd = bytes "NORS".toList then (lastField rest).map (.nors · FNM_PATHNAME)
    else if cmd = bytes "RNORS".toList then
      (lastField rest).map (.nors · (FNM_PATHNAME ||| FNM_LEADING_DIR))
    else none

/-- What a command does to a collection. -/
def serve (behind : Nat → Byte) (e : Entry m) : Cmd → Option (Entry m)
  | .message _ => some e
  | .prfx path => some { e with cvsroot := some path }
  | .keyword c => (c.run behind e.keyword).map fun keyword => { e with keyword }
  | .nors pat flags => some { e with norsync := .binary .or e.norsync (.matching pat flags) }

/-- The loop over the lines of an answer; the lines behind its `.` are left. -/
def replyLoop (behind : Nat → Byte) (e : Entry m) :
    List (List Byte) → Option (Entry m × List (List Byte))
  | [] => none
  | line :: lines =>
    if cline line = [46] then some (e, lines)
    else (readCmd (cline line)).bind fun c => (serve behind e c).bind (replyLoop behind · lines)

/-- The options on the first line of an answer. -/
def replyHead (coll : Coll) (line : List Byte) : Option (BitVec 32) :=
  match protoGetAscii (some line) with
  | (cmd, line) =>
    match protoGetAscii line with
    | (collname, line) =>
      match protoGetAscii line with
      | (release, line) =>
        match protoGetInt 10 line with
        | (some options, none) =>
          if cmd = some (bytes "COLL".toList) ∧ collname = coll.name ∧ release = coll.release then
            some (BitVec.ofInt 32 options)
          else none
        | _ => none

/-- Behind the loop: `keyword_prepare`, the filters and the mask of attributes. -/
def finish (e : Entry m) : Entry m :=
  let checkout := has e.coll.options CO_CHECKOUTMODE
  { e with
    keyword := keywordPrepare e.keyword
    dirfilter := Globtree.dirfilter m checkout e.coll.accepts e.coll.refusals
    filefilter := Globtree.filefilter m checkout e.coll.accepts e.coll.refusals
    attrignore := e.attrignore ||| ignored e.coll.options }

/-- The collection in front of the loop. -/
def opened (e : Entry m) (said : BitVec 32) : Entry m :=
  { e with coll := { e.coll with options := served e.coll.options said }, norsync := .false }

/-- The answer for one collection. -/
def xchgEntry (behind : Nat → Byte) (e : Entry m) :
    List (List Byte) → Option (Entry m × List (List Byte))
  | [] => none
  | line :: lines =>
    (replyHead e.coll (cline line)).bind fun said =>
      (replyLoop behind (opened e said) lines).map fun r => (finish r.1, r.2)

variable {behind : Nat → Byte} {e e1 e2 : Entry m} {lines rest rest2 : List (List Byte)}

/-! ## A line for itself -/

section

open Csup.Server (Outcome Setting Step arm field ensure known perform run xchgCase xchgcoll
  xchgHeader xchgHeaderCase)

/-- A line is carried out. -/
def Executed (o : Outcome) : Prop := ∃ fields paths, o = .executed fields paths

theorem performed_one (env : Setting) (steps : List Step) (rest : Option (List Byte)) :
    Executed (perform env (arm 1 steps) rest) ↔
      ∃ w ∈ lastField rest, Executed (run env [w] [] steps) := by
  rcases h : protoGetAscii rest with ⟨- | w, - | r⟩ <;>
    simp [arm, perform, getAsciis, lastField, h, Executed]

theorem protoGetAscii_error {rest r : Option (List Byte)} (h : protoGetAscii rest = (none, r)) :
    r = none := by
  cases rest with
  | none => exact (congrArg Prod.snd h).symm
  | some line =>
    rcases line_cases line with hl | ⟨hne, hf⟩ | ⟨f, t, hne, hf, rfl⟩
    · rw [protoGetAscii_empty hl] at h
      exact (congrArg Prod.snd h).symm
    · rw [protoGetAscii_last hne hf] at h
      cases h
    · rw [protoGetAscii_field hne hf] at h
      cases h

theorem performed_two (env : Setting) (steps : List Step) (rest : Option (List Byte)) :
    Executed (perform env (arm 2 steps) rest) ↔
      ∃ v r, protoGetAscii rest = (some v, r) ∧
        ∃ w ∈ lastField r, Executed (run env [v, w] [] steps) := by
  rcases h : protoGetAscii rest with ⟨- | v, r⟩
  · obtain rfl := protoGetAscii_error h
    have hnull : protoGetAscii none = (none, none) := rfl
    simp [arm, perform, getAsciis, h, hnull, Executed]
  · rcases h' : protoGetAscii r with ⟨- | w, - | r'⟩ <;>
      simp [arm, perform, getAsciis, lastField, h, h', Executed]

theorem known_iff (tags : List Tag) (ident : List Byte) :
    known tags ident ↔ ident ∈ names tags := by
  simp [known, names]

/-- A step that asks something and makes no path. -/
theorem executed_ensure (env : Setting) {fields : List (List Byte)} {step : Step} {b : Bool}
    (h : step.verdict env fields = ensure b) (hp : step.paths env fields = []) (steps : List Step) :
    Executed (run env fields [] (step :: steps)) ↔
      b = true ∧ Executed (run env fields [] steps) := by
  rw [run, h, hp]
  cases b with
  | true => exact (and_iff_right rfl).symm
  | false => exact iff_of_false (by rintro ⟨f, p, h⟩; cases h) (by rintro ⟨h, -⟩; cases h)

theorem executed_run (env : Setting) (fields : List (List Byte)) (step : Step) {b : Bool}
    (h : step.verdict env fields = ensure b) (hp : step.paths env fields = []) :
    Executed (run env fields [] [step]) ↔ b = true := by
  rw [executed_ensure env h hp, and_iff_left ⟨fields, [], rfl⟩]

theorem executed_keys (env : Setting) (ident : List Byte) :
    Executed (run env [ident] [] [.keys 0]) ↔
      ∀ n ∈ (Setup.keyon ident).needs, n ∈ names env.coll.keyword.keywords := by
  have hrun := executed_run env [ident] (.keys 0) rfl rfl
  rw [hrun, Bool.or_eq_true, decide_eq_true_iff, known_iff]
  show ident = [46] ∨ ident ∈ _ ↔ ∀ n ∈ (if ident = [46] then none else some ident), _
  by_cases hdot : ident = [46] <;> simp [hdot]

theorem serve_keyword (behind : Nat → Byte) (e : Entry m) (c : Setup) :
    (∃ e', serve behind e (.keyword c) = some e') ↔
      ∀ n ∈ c.needs, n ∈ names e.keyword.keywords := by
  rw [← run_iff behind]
  show (∃ e', (c.run behind e.keyword).map _ = some e') ↔ _
  cases c.run behind e.keyword <;> simp

/-- The loop goes on behind a line if and only if the line is carried out. -/
theorem serve_iff_executed (env : Setting) (e : Entry m) (hkw : env.coll.keyword = e.keyword)
    {line : List Byte} (hdot : cline line ≠ [46]) :
    (∃ c ∈ readCmd (cline line), ∃ e', serve behind e c = some e') ↔
      Executed (xchgcoll env (some line)) := by
  have hline : xchgcoll env (some line) =
      perform env ((protoGetAscii (some (cline line))).1.bind xchgCase)
        (protoGetAscii (some (cline line))).2 := if_neg hdot
  rw [hline]
  unfold readCmd
  rcases protoGetAscii (some (cline line)) with ⟨- | cmd, rest⟩
  · simp [perform, Executed]
  · simp only [Option.bind_some, xchgCase]
    -- the texts of the commands are the same in both
    by_cases h1 : cmd = bytes "!".toList
    · rw [if_pos h1, if_pos h1]
      cases rest <;> simp [perform, Executed, serve]
    rw [if_neg h1, if_neg h1]
    by_cases h2 : cmd = bytes "PRFX".toList
    · rw [if_pos h2, if_pos h2, performed_one]
      simp [serve, Executed, run]
    rw [if_neg h2, if_neg h2]
    by_cases h3 : cmd = bytes "KEYALIAS".toList
    · rw [if_pos h3, if_pos h3, performed_two]
      rcases h : protoGetAscii rest with ⟨- | v, r⟩
      · simp
      · cases hw : lastField r with
        | none => simp [hw]
        | some w =>
          have hrun := executed_run env [v, w] (.key 1) rfl rfl
          simp [hrun, hw, hkw, field, serve_keyword, Setup.needs, known_iff]
    rw [if_neg h3, if_neg h3]
    by_cases h4 : cmd = bytes "KEYON".toList
    · rw [if_pos h4, if_pos h4, performed_one]
      cases lastField rest with
      | none => simp
      | some ident =>
        have hserve := serve_keyword behind e (.keyon ident)
        have hkeys := hkw ▸ executed_keys env ident
        simp [hserve, hkeys, Setup.needs]
    rw [if_neg h4, if_neg h4]
    by_cases h5 : cmd = bytes "KEYOFF".toList
    · rw [if_pos h5, if_pos h5, performed_one]
      cases lastField rest with
      | none => simp
      | some ident =>
        have hserve := serve_keyword behind e (.keyoff ident)
        have hkeys := hkw ▸ executed_keys env ident
        simp [hserve, hkeys, Setup.needs]
    rw [if_neg h5, if_neg h5]
    by_cases h6 : cmd = bytes "NORS".toList
    · rw [if_pos h6, if_pos h6, performed_one]
      simp [serve, Executed, run]
    rw [if_neg h6, if_neg h6]
    by_cases h7 : cmd = bytes "RNORS".toList
    · rw [if_pos h7, if_pos h7, performed_one]
      simp [serve, Executed, run]
    · rw [if_neg h7, if_neg h7]
      simp [perform, Executed]

theorem replyHead_iff_executed (env : Setting) {coll : Coll} (hname : coll.name = some env.name)
    (hrelease : coll.release = some env.release) (line : List Byte) :
    (∃ said, replyHead coll (cline line) = some said) ↔ Executed (xchgHeader env (some line)) := by
  have hnull : protoGetAscii none = (none, none) := rfl
  unfold xchgHeader xchgHeaderCase
  rcases h1 : protoGetAscii (some (cline line)) with ⟨- | cmd, r1⟩
  · obtain rfl := protoGetAscii_error h1
    simp [replyHead, arm, perform, getAsciis, h1, hnull, Executed]
  rcases h2 : protoGetAscii r1 with ⟨- | name, r2⟩
  · obtain rfl := protoGetAscii_error h2
    simp [replyHead, arm, perform, getAsciis, h1, h2, hnull, Executed]
  rcases h3 : protoGetAscii r2 with ⟨- | release, r3⟩
  · obtain rfl := protoGetAscii_error h3
    simp [replyHead, arm, perform, getAsciis, h1, h2, h3, hnull, Executed]
  rcases h4 : protoGetAscii r3 with ⟨- | int, - | r4⟩
  · simp [replyHead, protoGetInt, arm, perform, getAsciis, h1, h2, h3, h4, Executed]
  · simp [replyHead, protoGetInt, arm, perform, getAsciis, h1, h2, h3, h4, Executed]
  · have hrun : Executed (perform env (arm 4 [.int 3, .equal 0 (bytes "COLL".toList),
        .equal 1 env.name, .equal 2 env.release]) (some (cline line))) ↔
        Executed (run env [cmd, name, release, int] [] [.int 3, .equal 0 (bytes "COLL".toList),
          .equal 1 env.name, .equal 2 env.release]) := by
      simp [arm, perform, getAsciis, h1, h2, h3, h4]
    rw [hrun, executed_ensure env rfl rfl, executed_ensure env rfl rfl, executed_ensure env rfl rfl,
      executed_run env _ _ rfl rfl]
    cases hint : asciitoint 10 int with
    | none => simp [replyHead, protoGetInt, h1, h2, h3, h4, hint, field]
    | some i => simp [replyHead, protoGetInt, h1, h2, h3, h4, hint, field, hname, hrelease]
  · simp [replyHead, protoGetInt, arm, perform, getAsciis, h1, h2, h3, h4, Executed]

end

/-! ## An answer as a list of commands -/

/-- The commands in front of the `.`, and the lines behind it. -/
def replyCmds : List (List Byte) → Option (List Cmd × List (List Byte))
  | [] => none
  | line :: lines =>
    if cline line = [46] then some ([], lines)
    else (readCmd (cline line)).bind fun c => (replyCmds lines).map fun r => (c :: r.1, r.2)

def Cmd.setup : Cmd → Option Setup
  | .keyword c => some c
  | _ => none

def Cmd.root : Cmd → Option (List Byte)
  | .prfx path => some path
  | _ => none

def orNors (t : Expr m.withFnmatch) : Cmd → Expr m.withFnmatch
  | .nors pat flags => .binary .or t (.matching pat flags)
  | _ => t

theorem replyLoop_eq (e : Entry m) (lines : List (List Byte)) :
    replyLoop behind e lines =
      (replyCmds lines).bind fun r => (r.1.foldlM (serve behind) e).map fun e' => (e', r.2) := by
  induction lines generalizing e with
  | nil => rfl
  | cons line lines ih =>
    rw [replyLoop, replyCmds]
    by_cases hdot : cline line = [46]
    · rw [if_pos hdot, if_pos hdot]
      rfl
    · rw [if_neg hdot, if_neg hdot]
      cases readCmd (cline line) with
      | none => rfl
      | some c =>
        simp only [Option.bind_some, ih]
        cases replyCmds lines with
        | none => cases serve behind e c <;> rfl
        | some r =>
          simp only [Option.bind_some, Option.map_some, List.foldlM_cons]
          cases serve behind e c <;> rfl

/-- The commands one after the other: those about keywords are carried out on the table, and the
others do not fail. -/
theorem serve_all (e : Entry m) (cs : List Cmd) :
    cs.foldlM (serve behind) e =
      (setups behind e.keyword (cs.filterMap Cmd.setup)).map fun keyword =>
        { e with keyword, cvsroot := (lastValue Cmd.root cs).or e.cvsroot,
                 norsync := cs.foldl orNors e.norsync } := by
  induction cs generalizing e with
  | nil => rfl
  | cons c cs ih =>
    rw [List.foldlM_cons, lastValue_cons]
    cases c with
    | message text =>
      show cs.foldlM (serve behind) e = _
      rw [ih]
      simp [List.filterMap_cons, Cmd.setup, Cmd.root, orNors]
    | prfx path =>
      show cs.foldlM (serve behind) { e with cvsroot := some path } = _
      rw [ih]
      simp [List.filterMap_cons, Cmd.setup, Cmd.root, orNors]
    | nors pat flags =>
      show cs.foldlM (serve behind)
        { e with norsync := .binary .or e.norsync (.matching pat flags) } = _
      rw [ih]
      simp [List.filterMap_cons, Cmd.setup, Cmd.root, orNors]
    | keyword c =>
      show (((c.run behind e.keyword).map fun keyword => { e with keyword }).bind fun e1 =>
        cs.foldlM (serve behind) e1) = _
      rw [List.filterMap_cons_some (f := Cmd.setup) rfl, setups_cons]
      show _ = ((c.run behind e.keyword).bind _).map _
      cases c.run behind e.keyword with
      | none => rfl
      | some keyword =>
        rw [Option.map_some, Option.bind_some, ih]
        simp [Cmd.root, orNors]

/-- What an answer leaves, in one equation. -/
def answered (e : Entry m) (said : BitVec 32) (cs : List Cmd) (keyword : Keywords) : Entry m :=
  finish { opened e said with
    keyword, cvsroot := (lastValue Cmd.root cs).or e.cvsroot, norsync := cs.foldl orNors .false }

theorem xchgEntry_some (h : xchgEntry behind e lines = some (e1, rest)) :
    ∃ line body said cs keyword, lines = line :: body ∧ replyHead e.coll (cline line) = some said ∧
      replyCmds body = some (cs, rest) ∧
      setups behind e.keyword (cs.filterMap Cmd.setup) = some keyword ∧
      e1 = answered e said cs keyword := by
  cases lines with
  | nil => cases h
  | cons line body =>
    obtain ⟨said, hsaid, h⟩ := Option.bind_eq_some_iff.mp h
    obtain ⟨⟨e', rest'⟩, hloop, heq⟩ := Option.map_eq_some_iff.mp h
    rw [replyLoop_eq] at hloop
    obtain ⟨⟨cs, rest''⟩, hcmds, hloop⟩ := Option.bind_eq_some_iff.mp hloop
    obtain ⟨e'', hserve, hpair⟩ := Option.map_eq_some_iff.mp hloop
    rw [serve_all] at hserve
    obtain ⟨keyword, hset, hkw⟩ := Option.map_eq_some_iff.mp hserve
    cases hpair
    cases heq
    exact ⟨line, body, said, cs, keyword, rfl, hsaid, hcmds, hset, hkw ▸ rfl⟩

theorem xchgEntry_of {line : List Byte} {body : List (List Byte)} {said : BitVec 32}
    {cs : List Cmd} {keyword : Keywords} (hsaid : replyHead e.coll (cline line) = some said)
    (hcmds : replyCmds body = some (cs, rest))
    (hset : setups behind e.keyword (cs.filterMap Cmd.setup) = some keyword) :
    xchgEntry behind e (line :: body) = some (answered e said cs keyword, rest) := by
  rw [xchgEntry, hsaid, Option.bind_some, replyLoop_eq, hcmds, Option.bind_some, serve_all]
  show ((((setups behind e.keyword _).map _).map _).map _) = _
  rw [hset]
  rfl

/-- What an answer says of the keywords. -/
def keywordCmds (lines : List (List Byte)) : List Setup :=
  ((replyCmds lines.tail).map fun r => r.1.filterMap Cmd.setup).getD []

theorem zero_notMem_word {line word : List Byte} {rest : Option (List Byte)} (hline : 0 ∉ line)
    (h : protoGetAscii (some line) = (some word, rest)) : 0 ∉ word ∧ ∀ r ∈ rest, 0 ∉ r := by
  refine ⟨?_, fun r hr hmem => hline (subset_rest (by rw [h]; exact hr) hmem)⟩
  rcases line_cases line with hl | ⟨hne, hf⟩ | ⟨f, t, hne, hf, rfl⟩
  · rw [protoGetAscii_empty hl] at h
    cases h
  · rw [protoGetAscii_last hne hf] at h
    cases h
    exact zero_notMem_protoUnescape hline
  · rw [protoGetAscii_field hne hf] at h
    cases h
    exact zero_notMem_protoUnescape fun hmem => hline (List.mem_append_left _ hmem)

/-- The keyword that a line adds is a C string. -/
theorem zero_notMem_adds {line : List Byte} (hline : 0 ∉ line) {c : Cmd}
    (h : readCmd line = some c) : ∀ s ∈ c.setup, ∀ n ∈ s.adds, 0 ∉ n := by
  unfold readCmd at h
  split at h
  · cases h
  · rename_i cmd rest hcmd
    have hrest := (zero_notMem_word hline hcmd).2
    split_ifs at h
    case pos =>
      obtain ⟨text, -, rfl⟩ := Option.map_eq_some_iff.mp h
      exact fun s hs => nomatch hs
    case pos =>
      obtain ⟨text, -, rfl⟩ := Option.map_eq_some_iff.mp h
      exact fun s hs => nomatch hs
    case pos =>
      cases rest with
      | none => cases h
      | some r =>
        split at h
        · cases h
        · rename_i ident rest hident
          obtain ⟨rcskey, -, rfl⟩ := Option.map_eq_some_iff.mp h
          rintro s ⟨⟩ n ⟨⟩
          exact (zero_notMem_word (hrest r rfl) hident).1
    all_goals
      obtain ⟨text, -, rfl⟩ := Option.map_eq_some_iff.mp h
      rintro s ⟨⟩ n ⟨⟩

theorem zero_notMem_added {cs : List Cmd} (h : replyCmds lines = some (cs, rest)) :
    ∀ n ∈ added (cs.filterMap Cmd.setup), 0 ∉ n := by
  induction lines generalizing cs with
  | nil => cases h
  | cons line lines ih =>
    rw [replyCmds] at h
    split at h
    · cases h
      exact fun n hn => absurd hn List.not_mem_nil
    · obtain ⟨c, hc, h⟩ := Option.bind_eq_some_iff.mp h
      obtain ⟨⟨cs', rest'⟩, hcs, heq⟩ := Option.map_eq_some_iff.mp h
      cases heq
      have hadds := zero_notMem_adds (zero_notMem_cline line) hc
      intro n hn
      rw [List.filterMap_cons] at hn
      split at hn
      · exact ih hcs n hn
      · rename_i s hs
        rw [added_cons, List.mem_append, Option.mem_toList] at hn
        exact hn.elim (hadds s hs n) (ih hcs n)

/-! ## What is kept -/

/-- The options that no server changes. -/
def ownOptions : BitVec 32 := ~~~(CO_SERVMAYSET ||| CO_SERVMAYCLEAR)

/-- What an exchange leaves of a collection. -/
structure Kept (e e' : Entry m) : Prop where
  coll : e'.coll = { e.coll with options := e'.coll.options }
  own : e'.coll.options &&& ownOptions = e.coll.options &&& ownOptions
  set : e.coll.options &&& CO_SERVMAYSET &&& ~~~e'.coll.options = 0
  cleared : e'.coll.options &&& CO_SERVMAYCLEAR &&& ~~~e.coll.options = 0
  attrignore : e'.attrignore = e.attrignore ∨
    e'.attrignore = e.attrignore ||| ignored e.coll.options
  lens : e'.keyword.minkeylen = e.keyword.minkeylen ∧ e'.keyword.maxkeylen = e.keyword.maxkeylen
  enabled : (∀ tag ∈ e.keyword.keywords, tag.enabled = true) →
    ∀ tag ∈ e'.keyword.keywords, tag.enabled = true

theorem Kept.refl (e : Entry m) : Kept e e where
  coll := rfl
  own := rfl
  set := by rw [BitVec.and_assoc, BitVec.and_comm CO_SERVMAYSET, ← BitVec.and_assoc]; simp
  cleared := by rw [BitVec.and_assoc, BitVec.and_comm CO_SERVMAYCLEAR, ← BitVec.and_assoc]; simp
  attrignore := .inl rfl
  lens := ⟨rfl, rfl⟩
  enabled := id

theorem has_own {o o' : BitVec 32} (h : o' &&& ownOptions = o &&& ownOptions) (flag : BitVec 32)
    (hflag : ownOptions &&& flag = flag) : has o' flag = has o flag := by
  have hpart : o' &&& flag = o &&& flag := by
    rw [← hflag, ← BitVec.and_assoc, ← BitVec.and_assoc, h]
  rw [has, has, hpart]

theorem ignored_own {o o' : BitVec 32} (h : o' &&& ownOptions = o &&& ownOptions) :
    ignored o' = ignored o := by
  unfold ignored
  rw [has_own h CO_SETOWNER (by decide), has_own h CO_SETMODE (by decide),
    has_own h CO_SETFLAGS (by decide)]

theorem kept_bits {a b c x : BitVec 32} (h : a &&& x &&& ~~~b = 0) (h' : b &&& x &&& ~~~c = 0) :
    a &&& x &&& ~~~c = 0 := by
  ext i hi
  have hb := congrArg (·[i]) h
  have hc := congrArg (·[i]) h'
  simp at hb hc ⊢
  grind

theorem Kept.trans {e3 : Entry m} (h : Kept e e1) (h' : Kept e1 e3) : Kept e e3 where
  coll := by
    rw [h'.coll, h.coll]
  own := h'.own.trans h.own
  set := kept_bits h.set h'.set
  cleared := kept_bits h'.cleared h.cleared
  attrignore := by
    have hsame := ignored_own h.own
    rcases h'.attrignore with h2 | h2 <;> rcases h.attrignore with h1 | h1
    · exact .inl (h2.trans h1)
    · exact .inr (h2.trans h1)
    · exact .inr (by rw [h2, h1, hsame])
    · exact .inr (by rw [h2, h1, hsame, BitVec.or_assoc, BitVec.or_self])
  lens := ⟨h'.lens.1.trans h.lens.1, h'.lens.2.trans h.lens.2⟩
  enabled hon := h'.enabled (h.enabled hon)

theorem served_idem (options said : BitVec 32) :
    served (served options said) said = served options said := by
  unfold served
  generalize CO_SERVMAYSET = a
  generalize CO_SERVMAYCLEAR = b
  ext i hi
  simp
  grind

theorem keywordCmds_eq {line : List Byte} {body : List (List Byte)} {cs : List Cmd}
    (h : replyCmds body = some (cs, rest)) :
    keywordCmds (line :: body) = cs.filterMap Cmd.setup := by
  simp [keywordCmds, h]

/-- The answer of the session before once more: what it asks for is in the table, or added. -/
theorem xchgEntry_again_table (h : xchgEntry behind e lines = some (e1, rest)) :
    (∃ r, xchgEntry behind e1 lines = some r) ↔
      ∀ front c back, keywordCmds lines = front ++ c :: back → ∀ n ∈ c.needs,
        n ∈ added front ∨ n ∈ names e1.keyword.keywords := by
  obtain ⟨line, body, said, cs, keyword, rfl, hsaid, hcmds, -, he1⟩ := xchgEntry_some h
  have hhead : replyHead e1.coll (cline line) = some said := by
    rw [he1]
    exact hsaid
  rw [keywordCmds_eq hcmds, ← setups_iff behind]
  constructor
  · rintro ⟨⟨e2, rest2⟩, h2⟩
    obtain ⟨line', body', said', cs', keyword', heq, -, hcmds', hset, -⟩ := xchgEntry_some h2
    obtain ⟨rfl, rfl⟩ := List.cons.inj heq
    rw [hcmds] at hcmds'
    cases hcmds'
    exact ⟨keyword', hset⟩
  · rintro ⟨keyword', hset⟩
    exact ⟨_, xchgEntry_of hhead hcmds hset⟩

theorem forall_keywordNew (behind : Nat → Byte) :
    (∀ tag ∈ (keywordNew behind).keywords, tag.enabled = true) ∧
      ∀ n ∈ names (keywordNew behind).keywords, 0 ∉ n := by
  have htags : (keywordNew behind).keywords = tagDefaults.map fun d => tagNew behind d.1 d.2 := rfl
  have hnames : names (keywordNew behind).keywords = tagDefaults.map Prod.fst := rfl
  rw [hnames, htags, List.forall_mem_map]
  exact ⟨fun d _ => rfl, by decide⟩

/-- An answer that was accepted in the first session is accepted in the next one if, and only if,
none of its commands is about a keyword that it turns off in the end and does not add before. -/
theorem xchgEntry_again_iff (hnew : e.keyword = keywordNew behind)
    (hfresh : (added (keywordCmds lines) ++ names (keywordNew behind).keywords).Nodup)
    (h : xchgEntry behind e lines = some (e1, rest)) :
    (∃ r, xchgEntry behind e1 lines = some r) ↔
      ∀ front c back, keywordCmds lines = front ++ c :: back → ∀ n ∈ c.needs,
        n ∈ added front ∨ lastValue (Setup.turns n) (keywordCmds lines) ≠ some false := by
  rw [xchgEntry_again_table h]
  obtain ⟨line, body, said, cs, keyword, rfl, -, hcmds, hset, rfl⟩ := xchgEntry_some h
  rw [keywordCmds_eq hcmds] at hfresh ⊢
  rw [hnew] at hset
  have hfirst := (setups_iff behind _ _).mp ⟨keyword, hset⟩
  refine forall_congr' fun front => forall_congr' fun c => forall_congr' fun back =>
    forall_congr' fun heq => forall_congr' fun n => forall_congr' fun hn => ?_
  have hthere : n ∈ added (cs.filterMap Cmd.setup) ++ names (keywordNew behind).keywords := by
    refine List.mem_append.mpr ((hfirst front c back heq n hn).imp_left fun hadded => ?_)
    rw [heq, added, List.filterMap_append]
    exact List.mem_append_left _ hadded
  have hleft := mem_prepare (forall_keywordNew behind).1 hfresh hset n
  exact or_congr_right (hleft.trans (and_iff_right hthere))

/-- A collection whose RCS files are checked. -/
def firstEntry : Entry noRegex :=
  newEntry noRegex (fun _ => 0)
    { collNew none with
      name := some (bytes "src-all".toList), release := some (bytes "cvs".toList)
      options := CO_CHECKRCS ||| CO_SETMODE }

/-- An answer that leaves the keyword `FreeBSD` only. -/
def keyoffAnswer : List (List Byte) :=
  ["COLL src-all cvs 4096\n", "KEYALIAS FreeBSD CVSHeader\n", "KEYOFF .\n", "KEYON FreeBSD\n",
    ".\n"].map (bytes ·.toList)

/-- It is refused in the next session: `CVSHeader` is not in the table any more. -/
theorem xchgEntry_again_iff_keyoff : ∃ e1 rest,
    xchgEntry (fun _ => 0) firstEntry keyoffAnswer = some (e1, rest) ∧
      ¬∃ r, xchgEntry (fun _ => 0) e1 keyoffAnswer = some r := by
  obtain ⟨⟨e1, rest⟩, h⟩ := Option.isSome_iff_exists.mp
    (show (xchgEntry (fun _ => 0) firstEntry keyoffAnswer).isSome = true by decide +kernel)
  refine ⟨e1, rest, h, fun hagain => ?_⟩
  have hcvsheader := (xchgEntry_again_iff rfl (by decide +kernel) h).mp hagain []
    (.keyalias (bytes "FreeBSD".toList) (bytes "CVSHeader".toList))
    [.keyoff [46], .keyon (bytes "FreeBSD".toList)] (by decide +kernel) _ rfl
  exact absurd hcvsheader (by decide +kernel)

/-- The collection is left as the session before has left it, but for the table of keywords, and
with this one every line of a file is expanded as with the one before. -/
theorem xchgEntry_again (hnew : e.keyword = keywordNew behind)
    (hfresh : (added (keywordCmds lines) ++ names (keywordNew behind).keywords).Nodup)
    (h : xchgEntry behind e lines = some (e1, rest))
    (h2 : xchgEntry behind e1 lines = some (e2, rest2)) :
    e2 = { e1 with keyword := e2.keyword } ∧ rest2 = rest ∧ ∀ di line, 0 ∉ line →
      (keywordScan e2.keyword di line).getD line = (keywordScan e1.keyword di line).getD line := by
  obtain ⟨line, body, said, cs, keyword, rfl, hsaid, hcmds, hset, he1⟩ := xchgEntry_some h
  obtain ⟨line', body', said', cs', keyword', heq, hsaid', hcmds', hset', he2⟩ := xchgEntry_some h2
  obtain ⟨rfl, rfl⟩ := List.cons.inj heq
  rw [keywordCmds_eq hcmds] at hfresh
  rw [hcmds] at hcmds'
  cases hcmds'
  have hhead : replyHead e1.coll (cline line) = some said := by
    rw [he1]
    exact hsaid
  rw [hhead] at hsaid'
  cases hsaid'
  rw [hnew] at hset
  subst he1 he2
  refine ⟨?_, rfl, fun di l hl => ?_⟩
  · simp [answered, finish, opened, served_idem, ← Option.or_assoc, BitVec.or_assoc]
  · refine expand_again (forall_keywordNew behind).1 hfresh (fun n hn => ?_) hset hset' di hl
    exact (List.mem_append.mp hn).elim (zero_notMem_added hcmds n) ((forall_keywordNew behind).2 n)

/-- An answer that adds the keyword `FreeBSD`. -/
def aliasAnswer : List (List Byte) :=
  ["COLL src-all cvs 4096\n", "PRFX /home/ncvs\n", "KEYALIAS FreeBSD CVSHeader\n", ".\n"].map
    (bytes ·.toList)

theorem xchgEntry_again_alias : ∃ e1 e2 rest rest2,
    xchgEntry (fun _ => 0) firstEntry aliasAnswer = some (e1, rest) ∧
      xchgEntry (fun _ => 0) e1 aliasAnswer = some (e2, rest2) ∧
      e2 = { e1 with keyword := e2.keyword } ∧ rest2 = rest ∧ ∀ di line, 0 ∉ line →
        (keywordScan e2.keyword di line).getD line =
          (keywordScan e1.keyword di line).getD line := by
  have hboth : ((xchgEntry (fun _ => 0) firstEntry aliasAnswer).bind fun r =>
      xchgEntry (fun _ => 0) r.1 aliasAnswer).isSome = true := by decide +kernel
  obtain ⟨⟨e2, rest2⟩, h⟩ := Option.isSome_iff_exists.mp hboth
  obtain ⟨⟨e1, rest⟩, h1, h2⟩ := Option.bind_eq_some_iff.mp h
  exact ⟨e1, e2, rest, rest2, h1, h2, xchgEntry_again rfl (by decide +kernel) h1 h2⟩

end Csup.Exchange
