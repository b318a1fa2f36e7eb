import Csup.Updater.RcsEdit

/-!
# Well-formed blocks of RCS edit commands

What the server sends for an RCS file, as data: `BlockCmd` is a command with
its fields, a delta with its parts; `block` is the lines of it. `applyCmds` says
what a block does to an RCS file, without its lines.

* `addeltaLoop_parts`: `updater_addelta` reads the parts of a delta and does
  what they say;
* `editLoop_block`: on an open file, the loop of `updater_rcsedit` reads a block
  and does what it says.
-/

namespace Csup.Updater

open Csup.Diff (Line)
open Csup.Keyword (keywordDecodeExpand)
open Csup.Proto

/-- The line that ends a block, a delta or a part. -/
def dotLine : Line := [46, nl]

/-- The line that ends a part whose last line has no newline. -/
def dotPlusLine : Line := [46, 43, nl]

/-- A line of a part. -/
structure TextLine where
  body : List Byte
  no_nl : nl ∉ body

def TextLine.val (t : TextLine) : Line := t.body ++ [nl]

/-- A line as it is sent: a dot in front is doubled. -/
def TextLine.dotted (t : TextLine) : Line :=
  if t.body.head? = some 46 then 46 :: t.val else t.val

/-- What is between the line of a delta and its `.`. -/
inductive DeltaPart
  | lines (part : Part) (ls : List TextLine) (truncated : Bool)
  | state (state : Field)

/-- A command of a block. -/
inductive BlockCmd
  | branch (branch : Field)
  | clearbranch
  | delta (revnum diffbase revdate author : Field) (parts : List DeltaPart)
  | delete (revnum : Field)
  | expand (expandtxt : Field)
  | tag (tag revnum : Field)
  | untag (tag revnum : Field)

/-! ## The lines of a block -/

def Part.letter : Part → Byte
  | .log => 76
  | .text => 84

def DeltaPart.wire : DeltaPart → List Line
  | .lines part ls truncated =>
    fieldLine part.letter [] :: (ls.map TextLine.dotted ++
      [if truncated then dotPlusLine else dotLine])
  | .state s => [fieldLine 83 [s]]

namespace BlockCmd

def letter : BlockCmd → Byte
  | branch _ => 66
  | clearbranch => 98
  | delta .. => 68
  | delete _ => 100
  | expand _ => 69
  | tag .. => 84
  | untag .. => 116

def fields : BlockCmd → List Field
  | branch b => [b]
  | clearbranch => []
  | delta revnum diffbase revdate author _ => [revnum, diffbase, revdate, author]
  | delete revnum => [revnum]
  | expand expandtxt => [expandtxt]
  | tag t revnum => [t, revnum]
  | untag t revnum => [t, revnum]

/-- The lines behind the line of the command. -/
def wireParts : BlockCmd → List Line
  | delta _ _ _ _ parts => parts.flatMap DeltaPart.wire ++ [dotLine]
  | _ => []

def wire (c : BlockCmd) : List Line := fieldLine c.letter c.fields :: c.wireParts

def isDelta : BlockCmd → Bool
  | delta .. => true
  | _ => false

theorem letter_ne (c : BlockCmd) :
    c.letter ≠ 0 ∧ c.letter ≠ 32 ∧ c.letter ≠ 46 ∧ c.letter ≠ 92 := by
  cases c <;> simp [letter]

end BlockCmd

/-- The lines of a block. -/
def block (cmds : List BlockCmd) : List Line := cmds.flatMap BlockCmd.wire ++ [dotLine]

/-! ## What a block does -/

section

variable {F D : Type} (api : RcsApi F D)

def DeltaPart.apply (d : D) (f : F) : DeltaPart → Except Err F
  | .lines part ls truncated =>
    let f := ls.foldl (fun f t => api.append part f d t.val) f
    if truncated then orErr .proto (api.truncate part f d) else .ok f
  | .state s => orErr .proto (api.setstate f d s.text)

def BlockCmd.apply (f : F) : BlockCmd → Except Err F
  | branch b => .ok (api.setbranch (some b.text) f)
  | clearbranch => .ok (api.setbranch none f)
  | delta revnum diffbase revdate author parts => do
    match ← orErr .read (api.addelta f revnum.text revdate.text author.text diffbase.text) with
    | (_, none) => .error .read
    | (f, some d) => parts.foldlM (DeltaPart.apply api d) f
  | delete revnum => orErr .undefined (api.deleterev f revnum.text)
  | expand expandtxt => .ok (api.setexpand (keywordDecodeExpand expandtxt.text) f)
  | tag t revnum => .ok (api.addtag t.text revnum.text f)
  | untag t revnum => .ok (api.deletetag t.text revnum.text f)

/-- The commands of a block one after the other. -/
def applyCmds (f : F) (cmds : List BlockCmd) : Except Err F :=
  cmds.foldlM (BlockCmd.apply api) f

/-! ## Reading a delta -/

variable (d : D)

/-- A dotted line is read as the line it stands for, and ends no part. -/
theorem addeltaLoop_dotted (part : Part) (cmd : Option Byte) (f : F) (t : TextLine)
    (ls : List Line) :
    addeltaLoop api d (some part) cmd f (t.dotted :: ls) =
      addeltaLoop api d (some part) cmd (api.append part f d t.val) ls := by
  rw [addeltaLoop, TextLine.dotted]
  cases hb : t.body with
  | nil => simp [TextLine.val, hb]
  | cons c body =>
    by_cases hc : c = 46
    · subst hc
      simp [TextLine.val, hb]
    · simp [TextLine.val, hb, hc]

theorem addeltaLoop_map_dotted (part : Part) (cmd : Option Byte) (f : F) (ts : List TextLine)
    (ls : List Line) :
    addeltaLoop api d (some part) cmd f (ts.map TextLine.dotted ++ ls) =
      addeltaLoop api d (some part) cmd
        (ts.foldl (fun f t => api.append part f d t.val) f) ls := by
  induction ts generalizing f with
  | nil => rfl
  | cons t ts ih =>
    rw [List.map_cons, List.cons_append, addeltaLoop_dotted, ih]
    rfl

theorem protoGetChar_dotLine : protoGetChar (some (cline dotLine)) = (some 46, none) := by
  decide

/-- A part of a delta is read and done. -/
theorem addeltaLoop_part (cmd : Option Byte) (f : F) (p : DeltaPart) (ls : List Line) :
    ∃ cmd', addeltaLoop api d none cmd f (p.wire ++ ls) =
      p.apply api d f >>= fun f => addeltaLoop api d none cmd' f ls := by
  cases p with
  | lines part ts truncated =>
    refine ⟨some part.letter, ?_⟩
    have hletter : addeltaLoop api d none cmd f ((DeltaPart.lines part ts truncated).wire ++ ls) =
        addeltaLoop api d (some part) (some part.letter) f
          (ts.map TextLine.dotted ++ ((if truncated then dotPlusLine else dotLine) :: ls)) := by
      rw [DeltaPart.wire, List.cons_append, addeltaLoop, protoGetChar_fieldLine]
      · cases part <;> simp [Part.letter]
      all_goals cases part <;> decide
    rw [hletter, addeltaLoop_map_dotted, DeltaPart.apply]
    cases truncated
    · simp [addeltaLoop, dotLine, bind, Except.bind]
    · simp [addeltaLoop, dotPlusLine]
  | state s =>
    refine ⟨some 83, ?_⟩
    show addeltaLoop api d none cmd f (fieldLine 83 [s] :: ls) = _
    rw [addeltaLoop, protoGetChar_fieldLine (by decide) (by decide) (by decide)]
    simp [DeltaPart.apply]

/-- The parts of a delta are read and done, up to the line that ends it. -/
theorem addeltaLoop_parts (cmd : Option Byte) (f : F) (ps : List DeltaPart) (ls : List Line) :
    addeltaLoop api d none cmd f (ps.flatMap DeltaPart.wire ++ dotLine :: ls) =
      (ps.foldlM (DeltaPart.apply api d) f).map fun f => (f, ls) := by
  induction ps generalizing cmd f with
  | nil =>
    rw [List.flatMap_nil, List.nil_append, addeltaLoop, protoGetChar_dotLine]
    rfl
  | cons p ps ih =>
    obtain ⟨cmd', hp⟩ := addeltaLoop_part api d cmd f p
      (ps.flatMap DeltaPart.wire ++ dotLine :: ls)
    rw [List.flatMap_cons, List.append_assoc, hp, List.foldlM_cons]
    cases p.apply api d f with
    | error e => rfl
    | ok f => exact ih cmd' f

/-! ## Reading a block -/

/-- The command a line stands for. -/
def BlockCmd.cmd : BlockCmd → Cmd
  | branch b => .branch b.text
  | clearbranch => .clearbranch
  | delta revnum diffbase revdate author _ =>
    .delta revnum.text diffbase.text revdate.text author.text
  | delete revnum => .delete revnum.text
  | expand expandtxt => .expand expandtxt.text
  | tag t revnum => .tag t.text revnum.text
  | untag t revnum => .untag t.text revnum.text

theorem protoGetChar_wire (c : BlockCmd) :
    protoGetChar (some (cline (fieldLine c.letter c.fields))) =
      (some c.letter, restOf c.fields) := by
  obtain ⟨h0, h32, -, h92⟩ := c.letter_ne
  exact protoGetChar_fieldLine h0 h32 h92 c.fields

theorem parseCmd_wire (c : BlockCmd) : parseCmd c.letter (restOf c.fields) = some c.cmd := by
  cases c <;> simp [parseCmd, getFields, BlockCmd.letter, BlockCmd.fields, BlockCmd.cmd] <;> rfl

/-- A command takes the lines of its parts from the stream. -/
theorem runCmd_wireParts (f : F) (c : BlockCmd) (ls : List Line) :
    runCmd api f (c.wireParts ++ ls) c.cmd = (c.apply api f).map fun f => (f, ls) := by
  cases c with
  | delta revnum diffbase revdate author parts =>
    simp only [runCmd, BlockCmd.cmd, BlockCmd.wireParts, BlockCmd.apply, updaterAddelta]
    cases orErr .read (api.addelta f revnum.text revdate.text author.text diffbase.text) with
    | error e => rfl
    | ok r =>
      obtain ⟨f, od⟩ := r
      cases od with
      | none => rfl
      | some d =>
        show addeltaLoop api d none none f _ = _
        rw [List.append_assoc, List.singleton_append, addeltaLoop_parts]
        rfl
  | delete revnum =>
    simp only [runCmd, BlockCmd.cmd, BlockCmd.wireParts, BlockCmd.apply]
    cases orErr .undefined (api.deleterev f revnum.text) <;> rfl
  | _ => rfl

variable (openrcs : Option F) (exactrcs : Bool)

/-- The loop at a command. -/
theorem editLoop_wire (fuel : Nat) (rf : Option F) (c : BlockCmd) (ls : List Line) :
    editLoop api openrcs exactrcs (fuel + 1) rf (c.wire ++ ls) =
      match rf.orElse fun _ => openrcs with
      | none =>
        if !exactrcs then .error .msg
        else match skipLines (c.wireParts ++ ls) with
          | none => .error .read
          | some rest => .ok (.invalid rest)
      | some f => c.apply api f >>= fun f => editLoop api openrcs exactrcs fuel (some f) ls := by
  rw [BlockCmd.wire, List.cons_append, editLoop, protoGetChar_wire]
  have h46 : ¬(c.letter = 46 ∧ restOf c.fields = none) := fun h => c.letter_ne.2.2.1 h.1
  simp only [if_neg h46, parseCmd_wire, runCmd_wireParts]
  cases rf.orElse fun _ => openrcs with
  | none => rfl
  | some f =>
    dsimp only
    cases c.apply api f <;> rfl

theorem editLoop_dotLine (fuel : Nat) (rf : Option F) (ls : List Line) :
    editLoop api openrcs exactrcs (fuel + 1) rf (dotLine :: ls) = .ok (.done rf ls) := by
  rw [editLoop, protoGetChar_dotLine]
  rfl

/-- On an open file a block is read and done, and nothing behind it is read. -/
theorem editLoop_block (f : F) (cmds : List BlockCmd) (rest : List Line) {fuel : Nat}
    (hfuel : cmds.length < fuel) :
    editLoop api openrcs exactrcs fuel (some f) (block cmds ++ rest) =
      (applyCmds api f cmds).map fun f => .done (some f) rest := by
  induction cmds generalizing f fuel with
  | nil =>
    obtain ⟨fuel, rfl⟩ := Nat.exists_eq_add_one_of_ne_zero (Nat.ne_of_gt hfuel)
    exact editLoop_dotLine api openrcs exactrcs fuel (some f) rest
  | cons c cmds ih =>
    obtain ⟨fuel, rfl⟩ := Nat.exists_eq_add_one_of_ne_zero (Nat.ne_of_gt (Nat.zero_lt_of_lt hfuel))
    have hblock : block (c :: cmds) ++ rest = c.wire ++ (block cmds ++ rest) := by
      simp [block]
    rw [hblock, editLoop_wire, applyCmds, List.foldlM_cons]
    show c.apply api f >>= _ = _
    cases c.apply api f with
    | error e => rfl
    | ok f => exact ih f (Nat.lt_of_succ_lt_succ hfuel)

end

end Csup.Updater
