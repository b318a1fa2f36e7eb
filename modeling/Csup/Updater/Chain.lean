import Csup.Updater.Diff
import Mathlib.Data.List.Forall2

/-!
# A chain of deltas on a checked-out file

What the server sends for a checked-out file, as data: `DeltaBlock` is a delta
with its script, `DeltaBlock.Applies` what the script makes of the unexpanded
text. The file on disk holds the lines of the text, each expanded by some
earlier delta (`Expands`); a delta leaves the new text, each line expanded by
that delta (`updaterDiffBatch_block`), whatever the lines were expanded by
before. `updaterDiff_chain` is a chain of any length.
-/

namespace Csup.Updater

open Csup.Diff Csup.Framework Csup.Keyword Csup.Proto
open Csup.Misc (rcsdatetotm)

/-! ## Blocks -/

/-- A delta as it is sent: a revision, a date, an author, perhaps a state, and a
script. -/
structure DeltaBlock where
  revnum : Field
  diffbase : Field
  revdate : Field
  author : Field
  state : Option Field
  body : List Line
  cmds : List (Framework.Cmd Line)
  forced : Bool
  plus : Bool
  date_ok : (rcsdatetotm revdate.text).isSome
  reads : Reads .zero false body ⟨cmds, forced, .eof⟩
  full : ∀ l ∈ body, FullLine nl l

namespace DeltaBlock

variable (b : DeltaBlock)

/-- What the text part says, its terminator included. -/
def script : Script := ⟨b.cmds, b.forced, .stop b.plus⟩

/-- The lines behind the `D` line. -/
def parts : List Line :=
  (b.state.elim [] fun s => [fieldLine 83 [s]]) ++
    fieldLine 84 [] :: (b.body ++ [stopLine b.plus ++ [nl], dotLine])

def wire : List Line := fieldLine 68 [b.revnum, b.diffbase, b.revdate, b.author] :: b.parts

def info : DeltaInfo := ⟨b.revnum.text, b.revdate.text, b.author.text⟩

/-- What keywords are expanded with while the delta is applied. -/
def diffinfo (env : DiffEnv) : Diffinfo :=
  ⟨env.rcsfile, env.cvsroot, b.revnum.text, b.revdate.text, b.author.text, env.tag,
    b.state.map Field.text, env.expand, b.date_ok⟩

/-- The script makes `t'` of the text `t`: the lines it addresses exist, and
`.+` ends it when the last line of `t'` has lost its newline. -/
def Applies (t t' : List Line) : Prop :=
  b.script.Addressed t.length ∧ IsText nl t' ∧
    if b.script.noeol true = true then
      ∃ ls l, nl ∉ l ∧ t' = ls ++ [l] ∧ b.script.reference true t = ls ++ [l ++ [nl]]
    else b.script.reference true t = t'

end DeltaBlock

/-- The scripts of the blocks, one after the other, make `t'` of `t`. -/
def Steps : List Line → List DeltaBlock → List Line → Prop
  | t, [], t' => t = t'
  | t, b :: bs, t'' => ∃ t', b.Applies t t' ∧ Steps t' bs t''

/-! ## Expanded lines -/

/-- No value of a keyword holds a dollar or a newline. -/
def Clean (kw : Keywords) (di : Diffinfo) : Prop := ValuesLack kw di 36 ∧ ValuesLack kw di nl

/-- A line of the file on disk, expanded by an earlier delta. -/
def Expands (env : DiffEnv) (o t : Line) : Prop :=
  ∃ di : Diffinfo, di.expand = env.expand ∧ Clean env.keyword di ∧ o = expandLine env.keyword di t

/-- The modes in which a checked-out file is edited. -/
def Edits (mode : Expand) : Prop := mode.Keeps ∨ mode = .old

section

variable {env : DiffEnv} {di : Diffinfo} {kw : Keywords}

theorem expandLine_edits (di : Diffinfo) (h : Edits di.expand) (w : Line) :
    expandLine kw di (w ++ [nl]) = expandLine kw di w ++ [nl] := by
  rcases h with h | h
  · exact expandLine_concat h w
  · rw [expandLine_old h, expandLine_old h]

theorem Expands.absorb (hm : Edits env.expand) (hd : di.expand = env.expand) {o t : Line}
    (h : Expands env o t) : expandLine env.keyword di o = expandLine env.keyword di t := by
  obtain ⟨d, hexp, hclean, rfl⟩ := h
  rcases hm with hm | hm
  · exact expandLine_absorb env.keyword d di (hexp ▸ hm) (hd ▸ hm) hclean.1 t
  · rw [expandLine_old (hexp.trans hm)]

theorem Expands.fullLine (hm : Edits env.expand) {o t : Line} (h : Expands env o t)
    (ht : FullLine nl t) : FullLine nl o := by
  obtain ⟨d, hexp, hclean, rfl⟩ := h
  rcases hm with hm | hm
  · exact fullLine_expandLine (hexp ▸ hm) hclean.2 ht
  · rwa [expandLine_old (hexp.trans hm)]

theorem Expands.lastLine (hm : Edits env.expand) {o t : Line} (h : Expands env o t)
    (ht : LastLine nl t) : LastLine nl o := by
  obtain ⟨d, hexp, hclean, rfl⟩ := h
  rcases hm with hm | hm
  · exact lastLine_expandLine (hexp ▸ hm) hclean.1 hclean.2 ht
  · rwa [expandLine_old (hexp.trans hm)]

/-- The lines on disk are lines. -/
theorem isText_of_expands (hm : Edits env.expand) {os ts : List Line}
    (h : List.Forall₂ (Expands env) os ts) (ht : IsText nl ts) : IsText nl os := by
  induction h with
  | nil => trivial
  | @cons o t os ts ho hos ih =>
    by_cases hts : ts = []
    · subst hts
      rw [List.forall₂_nil_right_iff.mp hos]
      exact ho.lastLine hm ht
    · have hne : os ≠ [] := by
        rintro rfl
        exact hts (List.forall₂_nil_left_iff.mp hos)
      obtain ⟨h1, h2⟩ := (isText_cons hts).mp ht
      exact (isText_cons hne).mpr ⟨ho.fullLine hm h1, ih h2⟩

theorem map_of_expands (hm : Edits env.expand) (hd : di.expand = env.expand) {os ts : List Line}
    (h : List.Forall₂ (Expands env) os ts) :
    os.map (expandLine env.keyword di) = ts.map (expandLine env.keyword di) := by
  induction h with
  | nil => rfl
  | cons ho _ ih => rw [List.map_cons, List.map_cons, ho.absorb hm hd, ih]

theorem expands_map (hd : di.expand = env.expand) (hc : Clean env.keyword di) (ts : List Line) :
    List.Forall₂ (Expands env) (ts.map (expandLine env.keyword di)) ts := by
  induction ts with
  | nil => exact .nil
  | cons t ts ih => exact .cons ⟨di, hd, hc, rfl⟩ ih

/-- The lines that `diff_apply` writes are those of the new text, expanded. -/
theorem result_of_expands (di : Diffinfo) (hm : Edits env.expand) (hd : di.expand = env.expand) {os ts : List Line}
    (h : List.Forall₂ (Expands env) os ts) (s : Script) :
    s.result (expander env.keyword di) true os =
      (s.reference true ts).map (expandLine env.keyword di) := by
  have hw : s.written (expander env.keyword di) true =
      (s.cmds.map (Framework.Cmd.map (addedLine true))).map (Framework.Cmd.map (expandLine env.keyword di)) := by
    rw [Script.written, List.map_map]
    apply List.map_congr_left
    intro c _
    cases c with
    | del w n => rfl
    | add w ls =>
      show Framework.Cmd.add w _ = Framework.Cmd.add w _
      rw [List.map_map]
      rfl
  have ho : (os.map fun l => (expander env.keyword di l).getD l) =
      ts.map (expandLine env.keyword di) := map_of_expands hm hd h
  rw [Script.result, hw, ho, edited_map]
  rfl

end

/-! ## One block -/

/-- What a batch leaves of a block on a file that holds the lines `os`. -/
theorem updaterDiffApply_block (env : DiffEnv) (b : DeltaBlock) {os ts ts' : List Line}
    (hm : Edits env.expand) (h : List.Forall₂ (Expands env) os ts) (ht : IsText nl ts)
    (happ : b.Applies ts ts') (rest : List Line) :
    ∃ dest, updaterDiffApply env b.info (b.state.map Field.text) os.flatten .empty
        (b.body ++ (stopLine b.plus ++ [nl]) :: rest) = .ok (dest, rest) ∧
      dest.data = (ts'.map (expandLine env.keyword (b.diffinfo env))).flatten := by
  obtain ⟨haddr, -, hres⟩ := happ
  have hdi : diffinfo env b.info (b.state.map Field.text) = some (b.diffinfo env) :=
    dif_pos b.date_ok
  have hsplit : splitLines nl os.flatten = os := splitLines_flatten (isText_of_expands hm h ht)
  have hresult := result_of_expands (b.diffinfo env) hm rfl h b.script
  have haddr' : b.script.Addressed (splitLines nl os.flatten).length := by
    rwa [hsplit, h.length_eq]
  have hplus : b.script.noeol true = true →
      (b.script.result (expander env.keyword (b.diffinfo env)) true
        (splitLines nl os.flatten)).flatten ≠ [] := by
    intro hno
    rw [if_pos hno] at hres
    obtain ⟨ls, l, -, -, href⟩ := hres
    rw [hsplit, hresult, href, List.map_append, List.flatten_append]
    simp [expandLine_edits (b.diffinfo env) hm]
  obtain ⟨dest, hrun, hdata⟩ := diffApplyOn_script b.reads (expander env.keyword (b.diffinfo env))
    b.plus rest os.flatten haddr' hplus
  refine ⟨dest, by simp only [updaterDiffApply, hdi, hrun], ?_⟩
  rw [hdata]
  change (if b.script.noeol true = true then List.dropLast else id) (b.script.result _ true _).flatten
    = _
  rw [hsplit, hresult]
  split at hres
  · rename_i hno
    obtain ⟨ls, l, -, rfl, href⟩ := hres
    rw [if_pos hno, href]
    simp [expandLine_edits (b.diffinfo env) hm, ← List.append_assoc]
  · rename_i hno
    rw [if_neg hno, hres]
    rfl

theorem batchLoop_state (env : DiffEnv) (delta : DeltaInfo) (fuel : Nat)
    (state : Option (List Byte)) (orig : List Byte) (dest : File) (s : Field) (rd : List Line) :
    batchLoop env delta (fuel + 1) state orig dest (fieldLine 83 [s] :: rd) =
      batchLoop env delta fuel (some s.text) orig dest rd := by
  rw [batchLoop, protoGetChar_fieldLine (by decide) (by decide) (by decide)]
  simp
  rfl

/-- The `T` line and what follows it, to the end of the block. -/
theorem batchLoop_text {env : DiffEnv} {delta : DeltaInfo} {fuel : Nat}
    {state : Option (List Byte)} {orig : List Byte} {dest dest' : File} {rd rest : List Line}
    (h : updaterDiffApply env delta state orig dest rd = .ok (dest', dotLine :: rest)) :
    batchLoop env delta (fuel + 2) state orig dest (fieldLine 84 [] :: rd) = .ok (dest', rest) := by
  rw [batchLoop, protoGetChar_fieldLine (by decide) (by decide) (by decide)]
  show (do
    let r ← updaterDiffApply env delta state orig dest rd
    batchLoop env delta (fuel + 1) state [] r.1 r.2) = _
  rw [h]
  show batchLoop env delta (fuel + 1) state [] dest' (dotLine :: rest) = _
  rw [batchLoop, protoGetChar_dotLine]
  simp

theorem updaterDiffBatch_block (env : DiffEnv) (b : DeltaBlock) {os ts ts' : List Line}
    (hm : Edits env.expand) (h : List.Forall₂ (Expands env) os ts) (ht : IsText nl ts)
    (happ : b.Applies ts ts') (rest : List Line) :
    ∃ dest, updaterDiffBatch env b.info os.flatten .empty (b.parts ++ rest) = .ok (dest, rest) ∧
      dest.data = (ts'.map (expandLine env.keyword (b.diffinfo env))).flatten := by
  obtain ⟨dest, hrun, hdata⟩ := updaterDiffApply_block env b hm h ht happ (dotLine :: rest)
  refine ⟨dest, ?_, hdata⟩
  rw [updaterDiffBatch, DeltaBlock.parts]
  rcases hs : b.state with - | s
  · rw [hs] at hrun
    simp only [Option.elim_none, List.nil_append, List.cons_append, List.append_assoc,
      List.length_cons, List.length_append]
    rw [show b.body.length + (rest.length + 1 + 1) + 1 = b.body.length + rest.length + 1 + 2 by
      omega]
    exact batchLoop_text hrun
  · rw [hs] at hrun
    simp only [Option.elim_some, List.cons_append, List.nil_append, List.append_assoc,
      List.length_cons, List.length_append]
    rw [batchLoop_state,
      show b.body.length + (rest.length + 1 + 1) + 1 = b.body.length + rest.length + 1 + 2 by
        omega]
    exact batchLoop_text hrun

/-! ## The chain -/

theorem getDelta_wire (b : DeltaBlock) :
    getDelta (restOf [b.revnum, b.diffbase, b.revdate, b.author]) = .ok b.info := by
  simp [getDelta, DeltaBlock.info]
  rfl

/-- One block: the file in front of it is that of the block before, or the file
on disk. -/
theorem diffLoop_block (env : DiffEnv) (b : DeltaBlock) {file : Option (List Byte)} (fuel : Nat)
    {dest : Option File} {os ts ts' : List Line} (hm : Edits env.expand)
    (hfile : (dest.elim file fun dest => some dest.data) = some os.flatten)
    (h : List.Forall₂ (Expands env) os ts) (ht : IsText nl ts) (happ : b.Applies ts ts')
    (rest : List Line) :
    ∃ dest', diffLoop env file (fuel + 1) dest (b.wire ++ rest) =
        diffLoop env file fuel (some dest') rest ∧
      dest'.data = (ts'.map (expandLine env.keyword (b.diffinfo env))).flatten := by
  obtain ⟨dest', hrun, hdata⟩ := updaterDiffBatch_block env b hm h ht happ rest
  refine ⟨dest', ?_, hdata⟩
  rw [DeltaBlock.wire, List.cons_append, diffLoop,
    protoGetChar_fieldLine (by decide) (by decide) (by decide)]
  simp only [hfile]
  show (do
    let delta ← getDelta (restOf [b.revnum, b.diffbase, b.revdate, b.author])
    let r ← updaterDiffBatch env delta os.flatten .empty (b.parts ++ rest)
    diffLoop env file fuel (some r.1) r.2) = _
  rw [getDelta_wire]
  show (do
    let r ← updaterDiffBatch env b.info os.flatten .empty (b.parts ++ rest)
    diffLoop env file fuel (some r.1) r.2) = _
  rw [hrun]
  rfl

/-- The blocks from any point of the chain on. -/
theorem diffLoop_blocks (env : DiffEnv) {file : Option (List Byte)} (hm : Edits env.expand)
    {bs : List DeltaBlock} (hbs : bs ≠ []) (hclean : ∀ b ∈ bs, Clean env.keyword (b.diffinfo env))
    {fuel : Nat} (hfuel : bs.length < fuel) (dest : Option File) {os ts tn : List Line}
    (hfile : (dest.elim file fun dest => some dest.data) = some os.flatten)
    (h : List.Forall₂ (Expands env) os ts) (ht : IsText nl ts) (hsteps : Steps ts bs tn)
    (rest : List Line) :
    ∃ dest', diffLoop env file fuel dest (bs.flatMap DeltaBlock.wire ++ dotLine :: rest) =
        .ok (some dest', rest) ∧
      dest'.data =
        (tn.map (expandLine env.keyword ((bs.getLast hbs).diffinfo env))).flatten := by
  induction bs generalizing fuel dest os ts with
  | nil => exact absurd rfl hbs
  | cons b bs ih =>
    obtain ⟨ts', happ, hsteps⟩ := hsteps
    obtain ⟨fuel, rfl⟩ : ∃ n, fuel = n + 1 := ⟨fuel - 1, by omega⟩
    obtain ⟨dest', hrun, hdata⟩ := diffLoop_block env b fuel hm hfile h ht happ
      (bs.flatMap DeltaBlock.wire ++ dotLine :: rest)
    rw [List.flatMap_cons, List.append_assoc, hrun]
    by_cases hnil : bs = []
    · subst hnil
      obtain rfl : ts' = tn := hsteps
      obtain ⟨fuel, rfl⟩ : ∃ n, fuel = n + 1 :=
        ⟨fuel - 1, by simp only [List.length_cons] at hfuel; omega⟩
      refine ⟨dest', ?_, hdata⟩
      rw [List.flatMap_nil, List.nil_append, diffLoop, protoGetChar_dotLine]
      simp
    · have hlen : bs.length < fuel := by simpa using hfuel
      have hnext := ih hnil (fun b hb => hclean b (by simp [hb])) hlen (some dest')
        (congrArg some hdata) (expands_map rfl (hclean b (by simp)) ts') happ.2.1 hsteps
      rwa [List.getLast_cons hnil]

/-- A chain of deltas: the temporary file holds the lines of the last text, each
expanded by the last delta. -/
theorem updaterDiff_chain (env : DiffEnv) (hm : Edits env.expand) {bs : List DeltaBlock}
    (hbs : bs ≠ []) (hclean : ∀ b ∈ bs, Clean env.keyword (b.diffinfo env))
    {os t0 tn : List Line} (ht : IsText nl t0) (h : List.Forall₂ (Expands env) os t0)
    (hsteps : Steps t0 bs tn) (rest : List Line) :
    ∃ dest, updaterDiff env (some os.flatten) (bs.flatMap DeltaBlock.wire ++ dotLine :: rest) =
        .ok (some dest, rest) ∧
      dest.data =
        (tn.map (expandLine env.keyword ((bs.getLast hbs).diffinfo env))).flatten := by
  apply diffLoop_blocks env hm hbs hclean _ none rfl h ht hsteps
  have hlen : bs.length ≤ (bs.flatMap DeltaBlock.wire).length := by
    rw [List.length_flatMap]
    have : ∀ cs : List DeltaBlock, cs.length ≤ (cs.map fun b => b.wire.length).sum := by
      intro cs
      induction cs with
      | nil => exact Nat.le_refl 0
      | cons c cs ih =>
        have hc : 0 < c.wire.length := by simp [DeltaBlock.wire]
        rw [List.map_cons, List.sum_cons, List.length_cons]
        omega
    exact this bs
  simp only [List.length_append, List.length_cons]
  omega

/-! ## A keyword value with a newline -/

/-- The file `f`, its keywords and the mode of a run. -/
def plainEnv : DiffEnv := ⟨keywordNew fun _ => 0, none, [102, 44, 118], none, .default⟩

/-- A revision by `author` that changes nothing. -/
def emptyBlock (author : Field) : DeltaBlock where
  revnum := ⟨[49, 46, 50], by decide, by decide, by decide, by decide⟩
  diffbase := ⟨[49, 46, 49], by decide, by decide, by decide, by decide⟩
  revdate := ⟨[50, 48, 48, 54, 46, 49, 46, 50, 46, 51, 46, 52, 46, 53], by decide, by decide,
    by decide, by decide⟩
  author := author
  state := none
  body := []
  cmds := []
  forced := false
  plus := false
  date_ok := by decide
  reads := .eof .zero false
  full := by simp

/-- `c` -/
def plainAuthor : Field := ⟨[99], by decide, by decide, by decide, by decide⟩

/-- `a`, a newline, `b` -/
def brokenAuthor : Field := ⟨[97, 92, 110, 98], by decide, by decide, by decide, by decide⟩

/-- `$Author$` -/
def authorLine : Line := [36, 65, 117, 116, 104, 111, 114, 36, 10]

theorem expandLine_authorLine (author : Field) :
    expandLine plainEnv.keyword ((emptyBlock author).diffinfo plainEnv) authorLine =
      [36, 65, 117, 116, 104, 111, 114, 58, 32] ++ author.text ++ [32, 36, 10] := by
  have hf : expandField plainEnv.keyword ((emptyBlock author).diffinfo plainEnv)
      [65, 117, 116, 104, 111, 114] =
      some (36 :: [65, 117, 116, 104, 111, 114] ++ [58, 32] ++ author.text ++ [32, 36]) := rfl
  have hnil : (36 : Byte) ∉ ([] : List Byte) := List.not_mem_nil
  have hsub : substFields 36 (expandField plainEnv.keyword ((emptyBlock author).diffinfo plainEnv))
      authorLine = _ ++ substFields 36 _ [10] := substFields_some hnil (by decide) hf
  have hend : substFields 36 (expandField plainEnv.keyword ((emptyBlock author).diffinfo plainEnv))
      [10] = [10] := substFields_notMem (by decide)
  rw [expandLine_of_keeps plainEnv.keyword (.inl rfl), hsub, hend]
  simp

theorem emptyBlock_applies (author : Field) {ts : List Line} (ht : IsText nl ts) :
    (emptyBlock author).Applies ts ts := by
  refine ⟨fun c hc => absurd hc (List.not_mem_nil), ht, ?_⟩
  rw [if_neg (by simp [DeltaBlock.script, emptyBlock, Script.noeol])]
  exact edited_nil ts

theorem clean_emptyBlock : Clean plainEnv.keyword ((emptyBlock plainAuthor).diffinfo plainEnv) :=
  ⟨by decide, by decide⟩

/-- Two revisions of the file `$Author$`. -/
theorem updaterDiff_chain_two :
    ∃ dest, updaterDiff plainEnv
        (some [36, 65, 117, 116, 104, 111, 114, 58, 32, 99, 32, 36, 10])
        ([emptyBlock plainAuthor, emptyBlock plainAuthor].flatMap DeltaBlock.wire ++ [dotLine]) =
        .ok (some dest, []) ∧
      dest.data = [36, 65, 117, 116, 104, 111, 114, 58, 32, 99, 32, 36, 10] := by
  have ht : IsText nl [authorLine] := ⟨by decide, by decide⟩
  have happ := emptyBlock_applies plainAuthor ht
  have hline := expandLine_authorLine plainAuthor
  have ho : List.Forall₂ (Expands plainEnv)
      [[36, 65, 117, 116, 104, 111, 114, 58, 32, 99, 32, 36, 10]] [authorLine] :=
    .cons ⟨_, rfl, clean_emptyBlock, hline.symm⟩ .nil
  have hclean : ∀ b ∈ [emptyBlock plainAuthor, emptyBlock plainAuthor],
      Clean plainEnv.keyword (b.diffinfo plainEnv) := by
    simpa using clean_emptyBlock
  obtain ⟨dest, hrun, hdata⟩ := updaterDiff_chain plainEnv (.inl (.inl rfl)) (by simp) hclean ht ho
    ⟨_, happ, _, happ, rfl⟩ []
  have htext : plainAuthor.text = [99] := by decide
  rw [htext] at hline
  refine ⟨dest, hrun, hdata.trans ?_⟩
  simpa using hline

/-- A value with a newline breaks the line: the file that holds the expanded
line `$Author$` has two lines, and no keyword in either. -/
theorem not_chain :
    ∃ (b : DeltaBlock) (di : Diffinfo) (t0 tn : List Line), di.expand = plainEnv.expand ∧
      ValuesLack plainEnv.keyword di 36 ∧ ValuesLack plainEnv.keyword (b.diffinfo plainEnv) 36 ∧
      IsText nl t0 ∧ Steps t0 [b] tn ∧
      ∃ dest, updaterDiff plainEnv (some (t0.map (expandLine plainEnv.keyword di)).flatten)
          (b.wire ++ [dotLine]) = .ok (some dest, []) ∧
        dest.data ≠ (tn.map (expandLine plainEnv.keyword (b.diffinfo plainEnv))).flatten := by
  have ht : IsText nl [authorLine] := ⟨by decide, by decide⟩
  refine ⟨emptyBlock plainAuthor, (emptyBlock brokenAuthor).diffinfo plainEnv, [authorLine],
    [authorLine], rfl, by decide, by decide, ht, ⟨_, emptyBlock_applies plainAuthor ht, rfl⟩, ?_⟩
  -- the two lines are a text of their own, which the delta leaves
  have ht' : IsText nl [[36, 65, 117, 116, 104, 111, 114, 58, 32, 97, 10], [98, 32, 36, 10]] :=
    ⟨⟨[36, 65, 117, 116, 104, 111, 114, 58, 32, 97], by decide, rfl⟩, by decide, by decide⟩
  have hkeep : ∀ l : Line, (36 ∉ l ∨ ∃ w r, 36 ∉ w ∧ 36 ∉ r ∧ l = w ++ 36 :: r) →
      expandLine plainEnv.keyword ((emptyBlock plainAuthor).diffinfo plainEnv) l = l := by
    intro l hl
    rw [expandLine_of_keeps plainEnv.keyword (.inl rfl)]
    rcases hl with hl | ⟨w, r, hw, hr, rfl⟩
    · exact substFields_notMem hl
    · exact substFields_single hw hr
  have h1 := hkeep [36, 65, 117, 116, 104, 111, 114, 58, 32, 97, 10]
    (.inr ⟨[], [65, 117, 116, 104, 111, 114, 58, 32, 97, 10], by decide, by decide, rfl⟩)
  have h2 := hkeep [98, 32, 36, 10] (.inr ⟨[98, 32], [10], by decide, by decide, rfl⟩)
  have ho : List.Forall₂ (Expands plainEnv)
      [[36, 65, 117, 116, 104, 111, 114, 58, 32, 97, 10], [98, 32, 36, 10]]
      [[36, 65, 117, 116, 104, 111, 114, 58, 32, 97, 10], [98, 32, 36, 10]] :=
    .cons ⟨_, rfl, clean_emptyBlock, h1.symm⟩ (.cons ⟨_, rfl, clean_emptyBlock, h2.symm⟩ .nil)
  have hne : [emptyBlock plainAuthor] ≠ [] := by simp
  have hclean : ∀ b ∈ [emptyBlock plainAuthor], Clean plainEnv.keyword (b.diffinfo plainEnv) := by
    simpa using clean_emptyBlock
  have hlen : [emptyBlock plainAuthor].length < 5 := by simp
  obtain ⟨dest, hrun, hdata⟩ := diffLoop_blocks plainEnv (.inl (.inl rfl)) hne hclean hlen none rfl
    ho ht' ⟨_, emptyBlock_applies plainAuthor ht', rfl⟩ []
  refine ⟨dest, ?_, ?_⟩
  · rw [List.map_singleton, expandLine_authorLine]
    exact hrun
  · rw [hdata, List.map_singleton, expandLine_authorLine]
    simp only [List.getLast_singleton, List.map_cons, List.map_nil, h1, h2]
    decide

end Csup.Updater
