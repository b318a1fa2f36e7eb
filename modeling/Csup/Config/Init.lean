import Csup.Config.Settings

/-!
# The collections of a session: `config_init`

* `yyparse_supfile`: what a supfile is read as;
* `configInit_iff`: when there are collections, and what they are, whatever the supfile is.
-/

namespace Csup.Config

open Csup.Framework (splitLines lastValue)

variable {umask : BitVec 32} {ovcoll : Coll} {ovmask : BitVec 32} {content : List Byte}
  {lines : List Stmt} {g : Globals} {coll coll' : Coll} {reads : Reads}

/-! ## The parser -/

theorem begins : setopts (blankColl umask) [] = .ok (blankColl umask) := rfl

/-- A supfile is read as its lines say, whatever the white space and the comments are. -/
theorem yyparse_supfile (h : Renders (lines.flatMap Stmt.tokens) content) :
    (∀ g, yyparse ovcoll ovmask none (.init umask) (tokens content) = .ok g →
      g.colls = (collsOf [] lines).map (collOf umask ovcoll ovmask)) ∧
    ((∃ g, yyparse ovcoll ovmask none (.init umask) (tokens content) = .ok g) ↔
      Accepted ovcoll [] [] lines) := by
  rw [tokens_of_renders h, yyparse_lines]
  exact ⟨fun g hg => (runLines_colls begins hg).trans (List.nil_append _), runLines_iff begins⟩

/-- A host for all collections, and two of them, with a comment in front. -/
def threeLines : List Stmt :=
  [⟨.default, [(.host, [104])]⟩, ⟨.coll [97], [(.release, [114]), (.compress, [])]⟩,
    ⟨.coll [98], [(.release, [114])]⟩]

def threeFile : List Byte := bytes "*default host=h # \n\ta release=r compress\nb release=r\n".toList

theorem head_cons {c : Byte} (h : wordByte c = false) (s : List Byte) :
    ∀ b ∈ (c :: s).head?, wordByte b = false := by
  intro b hb
  rw [← Option.some.inj hb]
  exact h

theorem renders_threeLines : Renders (threeLines.flatMap Stmt.tokens) threeFile := by
  have hsp : Gap [32] := .blank (.inl rfl) .nil
  have hnl : Gap [nl] := .blank (.inr (.inr rfl)) .nil
  have hcomment : Gap (32 :: (35 :: [32] ++ nl :: [9])) :=
    .blank (.inl rfl) (.comment (by decide) (.blank (.inr (.inl rfl)) .nil))
  have ha : (Token.string [97]).IsText [97] := .string (by decide)
  have hb : (Token.string [98]).IsText [98] := .string (by decide)
  have hh : (Token.string [104]).IsText [104] := .string (by decide)
  have hr : (Token.string [114]).IsText [114] := .string (by decide)
  have hhost : (Token.name .host).IsText (bytes "host".toList) := .keyword (by decide)
  have hrelease : (Token.name .release).IsText (bytes "release".toList) := .keyword (by decide)
  have hcompress : (Token.boolean .compress).IsText (bytes "compress".toList) :=
    .keyword (by decide)
  have hequal : ¬[61].all wordByte = true := by decide
  have hblank : wordByte 32 = false := rfl
  have heq : wordByte 61 = false := rfl
  have hline : wordByte nl = false := rfl
  -- from the end of the file to its beginning: `release=r`, and so on
  have h := Renders.nil hnl
  have h := Renders.token Gap.nil hr h fun _ => head_cons hline _
  have h := Renders.token Gap.nil .equal h fun hw => absurd hw hequal
  have h := Renders.token hsp hrelease h fun _ => head_cons heq _
  have h := Renders.token hnl hb h fun _ => head_cons hblank _
  have h := Renders.token hsp hcompress h fun _ => head_cons hline _
  have h := Renders.token Gap.nil hr h fun _ => head_cons hblank _
  have h := Renders.token Gap.nil .equal h fun hw => absurd hw hequal
  have h := Renders.token hsp hrelease h fun _ => head_cons heq _
  have h := Renders.token hcomment ha h fun _ => head_cons hblank _
  have h := Renders.token Gap.nil hh h fun _ => head_cons hblank _
  have h := Renders.token Gap.nil .equal h fun hw => absurd hw hequal
  have h := Renders.token hsp hhost h fun _ => head_cons heq _
  exact .token Gap.nil .default h fun _ => head_cons hblank _

theorem accepted_threeLines (ovcoll : Coll) : Accepted ovcoll [] [] threeLines where
  valid := by decide
  addable := by
    intro p hp
    have hopts : (lastOf .release p.2).isSome ∧ (lastOf .host p.2).isSome := by
      rcases List.mem_cons.mp hp with rfl | hp
      · decide
      · obtain rfl := List.mem_singleton.mp hp
        decide
    refine ⟨?_, ?_, fun c hc => (by cases hc)⟩
    · rw [releaseOf, Option.isSome_or, hopts.1, Bool.or_true]
    · rw [hostOf, Option.isSome_or, hopts.2, Bool.or_true]
  agreed := List.pairwise_pair.mpr rfl

theorem yyparse_supfile_threeLines :
    (∀ g, yyparse (collNew none) 0 none (.init 18) (tokens threeFile) = .ok g →
      g.colls = (collsOf [] threeLines).map (collOf 18 (collNew none) 0)) ∧
    ((∃ g, yyparse (collNew none) 0 none (.init 18) (tokens threeFile) = .ok g) ↔
      Accepted (collNew none) [] [] threeLines) :=
  yyparse_supfile renders_threeLines

/-! ## Refuse files -/

/-- What can be read of a file is all of it. -/
def Whole (reads : Reads) (path : List Byte) : Prop := ∀ r ∈ reads path, r.2 = true

/-- The patterns of a refuse file. -/
def patternsAt (reads : Reads) (path : List Byte) : List (List Byte) :=
  (reads path).toList.flatMap fun r => (splitLines nl r.1).flatMap fun l => patterns (cline l)

/-- The refuse files: for all collections, for this one, and for its release and tag. -/
def refusePaths (coll : Coll) : List (List Byte) :=
  let collstem := supdir coll ++ 47 :: (coll.name.getD [] ++ bytes "/refuse".toList)
  (supdir coll ++ bytes "/refuse".toList) :: collstem ::
    (collStatussuffix coll).join.toList.map (collstem ++ ·)

theorem configParseRefusefile_iff {path : List Byte} :
    configParseRefusefile reads coll path = some coll' ↔ Whole reads path ∧
      coll' = { coll with refusals := coll.refusals ++ patternsAt reads path } := by
  unfold configParseRefusefile Whole patternsAt
  cases hr : reads path with
  | none => simp [@eq_comm _ coll']
  | some r =>
    obtain ⟨content, all⟩ := r
    cases all <;> simp [@eq_comm _ coll']

theorem foldlM_refusefile {paths : List (List Byte)} :
    paths.foldlM (configParseRefusefile reads) coll = some coll' ↔
      (∀ path ∈ paths, Whole reads path) ∧
        coll' = { coll with refusals := coll.refusals ++ paths.flatMap (patternsAt reads) } := by
  induction paths generalizing coll with
  | nil => simp [@eq_comm _ coll']
  | cons path paths ih =>
    rw [List.foldlM_cons, List.forall_mem_cons, List.flatMap_cons]
    constructor
    · intro h
      obtain ⟨coll1, h1, h⟩ := Option.bind_eq_some_iff.mp h
      obtain ⟨hw, rfl⟩ := configParseRefusefile_iff.mp h1
      obtain ⟨hws, rfl⟩ := ih.mp h
      exact ⟨⟨hw, hws⟩, by rw [← List.append_assoc]⟩
    · rintro ⟨⟨hw, hws⟩, rfl⟩
      refine Option.bind_eq_some_iff.mpr ⟨_, configParseRefusefile_iff.mpr ⟨hw, rfl⟩, ?_⟩
      exact ih.mpr ⟨hws, by rw [← List.append_assoc]⟩

/-- The paths are not made of the refusals. -/
theorem configParseRefusefiles_iff (h : (collStatussuffix coll).isSome) :
    configParseRefusefiles reads coll = some coll' ↔
      (∀ path ∈ refusePaths coll, Whole reads path) ∧
        coll' = { coll with
          refusals := coll.refusals ++ (refusePaths coll).flatMap (patternsAt reads) } := by
  rw [← foldlM_refusefile]
  obtain ⟨suffix, hs⟩ := Option.isSome_iff_exists.mp h
  unfold refusePaths
  rw [hs, List.foldlM_cons]
  refine Eq.congr_left ?_
  refine Option.bind_congr fun coll1 h1 => ?_
  obtain ⟨-, rfl⟩ := configParseRefusefile_iff.mp h1
  refine Option.bind_congr fun coll2 h2 => ?_
  obtain ⟨-, rfl⟩ := configParseRefusefile_iff.mp h2
  show (collStatussuffix coll >>= _) = _
  rw [hs]
  cases suffix with
  | none => rfl
  | some suffix => exact (bind_pure (configParseRefusefile reads _ _)).symm

/-- A collection with a release has a suffix. -/
theorem isSome_collStatussuffix (h : coll.release.isSome) : (collStatussuffix coll).isSome := by
  obtain ⟨release, hr⟩ := Option.isSome_iff_exists.mp h
  unfold collStatussuffix
  split
  · rfl
  · rw [hr]
    split
    · show Option.isSome (if _ then some (some _) else some (some _)) = true
      split <;> rfl
    · rfl

/-! ## The collections -/

/-- What `config_init` makes of a collection that has been read. -/
def readied (reads : Reads) (coll : Coll) : Coll :=
  { fixup coll with
    refusals := coll.refusals ++ (refusePaths (fixup coll)).flatMap (patternsAt reads) }

theorem mapM_refusefiles {made : List Coll} {colls : List Coll}
    (hr : ∀ coll ∈ made, coll.release.isSome) :
    made.mapM (fun coll => configParseRefusefiles reads (fixup coll)) = some colls ↔
      (∀ coll ∈ made, ∀ path ∈ refusePaths (fixup coll), Whole reads path) ∧
        colls = made.map (readied reads) := by
  induction made generalizing colls with
  | nil =>
    exact ⟨fun h => ⟨fun _ hc => absurd hc List.not_mem_nil, (Option.some.inj h).symm⟩,
      fun h => congrArg some h.2.symm⟩
  | cons coll made ih =>
    rw [List.forall_mem_cons] at hr
    have hs : (collStatussuffix (fixup coll)).isSome := isSome_collStatussuffix hr.1
    rw [List.mapM_cons, List.forall_mem_cons]
    constructor
    · intro h
      obtain ⟨c, hc, h⟩ := Option.bind_eq_some_iff.mp h
      obtain ⟨cs, hcs, h⟩ := Option.bind_eq_some_iff.mp h
      obtain rfl := Option.some.inj h
      obtain ⟨hw, rfl⟩ := (configParseRefusefiles_iff hs).mp hc
      obtain ⟨hws, rfl⟩ := (ih hr.2).mp hcs
      exact ⟨⟨hw, hws⟩, rfl⟩
    · rintro ⟨⟨hw, hws⟩, rfl⟩
      refine Option.bind_eq_some_iff.mpr ⟨_, (configParseRefusefiles_iff hs).mpr ⟨hw, rfl⟩, ?_⟩
      exact Option.bind_eq_some_iff.mpr ⟨_, (ih hr.2).mpr ⟨hws, rfl⟩, rfl⟩

/-- What is known of the collections of a session. -/
theorem configInit_ok {colls : List Coll}
    (h : configInit reads umask ovcoll ovmask content = .ok (some colls)) :
    ∃ lines, tokens content = lines.flatMap Stmt.tokens ∧ Accepted ovcoll [] [] lines ∧
      collsOf [] lines ≠ [] ∧
      (∀ p ∈ collsOf [] lines, ∀ path ∈ refusePaths (fixup (collOf umask ovcoll ovmask p)),
        Whole reads path) ∧
      colls = (collsOf [] lines).map fun p => readied reads (collOf umask ovcoll ovmask p) := by
  obtain ⟨g, hg, h⟩ := exists_bind h
  obtain ⟨lines, htokens, hrun⟩ := exists_lines ovcoll ovmask hg (fits_tokens content)
  have hcolls : g.colls = (collsOf [] lines).map (collOf umask ovcoll ovmask) :=
    (runLines_colls begins hrun).trans (List.nil_append _)
  have hacc : Accepted ovcoll [] [] lines := (runLines_iff begins).mp ⟨g, hrun⟩
  refine ⟨lines, htokens, hacc, ?_⟩
  split at h
  · cases Except.ok.inj h
  · rename_i hne
    rw [hcolls] at hne h
    have hrelease : ∀ coll ∈ (collsOf [] lines).map (collOf umask ovcoll ovmask),
        coll.release.isSome := List.forall_mem_map.mpr fun p hp => (hacc.addable p hp).release
    obtain ⟨hwhole, rfl⟩ := (mapM_refusefiles hrelease).mp (Except.ok.inj h)
    refine ⟨fun hnil => hne (by rw [hnil]; rfl), List.forall_mem_map.mp hwhole, ?_⟩
    rw [List.map_map]
    rfl

theorem configInit_of_lines (htokens : tokens content = lines.flatMap Stmt.tokens)
    (hacc : Accepted ovcoll [] [] lines) (hne : collsOf [] lines ≠ [])
    (hwhole : ∀ p ∈ collsOf [] lines, ∀ path ∈ refusePaths (fixup (collOf umask ovcoll ovmask p)),
      Whole reads path) :
    configInit reads umask ovcoll ovmask content = .ok (some
      ((collsOf [] lines).map fun p => readied reads (collOf umask ovcoll ovmask p))) := by
  have hrun : ∃ g, runLines ovcoll ovmask (.init umask) lines = .ok g :=
    (runLines_iff begins).mpr hacc
  obtain ⟨g, hrun⟩ := hrun
  have hcolls : g.colls = (collsOf [] lines).map (collOf umask ovcoll ovmask) :=
    (runLines_colls begins hrun).trans (List.nil_append _)
  have hrelease : ∀ coll ∈ g.colls, coll.release.isSome := by
    rw [hcolls]
    exact List.forall_mem_map.mpr fun p hp => (hacc.addable p hp).release
  unfold configInit
  rw [htokens, yyparse_lines, hrun]
  show (if g.colls = [] then _ else _) = _
  rw [if_neg (by rw [hcolls]; exact fun h => hne (List.map_eq_nil_iff.mp h))]
  refine congrArg Except.ok ((mapM_refusefiles hrelease).mpr ?_)
  rw [hcolls, List.map_map]
  exact ⟨List.forall_mem_map.mpr hwhole, rfl⟩

/-- When there are collections, and what they are: a supfile of lines that agree, with a collection,
and refuse files that can be read to their end. -/
theorem configInit_iff {colls : List Coll} :
    configInit reads umask ovcoll ovmask content = .ok (some colls) ↔
      ∃ lines, tokens content = lines.flatMap Stmt.tokens ∧ Accepted ovcoll [] [] lines ∧
        collsOf [] lines ≠ [] ∧
        (∀ p ∈ collsOf [] lines, ∀ path ∈ refusePaths (fixup (collOf umask ovcoll ovmask p)),
          Whole reads path) ∧
        colls = (collsOf [] lines).map fun p => readied reads (collOf umask ovcoll ovmask p) := by
  refine ⟨configInit_ok, ?_⟩
  rintro ⟨lines, htokens, hacc, hne, hwhole, rfl⟩
  exact configInit_of_lines htokens hacc hne hwhole

end Csup.Config
