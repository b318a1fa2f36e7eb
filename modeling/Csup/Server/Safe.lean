import Csup.Server.Lines

/-!
# Which lines the client can stand

A line is good where it ends the loop, is rejected, or is carried out with fields that are
there and not empty and with paths that are there (`Outcome.Fine`). `Safe` says on the text
of the line when that is so:

* `run_fine`: of the steps of a command;
* `perform_fine`: of a case of a switch. Only the last field is looked at, and that is
  enough;
* `fine_iff`: of every line at every place.
-/

namespace Csup.Server

open Csup.Attrs (LengthLeadsOut decodeAt_eq_none)
open Csup.Diff (Line)
open Csup.Docoll (checkoutpath isrcs)
open Csup.Framework (Cells)
open Csup.Proto
open Csup.Updater (Path)

/-- The line is carried out as it should be, or not at all. -/
def Outcome.Fine : Outcome → Prop
  | .rejected | .ended => True
  | .executed fields paths => [] ∉ fields ∧ none ∉ paths
  | .fault _ => False

/-! ## When a line is safe -/

section

variable (env : Setting)

/-- The code goes wrong at a step: the lengths in the attributes lead out of the string, a
name is not that of an RCS file, or the command is one of CVS mode. -/
def Step.Breaks (fields : List (List Byte)) : Step → Prop
  | .decode attr => LengthLeadsOut env.fflags (field fields attr)
  | .pathUnasked => env.coll.checkoutmode = true ∧ isrcs (field fields 0) = false
  | .cvsmode => env.coll.checkoutmode = true
  | _ => False

/-- All steps before it come out well. -/
def Reached (fields : List (List Byte)) (steps : List Step) (step : Step) : Prop :=
  ∃ before after, steps = before ++ step :: after ∧ ∀ t ∈ before, t.verdict env fields = .pass

/-- A line with the right number of words, none of them empty: the code does not come to
a step where it goes wrong, and where a word is a lone backslash a step turns it away. -/
def ArmSafe (a : Arm) (line : Option (List Byte)) : Prop :=
  ∀ fs : List (List Byte), fs.length = a.fields → (∀ f ∈ fs, IsField f) →
    line = some (joined fs) →
      (∀ step, Reached env (fs.map protoUnescape) a.steps step →
        ¬step.Breaks env (fs.map protoUnescape)) ∧
      ([92] ∈ fs → ∃ step, Reached env (fs.map protoUnescape) a.steps step ∧
        step.verdict env (fs.map protoUnescape) = .reject)

def CaseSafe : Option Case → Option (List Byte) → Prop
  | none, _ => True
  | some (.arm a), line => ArmSafe env a line
  | some .rest, line => ∃ msg, line = some msg ∧ msg ≠ [] ∧ msg ≠ [92]
  | some (.upTo n), line => ∀ l, line = some l → ¬LoneAmong n l

/-- A line that begins with a letter. -/
def LetterSafe (cases : Byte → Option Case) (line : List Byte) : Prop :=
  ¬LoneAmong 1 line ∧
    ∀ cmd rest, protoGetChar (some line) = (some cmd, rest) → CaseSafe env (cases cmd) rest

/-- A line that begins with a word. -/
def WordSafe (cases : List Byte → Option Case) (line : List Byte) : Prop :=
  ∀ cmd rest, protoGetAscii (some line) = (some cmd, rest) → CaseSafe env (cases cmd) rest

/-- The lines that make no trouble; the end of the stream is one. -/
def Safe : Place → Option Line → Prop
  | _, none => True
  | .docoll, some line => LetterSafe env docollCase (cline line)
  | .detailerColl, some line => LetterSafe env detailerCase (cline line)
  | .xchgcoll, some line => WordSafe env xchgCase (cline line)
  | .greet, some line => WordSafe env greetCase (cline line)
  | .detailerHeader, some line => CaseSafe env (detailerHeaderCase env) (some (cline line))
  | .xchgHeader, some line => CaseSafe env (xchgHeaderCase env) (some (cline line))
  | .detailerEnd, some _ => True

end

/-! ## Steps -/

variable {env : Setting} {fields : List (List Byte)}

theorem ensure_ne_fault (b : Bool) (f : Fault) : ensure b ≠ .fault f := by
  cases b <;> nofun

theorem zero_notMem_field (h0 : ∀ w ∈ fields, 0 ∉ w) (i : Nat) : 0 ∉ field fields i := by
  rw [field, List.getD_eq_getElem?_getD]
  rcases h : fields[i]? with - | w
  · exact List.not_mem_nil
  · exact h0 w (List.mem_of_getElem? h)

/-- Where there is no path. -/
theorem destpath_isSome (name : List Byte) (attic : Bool) :
    (destpath env name attic).isSome = false ↔
      env.coll.checkoutmode = true ∧ isrcs name = false := by
  unfold destpath checkoutpath
  split_ifs with hmode hrcs
  · simp [hrcs]
  · simp [hmode, hrcs]
  · simp [hmode]

/-- A step faults if and only if the code goes wrong at it. -/
theorem verdict_fault (env : Setting) (h0 : ∀ w ∈ fields, 0 ∉ w) (step : Step) :
    (∃ f, step.verdict env fields = .fault f) ↔ step.Breaks env fields := by
  cases step with
  | decode attr =>
    rw [Step.Breaks, ← decodeAt_eq_none (zero_notMem_field h0 attr) env.fflags env.ids,
      Step.verdict]
    split
    · next h => exact iff_of_true ⟨_, rfl⟩ h
    · next h =>
      rw [h]
      exact iff_of_false (fun ⟨f, hf⟩ => ensure_ne_fault _ f hf) (by simp)
  | pathUnasked =>
    rw [Step.Breaks, ← destpath_isSome (field fields 0) false, Step.verdict]
    split_ifs with h <;> simp [h]
  | cvsmode =>
    rw [Step.Breaks, Step.verdict]
    split_ifs with h <;> simp [h]
  | delete =>
    refine iff_of_false ?_ id
    rw [Step.verdict]
    split_ifs <;> simp
  | path | expand | date | equal | int | time | key | keys =>
    exact iff_of_false (fun ⟨f, hf⟩ => ensure_ne_fault _ f hf) id

/-- A step that comes out well has made its path. -/
theorem notMem_paths {step : Step} (h : step.verdict env fields = .pass) :
    none ∉ step.paths env fields := by
  have hsome (b : Bool) (hb : ensure b = .pass) : b = true := by
    cases b
    · cases hb
    · rfl
  cases step with
  | path attic =>
    have := hsome _ h
    simp only [Step.paths, List.mem_singleton]
    intro h0
    simp [← h0] at this
  | pathUnasked =>
    simp only [Step.paths, List.mem_singleton]
    intro h0
    rw [Step.verdict, ← h0] at h
    cases h
  | _ => exact List.not_mem_nil

theorem not_reached_nil (step : Step) : ¬Reached env fields [] step := by
  rintro ⟨before, after, h, -⟩
  simp at h

/-- A step is reached when it is the first, or when the first comes out well. -/
theorem reached_cons {t step : Step} {steps : List Step} :
    Reached env fields (t :: steps) step ↔
      step = t ∨ t.verdict env fields = .pass ∧ Reached env fields steps step := by
  constructor
  · rintro ⟨before, after, h, hpass⟩
    rcases before with - | ⟨u, before⟩
    · cases h
      exact .inl rfl
    · cases h
      exact .inr ⟨hpass _ (by simp), before, after, rfl, fun v hv => hpass v (by simp [hv])⟩
  · rintro (rfl | ⟨ht, before, after, rfl, hpass⟩)
    · exact ⟨[], steps, rfl, by simp⟩
    · refine ⟨t :: before, after, rfl, fun v hv => ?_⟩
      rcases List.mem_cons.mp hv with rfl | hv
      · exact ht
      · exact hpass v hv

/-- The steps of a command: none where the code goes wrong is reached, and an empty field
is turned away. By induction on the steps. -/
theorem run_fine (h0 : ∀ w ∈ fields, 0 ∉ w) {paths : List (Option Path)}
    (hpaths : none ∉ paths) (steps : List Step) :
    (run env fields paths steps).Fine ↔
      (∀ step, Reached env fields steps step → ¬step.Breaks env fields) ∧
      ([] ∈ fields → ∃ step, Reached env fields steps step ∧
        step.verdict env fields = .reject) := by
  induction steps generalizing paths with
  | nil =>
    simp only [run, Outcome.Fine, not_reached_nil, false_and, exists_false, imp_false,
      IsEmpty.forall_iff, implies_true, true_and]
    exact and_iff_left hpaths
  | cons t steps ih =>
    have hfault := verdict_fault env h0 t
    have hwhole (h : ∀ f, t.verdict env fields ≠ .fault f) : ¬t.Breaks env fields := fun hb =>
      (hfault.mpr hb).elim h
    simp only [reached_cons, forall_eq_or_imp, or_and_right, exists_or, exists_eq_left]
    rw [run]
    cases ht : t.verdict env fields with
    | pass =>
      have hbreaks := hwhole (by simp [ht])
      rw [ih (by simp [hpaths, notMem_paths ht])]
      simp [hbreaks]
    | reject =>
      have hbreaks := hwhole (by simp [ht])
      simp [Outcome.Fine, hbreaks]
    | stop =>
      have hbreaks := hwhole (by simp [ht])
      simp [Outcome.Fine, hbreaks, hpaths]
    | fault f =>
      have hbreaks : t.Breaks env fields := hfault.mp ⟨f, ht⟩
      simp [Outcome.Fine, hbreaks]

/-! ## Cases -/

/-- The fields that are there. -/
theorem reduceOption_map_some (ws : List (List Byte)) : (ws.map some).reduceOption = ws := by
  induction ws with
  | nil => rfl
  | cons w ws ih => rw [List.map_cons, List.reduceOption_cons_of_some, ih]

theorem Arm.ne_nil {a : Arm} {fs : List (List Byte)} (hlen : fs.length = a.fields) : fs ≠ [] := by
  have := a.pos
  rintro rfl
  simp only [List.length_nil] at hlen
  omega

/-- With the right number of words the steps are done on what they stand for. -/
theorem perform_joined (a : Arm) {fs : List (List Byte)} (hlen : fs.length = a.fields)
    (hfs : ∀ f ∈ fs, IsField f) :
    perform env (some (.arm a)) (some (joined fs)) =
      run env (fs.map protoUnescape) [] a.steps := by
  have hget := getAsciis_joined (Arm.ne_nil hlen) hfs
  rw [hlen] at hget
  have hmap : (fs.map fun f => some (protoUnescape f)) = (fs.map protoUnescape).map some := by
    simp
  have hlast : ((fs.map protoUnescape).map some).getLast? ≠ some none := fun h => by
    have := List.mem_of_getLast? h
    simp at this
  rw [perform, hget, hmap]
  dsimp only
  rw [if_neg (fun h => h.elim hlast (fun h => h rfl)), if_neg (by simp), reduceOption_map_some]

/-- All other lines are rejected. -/
theorem perform_rejected (a : Arm) {line : Option (List Byte)} (h : ¬Accepts a.fields line) :
    perform env (some (.arm a)) line = .rejected := by
  have hne : (getAsciis a.fields line).1 ≠ [] := by
    obtain ⟨n, hn⟩ : ∃ n, a.fields = n + 1 := ⟨a.fields - 1, by have := a.pos; omega⟩
    rw [hn]
    exact List.cons_ne_nil _ _
  rw [perform]
  dsimp only
  refine if_pos (or_iff_not_imp_left.mpr fun hlast hrest => h ⟨?_, hrest⟩)
  rw [List.getLast?_eq_some_getLast hne] at hlast ⊢
  rcases hret : (getAsciis a.fields line).1.getLast hne with - | ret
  · exact absurd (congrArg some hret) hlast
  · exact ⟨ret, rfl⟩

/-- The words that stand for the empty string. -/
theorem nil_mem_map_protoUnescape {fs : List (List Byte)} (hfs : ∀ f ∈ fs, IsField f) :
    [] ∈ fs.map protoUnescape ↔ [92] ∈ fs := by
  simp only [List.mem_map, protoUnescape_eq_nil]
  constructor
  · rintro ⟨f, hf, rfl | rfl⟩
    · exact absurd rfl (hfs _ hf).1
    · exact hf
  · exact fun hf => ⟨_, hf, .inr rfl⟩

/-- A command with its fields: the test of the last one covers the others. -/
theorem arm_fine (a : Arm) {line : Option (List Byte)} (h0 : ∀ l, line = some l → 0 ∉ l) :
    (perform env (some (.arm a)) line).Fine ↔ ArmSafe env a line := by
  have hrun {fs : List (List Byte)} (hlen : fs.length = a.fields) (hfs : ∀ f ∈ fs, IsField f)
      (hline : line = some (joined fs)) :
      (perform env (some (.arm a)) line).Fine ↔
        (∀ step, Reached env (fs.map protoUnescape) a.steps step →
          ¬step.Breaks env (fs.map protoUnescape)) ∧
        ([92] ∈ fs → ∃ step, Reached env (fs.map protoUnescape) a.steps step ∧
          step.verdict env (fs.map protoUnescape) = .reject) := by
    have hzero : ∀ w ∈ fs.map protoUnescape, 0 ∉ w := by
      intro w hw
      obtain ⟨f, hf, rfl⟩ := List.mem_map.mp hw
      exact zero_notMem_protoUnescape fun hmem => h0 _ hline (subset_joined hf hmem)
    rw [hline, perform_joined a hlen hfs, run_fine hzero List.not_mem_nil,
      nil_mem_map_protoUnescape hfs]
  constructor
  · exact fun hfine fs hlen hfs hline => (hrun hlen hfs hline).mp hfine
  · intro hsafe
    by_cases hacc : Accepts a.fields line
    · obtain ⟨fs, hlen, hfs, hline, -⟩ := getAsciis_of_accepts a.pos hacc
      exact (hrun hlen hfs hline).mpr (hsafe fs hlen hfs hline)
    · rw [perform_rejected a hacc]
      trivial

/-- A case of a switch. -/
theorem perform_fine (env : Setting) (case : Option Case) {line : Option (List Byte)}
    (h0 : ∀ l, line = some l → 0 ∉ l) :
    (perform env case line).Fine ↔ CaseSafe env case line := by
  match case with
  | none => exact Iff.rfl
  | some (.arm a) => exact arm_fine a h0
  | some .rest =>
    rcases line with - | msg
    · simp [perform, Outcome.Fine, CaseSafe]
    · simp only [perform, Outcome.Fine, CaseSafe, List.mem_singleton, List.not_mem_nil,
        not_false_eq_true, and_true, Option.some.injEq, exists_eq_left']
      rw [eq_comm, protoUnescape_eq_nil, not_or]
  | some (.upTo n) =>
    simp only [perform, Outcome.Fine, CaseSafe, List.not_mem_nil, not_false_eq_true, and_true,
      List.reduceOption_mem_iff]
    rcases line with - | line
    · simp [notMem_getAsciis_null]
    · simp [mem_getAsciis]

/-! ## Lines -/

theorem protoGetChar_rest {line : Option (List Byte)} {cmd : Byte} {rest : Option (List Byte)}
    (h : protoGetChar line = (some cmd, rest)) : (protoGetAscii line).2 = rest := by
  unfold protoGetChar at h
  split at h <;> cases h <;> simp [*]

/-- What is behind the first word has no NUL either. -/
theorem zero_notMem_rest {line rest : List Byte} (h0 : 0 ∉ line)
    (h : (protoGetAscii (some line)).2 = some rest) : 0 ∉ rest := fun hmem =>
  h0 (subset_rest h hmem)

/-- The switches on a letter. -/
theorem letter_fine (cases : Byte → Option Case) {line : List Byte} (h0 : 0 ∉ line) :
    (match getChar (some line) with
      | .error f => Outcome.fault f
      | .ok (cmd, rest) => perform env (cmd.bind cases) rest).Fine ↔
      LetterSafe env cases line := by
  rw [LetterSafe, ← protoGetAscii_lone, getChar]
  split_ifs with hlone
  · simp [hlone, Outcome.Fine]
  · rcases hc : protoGetChar (some line) with ⟨- | cmd, rest⟩
    · simp [perform, Outcome.Fine, hlone]
    · have hrest := protoGetChar_rest hc
      have := perform_fine env (cases cmd) fun l hl => zero_notMem_rest h0 (hrest.trans hl)
      simp [hlone, this]

/-- The switches on a word. -/
theorem word_fine (cases : List Byte → Option Case) {line : List Byte} (h0 : 0 ∉ line) :
    (match protoGetAscii (some line) with
      | (cmd, rest) => perform env (cmd.bind cases) rest).Fine ↔ WordSafe env cases line := by
  rw [WordSafe]
  rcases hc : protoGetAscii (some line) with ⟨- | cmd, rest⟩
  · simp [perform, Outcome.Fine]
  · have := perform_fine env (cases cmd) fun l hl =>
      zero_notMem_rest h0 ((congrArg Prod.snd hc).trans hl)
    simp [this]

theorem docoll_fine (line : Line) :
    (docoll env (some line)).Fine ↔ LetterSafe env docollCase (cline line) := by
  rw [← letter_fine docollCase (zero_notMem_cline line), docoll]
  rcases getChar (some (cline line)) with f | ⟨cmd, rest⟩
  · exact Iff.rfl
  · dsimp only
    split_ifs with hdot
    · obtain ⟨rfl, rfl⟩ := hdot
      exact Iff.rfl
    · exact Iff.rfl

theorem detailerColl_fine (line : Line) :
    (detailerColl env (some line)).Fine ↔ LetterSafe env detailerCase (cline line) := by
  rw [← letter_fine detailerCase (zero_notMem_cline line), detailerColl]
  split_ifs with hdot
  · rw [hdot]
    exact Iff.rfl
  · exact Iff.rfl

theorem xchgcoll_fine (line : Line) :
    (xchgcoll env (some line)).Fine ↔ WordSafe env xchgCase (cline line) := by
  rw [← word_fine xchgCase (zero_notMem_cline line), xchgcoll]
  split_ifs with hdot
  · rw [hdot]
    exact Iff.rfl
  · exact Iff.rfl

theorem detailerEnd_fine (line : Line) : (detailerEnd (some line)).Fine := by
  rw [detailerEnd]
  split_ifs <;> trivial

/-- The end of the stream is rejected everywhere. -/
theorem outcome_eof (p : Place) : (outcome env p none).Fine := by
  cases p with
  | detailerHeader =>
    have h0 : ∀ l, (none : Option (List Byte)) = some l → 0 ∉ l := fun _ h => nomatch h
    exact (perform_fine env (detailerHeaderCase env) h0).mpr fun _ _ _ h => nomatch h
  | _ => trivial

/-- A line is carried out with all its fields and its path, or rejected, or the end of a
loop, if and only if it is safe. -/
theorem fine_iff (env : Setting) (p : Place) (line : Option Line) :
    (outcome env p line).Fine ↔ Safe env p line := by
  rcases line with - | line
  · exact iff_of_true (outcome_eof p) (by cases p <;> trivial)
  · have h0 : ∀ l, some (cline line) = some l → 0 ∉ l := by
      rintro l ⟨⟩
      exact zero_notMem_cline line
    cases p with
    | docoll => exact docoll_fine line
    | detailerHeader => exact perform_fine env (detailerHeaderCase env) h0
    | detailerColl => exact detailerColl_fine line
    | detailerEnd => exact iff_of_true (detailerEnd_fine line) trivial
    | xchgHeader => exact perform_fine env (xchgHeaderCase env) h0
    | xchgcoll => exact xchgcoll_fine line
    | greet => exact word_fine greetCase (zero_notMem_cline line)

/-- A collection in CVS mode. -/
def someSetting : Setting where
  coll :=
    { exactrcs := true
      keepbadfiles := false
      pre := bytes "/cvs".toList
      checkoutmode := false
      delete := true
      umask := 0o22
      cvsroot := none
      keyword := Keyword.keywordNew fun _ => 0 }
  name := bytes "src".toList
  release := bytes "cvs".toList
  fflags := false
  ids := Attrs.noIds
  timegm := fun _ => none
  stops := false

/-- A line that is a backslash. -/
theorem not_fine : ¬∀ env p line, (outcome env p line).Fine := fun hall =>
  hall someSetting .docoll (some [92, nl])

/-! ## The commands of `updater_docoll` -/

theorem getFields_joined {fs : List (List Byte)} (hne : fs ≠ []) (h : ∀ f ∈ fs, IsField f) :
    Updater.getFields fs.length (some (joined fs)) = some (fs.map protoUnescape) := by
  induction fs with
  | nil => exact absurd rfl hne
  | cons f fs ih =>
    obtain ⟨hf, hblank⟩ := h f (by simp)
    by_cases hfs : fs = []
    · subst hfs
      show Updater.getFields 1 (some f) = _
      rw [Updater.getFields, protoGetAscii_last hf hblank]
      rfl
    · rw [joined_cons f hfs, List.length_cons, Updater.getFields, protoGetAscii_field hf hblank]
      have := ih hfs fun g hg => h g (by simp [hg])
      simp [this]

/-- A command of the switch is one of `commandOf`. -/
theorem commandOf_of_arm {cmd : Byte} {a : Arm} {line : Option (List Byte)}
    {ws : List (List Byte)} (hcase : docollCase cmd = some (.arm a))
    (hget : Updater.getFields a.fields line = some ws) (hlen : ws.length = a.fields) :
    ∃ c, Updater.commandOf cmd line = some c := by
  unfold docollCase at hcase
  split at hcase <;> cases hcase
  all_goals
    rename_i heq
    simp only [Updater.commandOf, heq, hget]
    dsimp only at hlen
    -- one field after the other
    repeat
      obtain ⟨_, ws, rfl⟩ := List.exists_cons_of_length_eq_add_one hlen
      replace hlen := Nat.succ.inj hlen
    obtain rfl := List.length_eq_zero_iff.mp hlen
    exact ⟨_, rfl⟩

/-- The one case that takes the rest of the line. -/
theorem docollCase_rest {cmd : Byte} (h : docollCase cmd = some .rest) : cmd = 33 := by
  unfold docollCase at h
  split at h <;> cases h
  next hcmd =>
    have hvalid : cmd.toNat.isValidChar := .inl (by have := cmd.toNat_lt; omega)
    rw [Char.ofNat, dif_pos hvalid] at hcmd
    have hnat : cmd.toNat = 33 := congrArg Char.toNat hcmd
    exact UInt8.toNat_inj.mp hnat

theorem docollCase_upTo (cmd : Byte) (n : Nat) : docollCase cmd ≠ some (.upTo n) := by
  unfold docollCase
  split <;> exact nofun

/-- A case is carried out as a command of `commandOf`, or as a warning. -/
theorem commandOf_of_executed {cmd : Byte} {line : Option (List Byte)} {ws : List (List Byte)}
    {paths : List (Option Path)} (h : perform env (docollCase cmd) line = .executed ws paths) :
    (cmd = 33 ∧ ∃ msg, line = some msg) ∨
      cmd ≠ 33 ∧ ∃ c, Updater.commandOf cmd line = some c := by
  rcases hcase : docollCase cmd with - | (a | - | n)
  · rw [hcase] at h
    cases h
  · rw [hcase] at h
    have hacc : Accepts a.fields line := not_not.mp fun hacc => by
      rw [perform_rejected a hacc] at h
      cases h
    obtain ⟨fs, hlen, hfs, rfl, -⟩ := getAsciis_of_accepts a.pos hacc
    have hget := getFields_joined (Arm.ne_nil hlen) hfs
    rw [hlen] at hget
    refine .inr ⟨?_, commandOf_of_arm hcase hget (by simpa using hlen)⟩
    rintro rfl
    cases hcase
  · rw [hcase] at h
    refine .inl ⟨docollCase_rest hcase, ?_⟩
    rcases line with - | msg
    · cases h
    · exact ⟨msg, rfl⟩
  · exact absurd hcase (docollCase_upTo cmd n)

/-- A line that is carried out is one that the updater reads as a command. -/
theorem parseCommand_of_executed {line : Line} {ws : List (List Byte)}
    {paths : List (Option Path)} (h : docoll env (some line) = .executed ws paths) :
    ∃ c, Updater.parseCommand line = .ok (some c) := by
  rw [docoll, getChar] at h
  rw [Updater.parseCommand]
  split_ifs at h with hlone
  rcases hc : protoGetChar (some (cline line)) with ⟨- | cmd, rest⟩
  · simp [hc, perform] at h
  simp only [hc, Option.some.injEq, Option.bind_some] at h
  split_ifs at h with hdot
  simp only [if_neg hdot]
  rcases commandOf_of_executed h with ⟨rfl, msg, rfl⟩ | ⟨hcmd, c, hcommand⟩
  · exact ⟨_, rfl⟩
  · rw [if_neg hcmd, hcommand]
    exact ⟨c, rfl⟩

end Csup.Server
