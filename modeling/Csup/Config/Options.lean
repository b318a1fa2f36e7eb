import Csup.Config.Init
import Mathlib.Data.List.Forall2

/-!
# The options of a collection

A flag comes from the lines of the supfile, from the command line, or from `config_init` itself.

* `override_options`: what the command line leaves of the mask;
* `configInit_options`: the flags of the collections of a session.
-/

namespace Csup.Config

open Csup.Framework (lastValue lastValue_cons foldlM_keeps foldlM_last)

/-! ## The command line -/

/-- What an argument says of compression. -/
def compressArg : CmdArg → Option Bool
  | .compress => some true
  | .nocompress => some false
  | _ => none

variable {args : List CmdArg}

/-- The arguments one after the other, none of which fails. -/
theorem override_run (args : List CmdArg) :
    args.foldlM (fun o a => (.ok (overrideArg o a) : Except Exit _)) (collNew none, 0) =
      .ok (override args) := List.foldlM_pure

/-- What every argument keeps. -/
theorem override_keeps {P : Coll × BitVec 32 → Prop} (hstep : ∀ o a, P o → P (overrideArg o a))
    (h : P (collNew none, 0)) (args : List CmdArg) : P (override args) := by
  refine foldlM_keeps (fun o a o' ha ho => ?_) (override_run args) h
  obtain rfl := Except.ok.inj ha
  exact hstep o a ho

theorem override_last {V : Type} {get : Coll × BitVec 32 → Option V} {value : CmdArg → Option V}
    (hstep : ∀ o a, get (overrideArg o a) = (value a).or (get o)) (args : List CmdArg) :
    get (override args) = (lastValue value args).or (get (collNew none, 0)) := by
  refine foldlM_last (fun o a o' ha => ?_) (override_run args)
  obtain rfl := Except.ok.inj ha
  exact hstep o a

/-- The options and the mask are the same. -/
theorem override_options (args : List CmdArg) : (override args).1.options = (override args).2 :=
  override_keeps (P := fun o => o.1.options = o.2)
    (fun o a h => by cases a <;> simp [overrideArg, h]) rfl args

theorem override_blank (args : List CmdArg) : (override args).1.release = none ∧
    (override args).1.pre = none ∧ (override args).1.listsuffix = none ∧
    (override args).1.refusals = [] :=
  override_keeps (P := fun o => o.1.release = none ∧ o.1.pre = none ∧ o.1.listsuffix = none ∧
    o.1.refusals = []) (fun o a h => by cases a <;> exact h) ⟨rfl, rfl, rfl, rfl⟩ args

/-- An argument that is given. -/
def given (x : CmdArg) (a : CmdArg) : Option Bool := if a = x then some true else none

theorem lastValue_given (x : CmdArg) (args : List CmdArg) :
    ((lastValue (given x) args).or (some false) = some true) ↔ x ∈ args := by
  induction args with
  | nil => simp [lastValue]
  | cons a args ih =>
    rw [lastValue_cons, List.mem_cons, Option.or_assoc]
    by_cases h : a = x
    · subst h
      cases hl : lastValue (given a) args with
      | none => simp [given]
      | some b =>
        have hb : b = true := by
          obtain ⟨c, -, hc⟩ := List.exists_of_findSome?_eq_some hl
          simp only [given] at hc
          split at hc
          · exact (Option.some.inj hc).symm
          · cases hc
        simp [hb]
    · rw [given, if_neg h, Option.none_or, ih]
      simp [Ne.symm h]

/-- The flags of the command line. -/
def maskBits : BitVec 32 := CO_COMPRESS ||| CO_KEEPBADFILES ||| CO_TRUSTSTATUSFILE

/-- What the command line leaves of the mask. -/
structure Masked (args : List CmdArg) (mask : BitVec 32) : Prop where
  compress : has mask CO_COMPRESS = true ↔ lastValue compressArg args = some true
  keepbadfiles : has mask CO_KEEPBADFILES = true ↔ .keepbadfiles ∈ args
  truststatusfile : has mask CO_TRUSTSTATUSFILE = true ↔ .truststatusfile ∈ args
  rest : mask &&& ~~~maskBits = 0

theorem has_overrideArg (o : Coll × BitVec 32) (a : CmdArg) :
    has (overrideArg o a).2 CO_COMPRESS = (compressArg a).getD (has o.2 CO_COMPRESS) ∧
    has (overrideArg o a).2 CO_KEEPBADFILES =
      (given .keepbadfiles a).getD (has o.2 CO_KEEPBADFILES) ∧
    has (overrideArg o a).2 CO_TRUSTSTATUSFILE =
      (given .truststatusfile a).getD (has o.2 CO_TRUSTSTATUSFILE) := by
  have hself : has CO_COMPRESS CO_COMPRESS = true ∧ has CO_KEEPBADFILES CO_KEEPBADFILES = true ∧
      has CO_TRUSTSTATUSFILE CO_TRUSTSTATUSFILE = true := by decide
  have hother : has CO_COMPRESS CO_KEEPBADFILES = false ∧ has CO_COMPRESS CO_TRUSTSTATUSFILE = false ∧
      has CO_KEEPBADFILES CO_COMPRESS = false ∧ has CO_KEEPBADFILES CO_TRUSTSTATUSFILE = false ∧
      has CO_TRUSTSTATUSFILE CO_COMPRESS = false ∧ has CO_TRUSTSTATUSFILE CO_KEEPBADFILES = false := by
    decide
  cases a with
  | keepbadfiles => simp [overrideArg, compressArg, given, has_or, hself, hother]
  | truststatusfile => simp [overrideArg, compressArg, given, has_or, hself, hother]
  | compress => simp [overrideArg, compressArg, given, has_or, hself, hother]
  | nocompress =>
    refine ⟨has_clear _ _, ?_, ?_⟩
    · exact has_clear_other (by decide) _
    · exact has_clear_other (by decide) _
  | _ => exact ⟨rfl, rfl, rfl⟩

theorem some_getD {V : Type} (v : Option V) (d : V) : some (v.getD d) = v.or (some d) := by
  cases v <;> rfl

theorem override_masked (args : List CmdArg) : Masked args (override args).2 where
  compress := by
    have h : some (has (override args).2 CO_COMPRESS) =
        (lastValue compressArg args).or (some false) :=
      @override_last _ (fun o => some (has o.2 CO_COMPRESS)) compressArg
        (fun o a => (congrArg some (has_overrideArg o a).1).trans (some_getD _ _)) args
    rw [← Option.some_inj, h]
    cases lastValue compressArg args <;> simp
  keepbadfiles := by
    rw [← lastValue_given, ← Option.some_inj]
    exact Eq.congr_left (@override_last _ (fun o => some (has o.2 CO_KEEPBADFILES)) _
      (fun o a => (congrArg some (has_overrideArg o a).2.1).trans (some_getD _ _)) args)
  truststatusfile := by
    rw [← lastValue_given, ← Option.some_inj]
    exact Eq.congr_left (@override_last _ (fun o => some (has o.2 CO_TRUSTSTATUSFILE)) _
      (fun o a => (congrArg some (has_overrideArg o a).2.2).trans (some_getD _ _)) args)
  rest := by
    refine override_keeps (P := fun o => o.2 &&& ~~~maskBits = 0) (fun o a h => ?_) (by decide) args
    have hbits : CO_COMPRESS &&& ~~~maskBits = 0 ∧ CO_KEEPBADFILES &&& ~~~maskBits = 0 ∧
        CO_TRUSTSTATUSFILE &&& ~~~maskBits = 0 := by decide
    cases a with
    | nocompress =>
      show o.2 &&& ~~~CO_COMPRESS &&& ~~~maskBits = 0
      rw [BitVec.and_assoc, BitVec.and_comm (~~~CO_COMPRESS), ← BitVec.and_assoc, h]
      exact BitVec.zero_and
    | keepbadfiles | truststatusfile | compress =>
      simp only [overrideArg, BitVec.and_or_distrib_right, h, hbits]
      rfl
    | _ => exact h

theorem Masked.not_has {mask flag : BitVec 32} (h : Masked args mask)
    (hf : ~~~maskBits &&& flag = flag) : has mask flag = false := by
  rw [has, ← hf, ← BitVec.and_assoc, h.rest]
  simp

/-! ## The supfile -/

theorem has_flagsOf (opts : List Opt) (flag : BitVec 32) :
    has (flagsOf opts) flag = opts.any fun o => has o.1.flag flag := by
  induction opts with
  | nil => simp [flagsOf, has]
  | cons o opts ih =>
    show has (o.1.flag ||| flagsOf opts) flag = _
    rw [has_or, ih, List.any_cons]

/-- A setting that some option sets. -/
def Sets (opts : List Opt) (i : Pt) : Prop := ∃ o ∈ opts, o.1 = i

/-- A flag that one setting alone has. -/
theorem has_flagsOf_iff {i : Pt} {flag : BitVec 32}
    (h : ∀ j : Pt, has j.flag flag = decide (j = i)) (opts : List Opt) :
    has (flagsOf opts) flag = true ↔ Sets opts i := by
  rw [has_flagsOf, List.any_eq_true]
  exact exists_congr fun o => and_congr_right fun _ => by rw [h o.1, decide_eq_true_iff]

theorem has_flagsOf_false {flag : BitVec 32} (h : ∀ j : Pt, has j.flag flag = false)
    (opts : List Opt) : has (flagsOf opts) flag = false := by
  rw [has_flagsOf, List.any_eq_false]
  exact fun o _ => by rw [h o.1]; exact Bool.false_ne_true

/-! ## Both -/

/-- What is left of the supfile's flags and what the command line says. -/
theorem has_collOf {umask : BitVec 32} {p : List Byte × List Opt} {flag : BitVec 32}
    (h : CO_MASK &&& flag = flag) (args : List CmdArg) :
    has (collOf umask (override args).1 (override args).2 p).options flag =
      (has (flagsOf p.2) flag || has (override args).2 flag) := by
  have hor : ∀ f m : BitVec 32, (f &&& (CO_MASK &&& ~~~m)) ||| m = (f &&& CO_MASK) ||| m := by
    intro f m
    ext i hi
    simp only [BitVec.getElem_or, BitVec.getElem_and, BitVec.getElem_not]
    cases f[i] <;> cases m[i] <;> simp
  have hand : has (flagsOf p.2 &&& CO_MASK) flag = has (flagsOf p.2) flag := by
    rw [has, BitVec.and_assoc, h, has]
  show has (_ ||| (override args).1.options &&& (override args).2) flag = _
  rw [override_options, BitVec.and_self, hor, has_or, hand]

/-- The flags that `config_init` sees to. -/
def fixupBits : BitVec 32 := CO_CHECKRCS ||| CO_SETMODE ||| CO_NORSYNC

theorem has_fixup {flag : BitVec 32} (h : ~~~fixupBits &&& flag = flag) (coll : Coll) :
    has (fixup coll).options flag = has coll.options flag := by
  have hbit : ∀ b, b &&& ~~~fixupBits = 0 → has b flag = false := by
    intro b hb
    rw [has, ← h, ← BitVec.and_assoc, hb]
    simp
  have hclear : ~~~CO_CHECKRCS &&& flag = flag := by
    rw [← h, ← BitVec.and_assoc]
    rfl
  show has (_ ||| CO_SETMODE ||| CO_NORSYNC) flag = _
  rw [has_or, has_or, hbit CO_SETMODE (by decide), hbit CO_NORSYNC (by decide), Bool.or_false,
    Bool.or_false]
  split
  · rw [has_or, hbit CO_CHECKRCS (by decide), Bool.or_false]
  · exact has_clear_other hclear _

theorem has_fixup_bits (coll : Coll) : has (fixup coll).options CO_SETMODE = true ∧
    has (fixup coll).options CO_NORSYNC = true ∧
    has (fixup coll).options CO_CHECKRCS = has coll.options CO_EXACTRCS := by
  have hset : has CO_SETMODE CO_SETMODE = true := by decide
  have hnorsync : has CO_NORSYNC CO_NORSYNC = true := by decide
  have hcheck : has CO_SETMODE CO_CHECKRCS = false ∧ has CO_NORSYNC CO_CHECKRCS = false ∧
      has CO_CHECKRCS CO_CHECKRCS = true := by decide
  refine ⟨?_, ?_, ?_⟩
  · simp only [fixup, has_or, hset, Bool.or_true, Bool.true_or]
  · simp only [fixup, has_or, hnorsync, Bool.or_true]
  · simp only [fixup, has_or, hcheck, Bool.or_false]
    split
    · rename_i h
      rw [has_or, hcheck.2.2, Bool.or_true, h]
    · rename_i h
      rw [has_clear, Bool.eq_false_iff.mpr h]

/-- The flags of a collection with these options. -/
structure Flags (args : List CmdArg) (opts : List Opt) (options : BitVec 32) : Prop where
  compress : has options CO_COMPRESS = true ↔
    Sets opts .compress ∨ lastValue compressArg args = some true
  delete : has options CO_DELETE = true ↔ Sets opts .delete
  exactrcs : has options CO_EXACTRCS = true ↔ Sets opts .delete
  checkrcs : has options CO_CHECKRCS = true ↔ Sets opts .delete
  userelsuffix : has options CO_USERELSUFFIX = true ↔ Sets opts .useRelSuffix
  checkoutmode : has options CO_CHECKOUTMODE = true ↔ Sets opts .date ∨ Sets opts .tag
  keepbadfiles : has options CO_KEEPBADFILES = true ↔ .keepbadfiles ∈ args
  truststatusfile : has options CO_TRUSTSTATUSFILE = true ↔ .truststatusfile ∈ args
  setmode : has options CO_SETMODE = true
  norsync : has options CO_NORSYNC = true
  skip : has options CO_SKIP = false
  norcs : has options CO_NORCS = false

theorem has_flagsOf_checkout (opts : List Opt) : has (flagsOf opts) CO_CHECKOUTMODE = true ↔
    Sets opts .date ∨ Sets opts .tag := by
  have hflag : ∀ j : Pt, has j.flag CO_CHECKOUTMODE =
      (decide (j = .date) || decide (j = .tag)) := by
    intro j
    cases j <;> decide
  rw [has_flagsOf, List.any_eq_true, Sets, Sets, ← exists_or]
  refine exists_congr fun o => ?_
  rw [← and_or_left, hflag o.1, Bool.or_eq_true, decide_eq_true_iff, decide_eq_true_iff]

theorem flags_readied (reads : Reads) (umask : BitVec 32) (args : List CmdArg)
    (p : List Byte × List Opt) :
    Flags args p.2 (readied reads (collOf umask (override args).1 (override args).2 p)).options := by
  have hmask := override_masked args
  have hcoll : ∀ flag, CO_MASK &&& flag = flag → ~~~fixupBits &&& flag = flag →
      has (fixup (collOf umask (override args).1 (override args).2 p)).options flag =
        (has (flagsOf p.2) flag || has (override args).2 flag) := fun flag h hf =>
    (has_fixup hf _).trans (has_collOf h args)
  have hbits := has_fixup_bits (collOf umask (override args).1 (override args).2 p)
  -- a flag of the supfile, which the command line has nothing to do with
  have hfile : ∀ i flag, (∀ j : Pt, has j.flag flag = decide (j = i)) →
      CO_MASK &&& flag = flag → ~~~fixupBits &&& flag = flag → ~~~maskBits &&& flag = flag →
      (has (fixup (collOf umask (override args).1 (override args).2 p)).options flag = true ↔
        Sets p.2 i) := fun i flag hflag h hf hm => by
    rw [hcoll flag h hf, hmask.not_has hm, Bool.or_false, has_flagsOf_iff hflag]
  have hnone : ∀ flag, (∀ j : Pt, has j.flag flag = false) →
      CO_MASK &&& flag = flag → ~~~fixupBits &&& flag = flag →
      has (fixup (collOf umask (override args).1 (override args).2 p)).options flag =
        has (override args).2 flag := fun flag hflag h hf => by
    rw [hcoll flag h hf, has_flagsOf_false hflag, Bool.false_or]
  exact
  { compress := by
      rw [readied, hcoll _ (by decide) (by decide), Bool.or_eq_true, hmask.compress,
        has_flagsOf_iff (i := .compress) (fun j => by cases j <;> decide)]
    delete := hfile .delete _ (fun j => by cases j <;> decide) (by decide) (by decide) (by decide)
    exactrcs := hfile .delete _ (fun j => by cases j <;> decide) (by decide) (by decide) (by decide)
    checkrcs := by
      rw [readied, hbits.2.2, has_collOf (by decide), hmask.not_has (by decide), Bool.or_false,
        has_flagsOf_iff (i := .delete) (fun j => by cases j <;> decide)]
    userelsuffix :=
      hfile .useRelSuffix _ (fun j => by cases j <;> decide) (by decide) (by decide) (by decide)
    checkoutmode := by
      rw [readied, hcoll _ (by decide) (by decide), hmask.not_has (by decide), Bool.or_false,
        has_flagsOf_checkout]
    keepbadfiles := by
      rw [readied, hnone _ (fun j => by cases j <;> decide) (by decide) (by decide),
        hmask.keepbadfiles]
    truststatusfile := by
      rw [readied, hnone _ (fun j => by cases j <;> decide) (by decide) (by decide),
        hmask.truststatusfile]
    setmode := hbits.1
    norsync := hbits.2.1
    skip := (hnone _ (fun j => by cases j <;> decide) (by decide) (by decide)).trans
      (hmask.not_has (by decide))
    norcs := (hnone _ (fun j => by cases j <;> decide) (by decide) (by decide)).trans
      (hmask.not_has (by decide)) }

/-- The flags of the collections of a session. What the supfile says of compression is not
withdrawn. -/
theorem configInit_options {reads : Reads} {umask : BitVec 32} {content : List Byte}
    {colls : List Coll}
    (h : configInit reads umask (override args).1 (override args).2 content = .ok (some colls)) :
    ∃ lines, tokens content = lines.flatMap Stmt.tokens ∧
      List.Forall₂ (fun p coll => Flags args p.2 coll.options) (collsOf [] lines) colls := by
  obtain ⟨lines, htokens, -, -, -, rfl⟩ := configInit_ok h
  refine ⟨lines, htokens, ?_⟩
  rw [List.forall₂_map_right_iff]
  exact List.forall₂_same.mpr fun p _ => flags_readied reads umask args p

/-- `-Z`, and a supfile that asks for compression. -/
theorem configInit_options_threeLines : ∃ lines, tokens threeFile = lines.flatMap Stmt.tokens ∧
    List.Forall₂ (fun p coll => Flags [.nocompress] p.2 coll.options) (collsOf [] lines)
      ((collsOf [] threeLines).map fun p => readied (fun _ => none)
        (collOf 18 (override [.nocompress]).1 (override [.nocompress]).2 p)) :=
  configInit_options (configInit_of_lines (tokens_of_renders renders_threeLines)
    (accepted_threeLines _) (by decide)
    fun _ _ _ _ r hr => (by cases hr))

end Csup.Config
