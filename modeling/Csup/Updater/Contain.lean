import Csup.Framework.Resolve
import Csup.Updater.Acts
import Csup.Updater.Truncated

/-!
# Where an update goes

The paths of `fup_prepare` begin with the prefix of the collection; do they stay in its
directory? A path is resolved part by part, without symbolic links.

* `checkout_below_iff`: in checkout mode they do, and no part of the path is `..`, if and
  only if the name does not end in `/..` without its `,v`.
* `cvs_below_iff`: in CVS mode, where nothing is checked, if and only if the name itself
  does not climb.
-/

namespace Csup.Docoll

open Csup.Framework (Work)
open Csup.Framework.Resolve
open Csup.Updater

/-! ## Resolution -/

/-- What a part of a path does. -/
def turnOf : List Byte → Turn
  | [] => .stay
  | [46] => .stay
  | [46, 46] => .up
  | _ => .down

/-- The parts of a path, between its slashes. -/
def parts (path : Path) : List (List Byte) := path.splitOn 47

/-- The directory a path leads to, from the directory `cwd`. -/
def resolve (cwd : List (List Byte)) (path : Path) : List (List Byte) :=
  walk turnOf (if path.head? = some 47 then [] else cwd) (parts path)

/-- The path is one below `pre`, and leads nowhere else on its way. -/
def InPrefix (cwd : List (List Byte)) (pre path : Path) : Prop :=
  ∃ rel, path = pre ++ 47 :: rel ∧ Below turnOf (resolve cwd (pre ++ [47])) (parts rel)

theorem inPrefix_append {cwd : List (List Byte)} {pre rel : Path} :
    InPrefix cwd pre (pre ++ 47 :: rel) ↔
      resolve cwd (pre ++ [47]) = [] ∨ NoClimb turnOf (parts rel) := by
  rw [← below_iff]
  constructor
  · rintro ⟨rel', h, hb⟩
    rwa [(List.cons.inj (List.append_cancel_left h)).2]
  · exact fun h => ⟨rel, rfl, h⟩

theorem parts_append (x y : Path) : parts (x ++ 47 :: y) = parts x ++ parts y :=
  List.splitOn_append_cons_self ..

/-- The prefix's directory is where a path below it comes by. -/
theorem resolve_append (cwd : List (List Byte)) (pre rel : Path) :
    resolve cwd (pre ++ 47 :: rel) = walk turnOf (resolve cwd (pre ++ [47])) (parts rel) := by
  have hhead : (pre ++ 47 :: rel).head? = (pre ++ [47]).head? := by cases pre <;> rfl
  have hnil (node : List (List Byte)) : walk turnOf node (parts []) = node := rfl
  rw [resolve, resolve, hhead, parts_append, walk_append, parts_append, walk_append, hnil]

/-! ## Checkout mode -/

/-- The name without its `,v`, as `checkoutpath` prints it. -/
def coName (name : List Byte) : List Byte := printPrec (BitVec.ofNat 32 name.length - 2) name

theorem printPrec_starts (prec : BitVec 32) (s : List Byte) : printPrec prec s <+: s := by
  unfold printPrec
  split
  · exact List.prefix_rfl
  · exact List.take_prefix ..

theorem getLast?_cons_or (c : Byte) (x : List Byte) (prev : Option Byte) :
    (c :: x).getLast?.or prev = x.getLast?.or (some c) := by
  cases h : x.getLast? <;> simp [List.getLast?_cons, h]

/-- Two dots that are a part are found. -/
theorem noDotdot_eq_false (prev : Option Byte) (x : List Byte) {y : List Byte}
    (h : x.getLast?.or prev = none ∨
      x.getLast?.or prev = some 47 ∧ (y = [] ∨ y.head? = some 47)) :
    noDotdot prev (x ++ 46 :: 46 :: y) = false := by
  induction hn : x.length using Nat.strong_induction_on generalizing x prev with
  | _ n ih =>
    match x, h with
    | [], h =>
      have hp : prev = none ∨ y = [] ∨ (prev = some 47 ∧ y.head? = some 47) := by
        rcases h with h | ⟨h, hy | hy⟩
        · exact .inl (by simpa using h)
        · exact .inr (.inl hy)
        · exact .inr (.inr ⟨by simpa using h, hy⟩)
      simp [noDotdot, hp]
    | [c], h =>
      obtain ⟨rfl, -⟩ : c = 47 ∧ (y = [] ∨ y.head? = some 47) := by simpa using h
      have := ih 0 (by simp [← hn]) (some 47) [] (by simpa using h) rfl
      simpa [noDotdot] using this
    | c :: d :: x, h =>
      rw [getLast?_cons_or] at h
      by_cases hcd : c = 46 ∧ d = 46
      · -- the search goes on behind the two dots
        obtain ⟨rfl, rfl⟩ := hcd
        have := ih x.length (by simp only [← hn, List.length_cons]; omega) (some 46) x (getLast?_cons_or 46 x _ ▸ h) rfl
        simp [noDotdot, this]
      · have := ih (d :: x).length (by simp [← hn]) (some c) (d :: x) h rfl
        rw [List.cons_append, noDotdot]
        · exact this
        · intro s hs
          simp_all

/-- Of what `isrcs` accepts, a beginning has a part `..` just when it ends in one. -/
theorem mem_parts_iff {name p : List Byte} (h : isrcs name = true) (hp : p <+: name) :
    [46, 46] ∈ parts p ↔ [47, 46, 46] <:+ p := by
  have hdots : noDotdot none name = true := by simp_all [isrcs]
  obtain ⟨rest, rfl⟩ := hp
  unfold parts
  rw [mem_splitOn]
  constructor
  · rintro ⟨-, x, y, rfl, hx, hy⟩
    rcases hx with rfl | hx
    · have := noDotdot_eq_false none [] (y := y ++ rest) (.inl rfl)
      simp_all
    · rcases hy with rfl | hy
      · obtain ⟨x', rfl⟩ := List.getLast?_eq_some_iff.mp hx
        exact ⟨x', by simp⟩
      · have := noDotdot_eq_false none x (y := y ++ rest)
          (.inr ⟨by rw [hx]; rfl, .inr (by rw [List.head?_append, hy]; rfl)⟩)
        simp_all
  · rintro ⟨x, rfl⟩
    exact ⟨by decide, x ++ [47], [], by simp, .inr (by simp), .inl rfl⟩

variable {W F D : Type}

/-- In checkout mode, the part of the path behind the prefix has no part `..`, and stays
below, if and only if the name does not end in `/..` without its `,v`. -/
theorem checkout_below_iff (env : Env W F D) (e : Stop) (name : List Byte) (attic : Bool) (w : W)
    (fup : Fup) (hmode : env.coll.checkoutmode = true)
    (hfup : (prepare env e name attic w).val = .ok fup) :
    (∃ rel, fup.destpath = env.coll.pre ++ 47 :: rel ∧ [46, 46] ∉ parts rel ∧
      ∀ cwd, InPrefix cwd env.coll.pre fup.destpath) ↔ ¬[47, 46, 46] <:+ coName name := by
  have hdest : isrcs name = true ∧ fup.destpath = env.coll.pre ++ 47 :: coName name := by
    cases hr : isrcs name <;> simp [prepare, hmode, checkoutpath, hr, need, Work.pure, Work.fail] at hfup
    exact ⟨rfl, by rw [← hfup]; rfl⟩
  obtain ⟨hr, hd⟩ := hdest
  have hparts : [46, 46] ∈ parts (coName name) ↔ [47, 46, 46] <:+ coName name :=
    mem_parts_iff hr (printPrec_starts _ name)
  rw [← hparts]
  constructor
  · rintro ⟨rel, hrel, hmem, -⟩
    rw [hd] at hrel
    rwa [(List.cons.inj (List.append_cancel_left hrel)).2]
  · intro hmem
    refine ⟨coName name, hd, hmem, fun cwd => ?_⟩
    rw [hd, inPrefix_append]
    refine .inr (noClimb_of_forall fun p hp hup => hmem ?_)
    have : p = [46, 46] := by
      unfold turnOf at hup
      split at hup <;> simp_all
    exact this ▸ hp

/-- A collection in checkout mode below `r`. -/
def coEnv : Env (List Path) Unit Unit :=
  { listEnv with coll := { listEnv.coll with checkoutmode := true } }

theorem checkout_below_iff_file : ∃ rel, bytes ['r', '/', 'a'] = bytes ['r'] ++ 47 :: rel ∧
    [46, 46] ∉ parts rel ∧ ∀ cwd, InPrefix cwd (bytes ['r']) (bytes ['r', '/', 'a']) :=
  (checkout_below_iff coEnv errProto (bytes ['a', ',', 'v']) false []
    ⟨bytes ['r', '/', 'a'], none⟩ rfl rfl).mpr (by decide)

/-- The name `./..,v` is taken, and leads to the directory above. -/
theorem checkout_above : ∃ fup, (prepare coEnv errProto (bytes ['.', '/', '.', '.', ',', 'v'])
      false []).val = .ok fup ∧ fup.destpath = bytes ['r', '/', '.', '/', '.', '.'] ∧
    resolve [] fup.destpath = [] ∧ ¬InPrefix [] coEnv.coll.pre fup.destpath ∧
    ¬∃ rel, fup.destpath = coEnv.coll.pre ++ 47 :: rel ∧ [46, 46] ∉ parts rel := by
  refine ⟨⟨bytes ['r', '/', '.', '/', '.', '.'], none⟩, rfl, rfl, by decide, ?_, ?_⟩
  · show ¬InPrefix [] (bytes ['r']) (bytes ['r'] ++ 47 :: bytes ['.', '/', '.', '.'])
    rw [inPrefix_append]
    decide
  · rintro ⟨rel, hrel, hmem⟩
    obtain rfl : rel = bytes ['.', '/', '.', '.'] := by
      have hrel : bytes ['r'] ++ 47 :: bytes ['.', '/', '.', '.'] = bytes ['r'] ++ 47 :: rel := hrel
      exact (List.cons.inj (List.append_cancel_left hrel)).2.symm
    exact hmem (by decide)

/-! ## CVS mode -/

/-- The parts of a name that `cvspath` has in a path: all, or those of its directory, as
it prints it in front of `Attic/`. -/
def cvsParts (name : List Byte) (attic : Bool) : List (List Byte) :=
  if attic then (parts (printPrec (BitVec.ofNat 32 (pathlast name).1.length) name)).dropLast
  else parts name

theorem not_mem_pathlast (name : Path) : 47 ∉ (pathlast name).2 := by
  intro h
  have := List.mem_takeWhile_imp (List.mem_reverse.mp h)
  simp at this

/-- `Attic` goes down, so that the last part may be any. -/
theorem inPrefix_cvspath {cwd : List (List Byte)} {pre name : Path} {attic : Bool} :
    InPrefix cwd pre (cvspath pre name attic) ↔
      resolve cwd (pre ++ [47]) = [] ∨ NoClimb turnOf (cvsParts name attic) := by
  cases attic with
  | false => exact inPrefix_append
  | true =>
    simp only [cvspath, cvsParts, ↓reduceIte]
    rw [inPrefix_append]
    refine or_congr_right ?_
    generalize printPrec _ name = dir
    obtain ⟨t, -, ht⟩ := exists_splitOn_append (a := 47) dir (w := bytes ['A', 't', 't', 'i', 'c'])
      (by decide)
    have hparts : parts (dir ++ bytes ['A', 't', 't', 'i', 'c', '/'] ++ (pathlast name).2) =
        (parts dir).dropLast ++ [t ++ bytes ['A', 't', 't', 'i', 'c'], (pathlast name).2] := by
      rw [show dir ++ bytes ['A', 't', 't', 'i', 'c', '/'] ++ (pathlast name).2 =
        (dir ++ bytes ['A', 't', 't', 'i', 'c']) ++ 47 :: (pathlast name).2 by simp [bytes]; rfl,
        parts_append, parts, ht, parts, List.splitOn_eq_singleton (not_mem_pathlast name)]
      simp [parts]
    rw [hparts]
    refine noClimb_append_pair ?_
    have hlen : 5 ≤ (t ++ bytes ['A', 't', 't', 'i', 'c']).length := by simp [bytes]
    unfold turnOf
    split <;> simp_all

/-- In CVS mode the paths stay below the prefix, and with them all that a command does to
files, if and only if the prefix is the root or the name does not climb: in the path that
is asked for, and in the one where a file of this name is looked for. -/
theorem cvs_below_iff (env : Env W F D) (cwd : List (List Byte)) (e : Stop) (name : List Byte)
    (attic : Bool) (w : W) (fup : Fup) (hmode : env.coll.checkoutmode = false)
    (hfup : (prepare env e name attic w).val = .ok fup) :
    (fup.Within (InPrefix cwd env.coll.pre) ∧
      ∀ c, fileOf c = some (name, attic) → ∀ count p, ∀ a ∈ (docommand env count c p w).log,
        a.Within (InPrefix cwd env.coll.pre)) ↔
    resolve cwd (env.coll.pre ++ [47]) = [] ∨
      NoClimb turnOf (cvsParts name attic) ∧
        NoClimb turnOf (cvsParts name !env.host.access (env.coll.pre ++ 47 :: name) w) := by
  have hprep (e' : Stop) : (prepare env e' name attic w).val = .ok fup := by
    simpa [prepare, hmode, Work.ask] using hfup
  have hwithin : fup.Within (InPrefix cwd env.coll.pre) ↔
      InPrefix cwd env.coll.pre (cvspath env.coll.pre name attic) ∧
        InPrefix cwd env.coll.pre (cvspath env.coll.pre name
          !env.host.access (env.coll.pre ++ 47 :: name) w) := by
    have hattic : atticpath (fun p => env.host.access p w) env.coll.pre name =
        cvspath env.coll.pre name !env.host.access (env.coll.pre ++ 47 :: name) w := by
      unfold atticpath
      split <;> simp_all [cvspath]
    obtain rfl : ⟨cvspath env.coll.pre name attic,
        if cvspath env.coll.pre name (!env.host.access (env.coll.pre ++ 47 :: name) w) =
            cvspath env.coll.pre name attic then none
          else some (cvspath env.coll.pre name
            !env.host.access (env.coll.pre ++ 47 :: name) w)⟩ = fup := by
      have := hprep e
      simpa [prepare, hmode, Work.ask, fupPrepare, hattic] using this
    unfold Fup.Within
    split
    · rename_i heq
      simp [heq]
    · simp
  rw [inPrefix_cvspath, inPrefix_cvspath, ← or_and_left] at hwithin
  rw [← hwithin]
  refine and_iff_left_of_imp fun h c hc count p => acts_docommand hmode count c p w ?_
  intro name' attic' hc'
  obtain ⟨rfl, rfl⟩ : name = name' ∧ attic = attic' := by simpa [hc] using hc'
  intro e' fup' hfup'
  rw [hprep e'] at hfup'
  cases hfup'
  exact h

theorem cvs_below_iff_file : (⟨bytes ['r', '/', 'a', ',', 'v'],
      some (bytes ['r', '/', 'A', 't', 't', 'i', 'c', '/', 'a', ',', 'v'])⟩ : Fup).Within
    (InPrefix [] (bytes ['r'])) :=
  ((cvs_below_iff listEnv [] errProto (bytes ['a', ',', 'v']) false [] _ rfl rfl).mpr
    (by decide)).1

/-- With the name `../x,v` a file outside of the prefix is removed. -/
theorem cvs_above : ∃ fup, (prepare listEnv errProto (bytes ['.', '.', '/', 'x', ',', 'v'])
      false []).val = .ok fup ∧ fup.destpath = bytes ['r', '/', '.', '.', '/', 'x', ',', 'v'] ∧
    resolve [] fup.destpath = [bytes ['x', ',', 'v']] ∧
    ¬InPrefix [] listEnv.coll.pre fup.destpath ∧
    .delete fup.destpath ∈
      (docommand listEnv 0 (.delete (bytes ['.', '.', '/', 'x', ',', 'v'])) [] []).log := by
  refine ⟨_, rfl, rfl, by decide, ?_, ?_⟩
  · show ¬InPrefix [] (bytes ['r']) (bytes ['r'] ++ 47 :: bytes ['.', '.', '/', 'x', ',', 'v'])
    rw [inPrefix_append]
    decide
  · exact List.mem_cons_self

end Csup.Docoll
