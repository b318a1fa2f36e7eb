import Csup.Globtree.CommaV
import Csup.Globtree.Expr
import Csup.Misc.Path

/-!
# The filters of a collection: `proto_xchgcoll`

The trees that `proto_xchgcoll` makes of the accept and refuse patterns, as
expressions: one for directories, one for RCS files.

* `dirfilter_iff`: when the directories above an accepted file are accepted;
* `filefilter_below_iff`: when the files below a directory that a pattern matches are.
-/

namespace Csup.Globtree

open Csup.Framework
open Csup.Framework.Glob

variable {R : Type*}

/-! ## The filters -/

/-- The flags of accept patterns. -/
def acceptFlags : Nat := FNM_PATHNAME ||| FNM_LEADING_DIR ||| FNM_PREFIX_DIRS

/-- A pattern as it is used for RCS files. -/
def filePattern (checkout : Bool) (pat : List Byte) : List Byte :=
  if checkout ∧ pat.getLast? ≠ some 42 then pat ++ commaV else pat

/-- One round of the loops over the patterns: `dir` and `file` are the trees so far. -/
def orMatch (m : Matchers R) (checkout : Bool) (flags : Nat)
    (trees : Expr m.withFnmatch × Expr m.withFnmatch) (pat : List Byte) :
    Expr m.withFnmatch × Expr m.withFnmatch :=
  (.binary .or trees.1 (.matching pat flags),
    .binary .or trees.2 (.matching (filePattern checkout pat) flags))

/-- `diraccept` and `fileaccept` -/
def accept (m : Matchers R) (checkout : Bool) (accepts : List (List Byte)) :
    Expr m.withFnmatch × Expr m.withFnmatch :=
  if 0 < accepts.length then accepts.foldl (orMatch m checkout acceptFlags) (.false, .false)
  else (.true, .true)

/-- `dirrefuse` and `filerefuse` -/
def refuse (m : Matchers R) (checkout : Bool) (refusals : List (List Byte)) :
    Expr m.withFnmatch × Expr m.withFnmatch :=
  refusals.foldl (orMatch m checkout 0) (.false, .false)

/-- `co_dirfilter` -/
def dirfilter (m : Matchers R) (checkout : Bool) (accepts refusals : List (List Byte)) :
    Expr m.withFnmatch :=
  .binary .and (accept m checkout accepts).1 (.not (refuse m checkout refusals).1)

/-- `co_filefilter` -/
def filefilter (m : Matchers R) (checkout : Bool) (accepts refusals : List (List Byte)) :
    Expr m.withFnmatch :=
  .binary .and (accept m checkout accepts).2 (.not (refuse m checkout refusals).2)

/-! ## Their values -/

variable {m : Matchers R} {checkout : Bool} {accepts : List (List Byte)}

theorem eval_foldl (m : Matchers R) (checkout : Bool) (flags : Nat) (path : List Byte)
    (pats : List (List Byte)) (trees : Expr m.withFnmatch × Expr m.withFnmatch) :
    ((pats.foldl (orMatch m checkout flags) trees).1.eval path = true ↔
      trees.1.eval path = true ∨ ∃ pat ∈ pats, fnmatch pat path flags = 0) ∧
    ((pats.foldl (orMatch m checkout flags) trees).2.eval path = true ↔
      trees.2.eval path = true ∨
        ∃ pat ∈ pats, fnmatch (filePattern checkout pat) path flags = 0) := by
  induction pats generalizing trees with
  | nil => simp
  | cons pat pats ih =>
    obtain ⟨h₁, h₂⟩ := ih (orMatch m checkout flags trees pat)
    rw [List.foldl_cons, h₁, h₂]
    simp [orMatch, Expr.eval, Op.apply, Matchers.withFnmatch, or_assoc]

/-- The values of the filters when nothing is refused. -/
theorem eval_filters (m : Matchers R) (checkout : Bool) (hne : accepts ≠ []) (path : List Byte) :
    ((dirfilter m checkout accepts []).eval path = true ↔
      ∃ pat ∈ accepts, fnmatch pat path acceptFlags = 0) ∧
    ((filefilter m checkout accepts []).eval path = true ↔
      ∃ pat ∈ accepts, fnmatch (filePattern checkout pat) path acceptFlags = 0) := by
  have hlen : 0 < accepts.length := List.length_pos_iff.mpr hne
  obtain ⟨h₁, h₂⟩ := eval_foldl m checkout acceptFlags path accepts (.false, .false)
  simp only [dirfilter, filefilter, accept, refuse, if_pos hlen, Expr.eval, Op.apply,
    List.foldl_nil, Bool.not_false, Bool.and_true]
  exact ⟨h₁.trans (by simp [Expr.eval]), h₂.trans (by simp [Expr.eval])⟩

/-! ## Paths -/

theorem joinPath_getLast? (d : List Component) : (joinPath d).getLast? ≠ some 47 := by
  induction d using List.reverseRecOn with
  | nil => simp [joinPath]
  | append_singleton d c _ =>
    have hc : c.val.getLast? ≠ some 47 := fun h => c.no_slash (List.mem_of_getLast? h)
    by_cases hd : d = []
    · rw [hd, List.nil_append, joinPath_singleton]
      exact hc
    · rw [joinPath_concat hd, List.getLast?_append_of_ne_nil _ (by simp), List.getLast?_cons]
      rcases hl : c.val.getLast? with - | b
      · exact absurd (List.getLast?_eq_none_iff.mp hl) c.ne_nil
      · rw [hl] at hc
        simpa using hc

/-- What a pattern of the filters accepts. -/
theorem fnmatch_joinPath (pat : List Byte) {d : List Component} (h : d ≠ []) :
    fnmatch pat (joinPath d) acceptFlags = 0 ↔ Accepts 47 true true (items pat) (joinPath d) :=
  fnmatch_eq_zero_iff pat (joinPath_ne_nil h) (joinPath_getLast? d)

/-! ## Directories above accepted files -/

/-- Some accept pattern accepts the directory: it matches it or a directory above it,
or a part of it in front of a slash, that does not end with a star, matches it. -/
def Shown (accepts : List (List Byte)) (d : List Byte) : Prop :=
  ∃ pat ∈ accepts, Accepts 47 true true (items pat) d

/-- A part of an accept pattern that ends with a star, in front of a slash, matches the
directory, or a pattern for RCS files matches it or a directory above it. -/
def Astray (checkout : Bool) (accepts : List (List Byte)) (d : List Byte) : Prop :=
  (∃ pat ∈ accepts, ∃ p₁ p₂, items pat = p₁ ++ .star :: .lit 47 :: p₂ ∧
    Matches 47 (p₁ ++ [.star]) d) ∨
  ∃ pat ∈ accepts, filePattern checkout pat ≠ pat ∧
    Accepts 47 true false (items (filePattern checkout pat)) d

theorem sameSlashes_filePattern (checkout : Bool) (pat : List Byte) :
    SameSlashes (items pat) (items (filePattern checkout pat)) := by
  rw [filePattern]
  split
  · exact items_commaV pat
  · exact ⟨items pat, [], [], by simp, by simp, by simp, by simp⟩

/-- A directory above an accepted name is accepted, or only reached astray. -/
theorem shown_or_astray {pat d r : List Byte} (hpat : pat ∈ accepts)
    (h : Accepts 47 true true (items (filePattern checkout pat)) (d ++ 47 :: r)) :
    Shown accepts d ∨ Astray checkout accepts d := by
  rcases h.ancestor with ⟨p₁, p₂, hp, hm⟩ | h
  · obtain ⟨p₂, hp⟩ := (sameSlashes_filePattern checkout pat).part hp
    by_cases hstar : p₁.getLast? = some .star
    · obtain ⟨q, rfl⟩ := List.getLast?_eq_some_iff.mp hstar
      exact .inr (.inl ⟨pat, hpat, q, p₂, by simpa using hp, hm⟩)
    · exact .inl ⟨pat, hpat, hp ▸ accepts_part hm hstar⟩
  · by_cases hpattern : filePattern checkout pat = pat
    · rw [hpattern] at h
      exact .inl ⟨pat, hpat, h.above_of⟩
    · exact .inr (.inr ⟨pat, hpat, hpattern, h⟩)

/-- The directories above an accepted file are accepted if and only if those that are
reached astray are accepted in another way. -/
theorem dirfilter_iff (m : Matchers R) {f : List Component}
    (hf : (filefilter m checkout accepts []).eval (joinPath f) = true) :
    (∀ d, d <+: f → d ≠ [] → d ≠ f →
        (dirfilter m checkout accepts []).eval (joinPath d) = true) ↔
      ∀ d, d <+: f → d ≠ [] → d ≠ f → Astray checkout accepts (joinPath d) →
        Shown accepts (joinPath d) := by
  by_cases hne : accepts = []
  · subst hne
    refine iff_of_true (fun _ _ _ _ => rfl) fun d _ _ _ hastray => ?_
    rcases hastray with ⟨pat, hpat, -⟩ | ⟨pat, hpat, -⟩ <;> cases hpat
  · have hdir {d : List Component} (hd : d ≠ []) :
        (dirfilter m checkout accepts []).eval (joinPath d) = true ↔ Shown accepts (joinPath d) := by
      rw [(eval_filters m checkout hne _).1]
      exact exists_congr fun pat => and_congr_right fun _ => fnmatch_joinPath pat hd
    obtain ⟨pat, hpat, hfile⟩ := (eval_filters m checkout hne _).2.mp hf
    constructor
    · intro h d hd hnil hlt _
      exact (hdir hnil).mp (h d hd hnil hlt)
    · intro h d hd hnil hlt
      obtain ⟨r, hr⟩ := joinPath_below hd hnil hlt
      have hfne : f ≠ [] := by
        rintro rfl
        exact hnil (List.prefix_nil.mp hd)
      rw [fnmatch_joinPath _ hfne, hr] at hfile
      rw [hdir hnil]
      rcases shown_or_astray hpat hfile with hs | ha
      · exact hs
      · exact h d hd hnil hlt ha

/-- A component of a path. -/
def component (text : List Byte) (h : text ≠ [] ∧ 47 ∉ text ∧ 0 ∉ text) : Component :=
  ⟨text, h.1, h.2.1, h.2.2⟩

/-- `foo/bar` -/
def fooBar : List Component :=
  [component (bytes "foo".toList) (by decide), component (bytes "bar".toList) (by decide)]

/-- No regular expression compiles. -/
def noRegex : Matchers Unit where
  fnmatch := fun _ _ _ => FNM_NOMATCH
  regcomp := fun _ => none
  regexec := fun _ _ => REG_NOMATCH
  fnmatch_returns := fun _ _ _ => .inr rfl
  regexec_returns := fun _ _ => .inr rfl

theorem dirfilter_iff_foo :
    (∀ d, d <+: fooBar → d ≠ [] → d ≠ fooBar →
        (dirfilter noRegex false [bytes "foo".toList] []).eval (joinPath d) = true) ↔
      ∀ d, d <+: fooBar → d ≠ [] → d ≠ fooBar →
        Astray false [bytes "foo".toList] (joinPath d) →
        Shown [bytes "foo".toList] (joinPath d) :=
  dirfilter_iff noRegex (by decide +kernel)

/-- With the pattern `*/bar` the directory `foo` hides the file `foo/bar`. -/
theorem not_dirfilter : ¬ ∀ (checkout : Bool) (accepts : List (List Byte)) (f : List Component),
    (filefilter noRegex checkout accepts []).eval (joinPath f) = true →
      ∀ d, d <+: f → d ≠ [] → d ≠ f →
        (dirfilter noRegex checkout accepts []).eval (joinPath d) = true := by
  intro h
  have hfoo := h false [bytes "*/bar".toList] fooBar (by decide +kernel) (fooBar.take 1)
    (List.take_prefix 1 fooBar) (by decide) (by decide)
  have hhidden : (dirfilter noRegex false [bytes "*/bar".toList] []).eval
      (joinPath (fooBar.take 1)) = false := by decide +kernel
  rw [hhidden] at hfoo
  cases hfoo

/-! ## Files below accepted directories -/

/-- Two names above a name with as many slashes are the same. -/
theorem above_unique {u v r r' : List Byte} (h : u ++ 47 :: r = v ++ 47 :: r')
    (hcount : u.count 47 = v.count 47) : u = v := by
  rcases List.append_eq_append_iff.mp h with ⟨t, rfl, ht⟩ | ⟨t, rfl, ht⟩
  · rcases t with - | ⟨b, t⟩
    · simp
    · obtain ⟨rfl, -⟩ := List.cons.inj ht
      simp [List.count_append] at hcount
  · rcases t with - | ⟨b, t⟩
    · simp
    · obtain ⟨rfl, -⟩ := List.cons.inj ht
      simp [List.count_append] at hcount

/-- What accepts a name below a directory, with as many slashes as the directory has,
matches the directory. -/
theorem matches_of_below {p : List (Item Byte)} {d r : List Byte} (hseps : seps 47 p = d.count 47)
    (h : Accepts 47 true true p (d ++ 47 :: r)) : Matches 47 p d := by
  rcases h with h | ⟨-, g, r', hg, h⟩ | ⟨-, p₁, p₂, rfl, -, h⟩
  · have := h.count
    rw [hseps, List.count_append, List.count_cons_self] at this
    omega
  · rw [above_unique hg (by rw [h.count, hseps])]
    exact h
  · have := h.count
    rw [seps, List.countP_append, ← seps] at hseps
    rw [List.count_append, List.count_cons_self] at this
    omega

/-- The files below a directory that an accept pattern matches are accepted if and only
if the pattern is used as it is for them, or with `,v` matches the directory too, or
another pattern accepts them. -/
theorem filefilter_below_iff (m : Matchers R) {pat : List Byte} (hpat : pat ∈ accepts)
    {d f : List Component} (hd : d <+: f) (hne : d ≠ []) (hlt : d ≠ f)
    (hm : fnmatch pat (joinPath d) FNM_PATHNAME = 0) :
    (filefilter m checkout accepts []).eval (joinPath f) = true ↔
      checkout = false ∨ pat.getLast? = some 42 ∨
        fnmatch (pat ++ commaV) (joinPath d) FNM_PATHNAME = 0 ∨
        ∃ other ∈ accepts, other ≠ pat ∧
          fnmatch (filePattern checkout other) (joinPath f) acceptFlags = 0 := by
  obtain ⟨r, hr⟩ := joinPath_below hd hne hlt
  have hfne : f ≠ [] := by
    rintro rfl
    exact hne (List.prefix_nil.mp hd)
  have haccepts : accepts ≠ [] := List.ne_nil_of_mem hpat
  rw [(eval_filters m checkout haccepts _).2]
  rw [fnmatch_pathname_iff] at hm ⊢
  -- a pattern that matches the directory accepts what is below
  have hbelow {p : List Byte} (h : Matches 47 (items p) (joinPath d)) :
      fnmatch p (joinPath f) acceptFlags = 0 := by
    rw [fnmatch_joinPath p hfne, hr]
    exact .inr (.inl ⟨rfl, _, r, rfl, h⟩)
  constructor
  · rintro ⟨other, hother, hfile⟩
    by_cases hsame : other = pat
    · subst hsame
      by_cases hmod : checkout = true ∧ other.getLast? ≠ some 42
      · rw [filePattern, if_pos hmod, fnmatch_joinPath _ hfne, hr] at hfile
        refine .inr (.inr (.inl (matches_of_below ?_ hfile)))
        rw [← (items_commaV other).seps, hm.count]
      · rw [not_and_or, Bool.not_eq_true, not_not] at hmod
        exact hmod.imp_right .inl
    · exact .inr (.inr (.inr ⟨other, hother, hsame, hfile⟩))
  · rintro (rfl | hstar | hv | ⟨other, hother, -, hfile⟩)
    · exact ⟨pat, hpat, hbelow (by simpa [filePattern] using hm)⟩
    · exact ⟨pat, hpat, hbelow (by simpa [filePattern, hstar] using hm)⟩
    · refine ⟨pat, hpat, hbelow ?_⟩
      rw [filePattern]
      split
      · exact hv
      · exact hm
    · exact ⟨other, hother, hfile⟩

theorem filefilter_below_iff_foo :
    (filefilter noRegex false [bytes "foo".toList] []).eval (joinPath fooBar) = true ↔
      false = false ∨ (bytes "foo".toList).getLast? = some 42 ∨
        fnmatch (bytes "foo".toList ++ commaV) (joinPath (fooBar.take 1)) FNM_PATHNAME = 0 ∨
        ∃ other ∈ [bytes "foo".toList], other ≠ bytes "foo".toList ∧
          fnmatch (filePattern false other) (joinPath fooBar) acceptFlags = 0 :=
  filefilter_below_iff noRegex (List.mem_singleton_self _) (List.take_prefix 1 fooBar) (by decide)
    (by decide) (by decide +kernel)

/-- `foo/bar.c,v` -/
def fooBarCV : List Component :=
  [component (bytes "foo".toList) (by decide), component (bytes "bar.c,v".toList) (by decide)]

/-- In checkout mode the pattern `foo` does not include `foo/bar.c,v`. -/
theorem not_filefilter_below :
    ¬ ∀ (checkout : Bool) (pat : List Byte) (d f : List Component), d <+: f → d ≠ [] → d ≠ f →
      fnmatch pat (joinPath d) FNM_PATHNAME = 0 → commaV <:+ joinPath f →
        (filefilter noRegex checkout [pat] []).eval (joinPath f) = true := by
  intro h
  have hfoo := h true (bytes "foo".toList) (fooBarCV.take 1) fooBarCV (List.take_prefix 1 fooBarCV)
    (by decide) (by decide) (by decide +kernel) ⟨bytes "foo/bar.c".toList, by decide⟩
  have hout : (filefilter noRegex true [bytes "foo".toList] []).eval (joinPath fooBarCV) = false := by
    decide +kernel
  rw [hout] at hfoo
  cases hfoo

end Csup.Globtree
