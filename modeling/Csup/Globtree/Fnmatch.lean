import Csup.Globtree.Defs

/-!
# Pattern matching: `fnmatch.c`

The strings are the bytes in front of the NUL; the end of the list is `EOS`. `before`
are the bytes from `stringstart` to `string`, and a call from inside, behind a star,
begins with none.
-/

namespace Csup.Globtree

/-- The flags of `fnmatch.h`. -/
structure Flags where
  noescape : Bool
  pathname : Bool
  period : Bool
  leadingDir : Bool
  casefold : Bool
  prefixDirs : Bool

def FNM_NOESCAPE : Nat := 0x01
def FNM_PATHNAME : Nat := 0x02
def FNM_PERIOD : Nat := 0x04
def FNM_LEADING_DIR : Nat := 0x08
def FNM_CASEFOLD : Nat := 0x10
def FNM_PREFIX_DIRS : Nat := 0x20

def Flags.ofNat (flags : Nat) : Flags where
  noescape := flags &&& FNM_NOESCAPE ≠ 0
  pathname := flags &&& FNM_PATHNAME ≠ 0
  period := flags &&& FNM_PERIOD ≠ 0
  leadingDir := flags &&& FNM_LEADING_DIR ≠ 0
  casefold := flags &&& FNM_CASEFOLD ≠ 0
  prefixDirs := flags &&& FNM_PREFIX_DIRS ≠ 0

/-- `tolower` -/
def tolower (c : Byte) : Byte := if 65 ≤ c ∧ c ≤ 90 then c + 32 else c

def Flags.fold (flags : Flags) (c : Byte) : Byte := if flags.casefold then tolower c else c

/-! ## Bracket expressions -/

/-- A byte of a bracket expression, and what is behind it; `none` at `EOS`. -/
def rangeByte (flags : Flags) : List Byte → Option (Byte × List Byte)
  | [] => none
  | c :: p =>
    if c = 92 ∧ flags.noescape = false then
      match p with
      | [] => none
      | d :: p => some (d, p)
    else some (c, p)

theorem rangeByte_lt {flags : Flags} {p p' : List Byte} {c : Byte}
    (h : rangeByte flags p = some (c, p')) : p'.length < p.length := by
  rcases p with - | ⟨b, p⟩
  · cases h
  · simp only [rangeByte] at h
    split at h
    · split at h
      · cases h
      · cases h
        simp only [List.length_cons]
        omega
    · cases h
      simp only [List.length_cons]
      omega

/-- A byte or a range of a bracket expression, as what it says of `test`, and what is
behind it. -/
def rangeStep (flags : Flags) (pattern : List Byte) : Option ((Byte → Bool) × List Byte) :=
  match rangeByte flags pattern with
  | none => none
  | some (c, p) =>
    match p with
    | 45 :: c2 :: q =>
      if c2 = 93 then some (fun test => flags.fold c == test, p)
      else
        match rangeByte flags (c2 :: q) with
        | none => none
        | some (c2, q) => some (fun test => flags.fold c ≤ test && test ≤ flags.fold c2, q)
    | _ => some (fun test => flags.fold c == test, p)

theorem rangeStep_lt {flags : Flags} {p p' : List Byte} {ok : Byte → Bool}
    (h : rangeStep flags p = some (ok, p')) : p'.length < p.length := by
  rw [rangeStep] at h
  rcases hb : rangeByte flags p with - | ⟨c, q⟩
  · rw [hb] at h
    cases h
  · have hlt := rangeByte_lt hb
    simp only [hb] at h
    split at h
    · split at h
      · cases h
        exact hlt
      · split at h
        · cases h
        · rename_i hb'
          have := rangeByte_lt hb'
          cases h
          simp only [List.length_cons] at hlt this
          omega
    · cases h
      exact hlt

/-- The loop of `rangematch`: whether `test` is in the class, and the pattern behind
the bracket. -/
def rangeLoop (flags : Flags) (test : Byte) (pattern : List Byte) (ok : Bool) :
    Option (Bool × List Byte) :=
  if pattern.head? = some 93 then some (ok, pattern.tail)
  else
    match _h : rangeStep flags pattern with
    | none => none
    | some (step, p) => rangeLoop flags test p (ok || step test)
  termination_by pattern.length
  decreasing_by exact rangeStep_lt _h

/-- `rangematch`, `NULL` is `none`. -/
def rangematch (flags : Flags) (pattern : List Byte) (test : Byte) : Option (List Byte) :=
  let negate := pattern.head? = some 33 ∨ pattern.head? = some 94
  match rangeLoop flags (flags.fold test) (if negate then pattern.tail else pattern) false with
  | none => none
  | some (ok, p) => if ok = decide negate then none else some p

/-! ## Patterns -/

/-- Whether `FNM_PERIOD` keeps a wildcard from a period. -/
def leadingPeriod (flags : Flags) (before string : List Byte) : Bool :=
  string.head? = some 46 ∧ flags.period ∧
    (before = [] ∨ flags.pathname ∧ before.getLast? = some 47)

/-- The loop behind a star; `inner` is the call from inside. -/
def starLoop (flags : Flags) (inner : List Byte → Int) : List Byte → Int
  | [] => FNM_NOMATCH
  | test :: string =>
    if inner (test :: string) = 0 then 0
    else if test = 47 ∧ flags.pathname then FNM_NOMATCH
    else starLoop flags inner string

/-- The byte of an escape or of itself. -/
def literal (flags : Flags) (c : Byte) (pattern : List Byte) : Byte × List Byte :=
  if c = 92 ∧ flags.noescape = false then
    match pattern with
    | [] => (92, [])
    | d :: p => (d, p)
  else (c, pattern)

theorem literal_le (flags : Flags) (c : Byte) (pattern : List Byte) :
    (literal flags c pattern).2.length ≤ pattern.length := by
  simp only [literal]
  split
  · rcases pattern with - | ⟨d, p⟩ <;> simp
  · exact Nat.le_refl _

/-- The pattern behind stars. -/
def stars (pattern : List Byte) : List Byte := pattern.dropWhile (· = 42)

theorem stars_le (p : List Byte) : (stars p).length ≤ p.length :=
  (List.dropWhile_sublist _).length_le

theorem rangeLoop_lt {flags : Flags} {test : Byte} {pattern p : List Byte} {ok ok' : Bool}
    (h : rangeLoop flags test pattern ok = some (ok', p)) : p.length < pattern.length := by
  fun_induction rangeLoop flags test pattern ok with
  | case1 pattern ok hc =>
    obtain ⟨r, rfl⟩ := List.head?_eq_some_iff.mp hc
    cases h
    exact Nat.lt_succ_self _
  | case2 => cases h
  | case3 pattern ok hc step q hstep ih => exact Nat.lt_trans (ih h) (rangeStep_lt hstep)

theorem rangematch_le {flags : Flags} {test : Byte} {pattern p : List Byte}
    (h : rangematch flags pattern test = some p) : p.length ≤ pattern.length := by
  rw [rangematch] at h
  split at h
  · cases h
  · rename_i hloop
    split at h
    · cases h
    · cases h
      have := rangeLoop_lt hloop
      split at this
      · rw [List.length_tail] at this
        omega
      · omega

/-- The loop of `fnmatch`. -/
def fnmatchAt (flags : Flags) (pattern before string : List Byte) : Int :=
  match pattern with
  | [] =>
    if flags.leadingDir ∧ string.head? = some 47 then 0
    else if string = [] then 0 else FNM_NOMATCH
  | c :: p =>
    if c = 63 then
      match string with
      | [] => FNM_NOMATCH
      | b :: s =>
        if b = 47 ∧ flags.pathname then FNM_NOMATCH
        else if leadingPeriod flags before string then FNM_NOMATCH
        else fnmatchAt flags p (before ++ [b]) s
    else if c = 42 then
      if leadingPeriod flags before string then FNM_NOMATCH
      else
        match _h : stars p with
        | [] => if flags.pathname ∧ flags.leadingDir = false ∧ 47 ∈ string then FNM_NOMATCH else 0
        | d :: q =>
          if d = 47 ∧ flags.pathname then
            if 47 ∈ string then
              fnmatchAt flags (d :: q) (before ++ string.takeWhile (· ≠ 47))
                (string.dropWhile (· ≠ 47))
            else FNM_NOMATCH
          else starLoop flags (fnmatchAt { flags with period := false } (d :: q) []) string
    else if c = 91 then
      match string with
      | [] => FNM_NOMATCH
      | b :: s =>
        if b = 47 ∧ flags.pathname then FNM_NOMATCH
        else
          match _h : rangematch flags p b with
          | none => FNM_NOMATCH
          | some q => fnmatchAt flags q (before ++ [b]) s
    else
      match string with
      | [] =>
        if flags.prefixDirs ∧ ((literal flags c p).1 = 47 ∧ before ≠ [] ∨ before = [47]) then 0
        else FNM_NOMATCH
      | b :: s =>
        if flags.fold (literal flags c p).1 = flags.fold b then
          fnmatchAt flags (literal flags c p).2 (before ++ [b]) s
        else FNM_NOMATCH
  termination_by pattern.length
  decreasing_by
    · simp
    · have := stars_le p
      simp only [_h, List.length_cons] at this ⊢
      omega
    · have := stars_le p
      simp only [_h, List.length_cons] at this ⊢
      omega
    · have := rangematch_le _h
      simp only [List.length_cons]
      omega
    · have := literal_le flags c p
      simp only [List.length_cons]
      omega

/-- `fnmatch` -/
def fnmatch (pattern string : List Byte) (flags : Nat) : Int :=
  fnmatchAt (Flags.ofNat flags) pattern [] string

/-! ## One wildcard -/

theorem fnmatchAt_any (flags : Flags) (p before : List Byte) (b : Byte) (s : List Byte) :
    fnmatchAt flags (63 :: p) before (b :: s) =
      if b = 47 ∧ flags.pathname then FNM_NOMATCH
      else if leadingPeriod flags before (b :: s) then FNM_NOMATCH
      else fnmatchAt flags p (before ++ [b]) s := by
  rw [fnmatchAt.eq_def]
  simp only
  rw [if_pos trivial]

/-- `?` and `[` do not match the end. -/
theorem fnmatchAt_end (flags : Flags) (c : Byte) (hc : c = 63 ∨ c = 91) (p before : List Byte) :
    fnmatchAt flags (c :: p) before [] = FNM_NOMATCH := by
  rw [fnmatchAt.eq_def]
  rcases hc with rfl | rfl
  · rfl
  · rfl

theorem fnmatchAt_star (flags : Flags) (p before s : List Byte) :
    fnmatchAt flags (42 :: p) before s =
      if leadingPeriod flags before s then FNM_NOMATCH
      else
        match stars p with
        | [] => if flags.pathname ∧ flags.leadingDir = false ∧ 47 ∈ s then FNM_NOMATCH else 0
        | d :: q =>
          if d = 47 ∧ flags.pathname then
            if 47 ∈ s then
              fnmatchAt flags (d :: q) (before ++ s.takeWhile (· ≠ 47)) (s.dropWhile (· ≠ 47))
            else FNM_NOMATCH
          else starLoop flags (fnmatchAt { flags with period := false } (d :: q) []) s := by
  rw [fnmatchAt.eq_def]
  simp only
  rw [if_neg (by decide), if_pos trivial]
  split
  · rfl
  · split
    · rename_i h
      rw [h]
    · rename_i h
      rw [h]

theorem fnmatchAt_bracket (flags : Flags) (p before : List Byte) (b : Byte) (s : List Byte) :
    fnmatchAt flags (91 :: p) before (b :: s) =
      if b = 47 ∧ flags.pathname then FNM_NOMATCH
      else
        match rangematch flags p b with
        | none => FNM_NOMATCH
        | some q => fnmatchAt flags q (before ++ [b]) s := by
  rw [fnmatchAt.eq_def]
  simp only
  rw [if_neg (by decide), if_neg (by decide), if_pos trivial]
  split
  · rfl
  · split
    · rename_i h
      rw [h]
    · rename_i h
      rw [h]

theorem fnmatchAt_plain (flags : Flags) {c : Byte} (h63 : c ≠ 63) (h42 : c ≠ 42) (h91 : c ≠ 91)
    (p before s : List Byte) :
    fnmatchAt flags (c :: p) before s =
      match s with
      | [] =>
        if flags.prefixDirs ∧ ((literal flags c p).1 = 47 ∧ before ≠ [] ∨ before = [47]) then 0
        else FNM_NOMATCH
      | b :: s =>
        if flags.fold (literal flags c p).1 = flags.fold b then
          fnmatchAt flags (literal flags c p).2 (before ++ [b]) s
        else FNM_NOMATCH := by
  rw [fnmatchAt.eq_def]
  simp only
  rw [if_neg h63, if_neg h42, if_neg h91]

/-! ## Results -/

theorem starLoop_returns (flags : Flags) (inner : List Byte → Int) (s : List Byte) :
    starLoop flags inner s = 0 ∨ starLoop flags inner s = FNM_NOMATCH := by
  fun_induction starLoop flags inner s with
  | case1 => exact .inr rfl
  | case2 => exact .inl rfl
  | case3 => exact .inr rfl
  | case4 _ _ _ _ ih => exact ih

theorem fnmatchAt_returns (flags : Flags) (p before s : List Byte) :
    fnmatchAt flags p before s = 0 ∨ fnmatchAt flags p before s = FNM_NOMATCH := by
  fun_induction fnmatchAt flags p before s
  case case6 h =>
    rw [if_pos h]
    exact .inr rfl
  case case7 h ih =>
    rw [if_neg h]
    exact ih
  all_goals first | exact .inl rfl | exact .inr rfl | exact starLoop_returns .. | assumption

/-- The matching operations, with `fnmatch`. -/
def Matchers.withFnmatch {R : Type*} (m : Matchers R) : Matchers R where
  fnmatch := Globtree.fnmatch
  regcomp := m.regcomp
  regexec := m.regexec
  fnmatch_returns p s flags := fnmatchAt_returns (Flags.ofNat flags) p [] s
  regexec_returns := m.regexec_returns

end Csup.Globtree
