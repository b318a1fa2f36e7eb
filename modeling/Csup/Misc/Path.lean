import Csup.Base.Clib
import Csup.Framework.TreeWalk

/-!
# Paths

A relative path is the list of its components; `joinPath` is its text.
`commonpathlength` is the function of `misc.c`, `slashBefore` and `nextSlash`
are the searches for a slash.

* `commonpathlength_joinPath`: it is the length of the deepest common
  directory;
* `slashBefore_joinPath`, `nextSlash_joinPath`: the ends of the components.
-/

namespace Csup

open Framework (common)

/-! ## Paths and their text -/

/-- The name of a directory entry. -/
structure Component where
  val : List Byte
  ne_nil : val ≠ []
  no_slash : (47 : Byte) ∉ val
  no_nul : (0 : Byte) ∉ val
  deriving DecidableEq

/-- Each component behind a slash. -/
def slashed (cs : List Component) : List Byte := cs.flatMap (47 :: ·.val)

def joinPath : List Component → List Byte
  | [] => []
  | c :: cs => c.val ++ slashed cs

/-! ## The C functions -/

/-- The last slash before a position. -/
def slashBefore (s : List Byte) : Nat → Option Nat
  | 0 => none
  | n + 1 => if s[n]? = some 47 then some n else slashBefore s n

/-- The next slash, at most `n` bytes away, or the end of these. -/
def nextSlash (s : List Byte) : Nat → Nat → Nat
  | 0, pos => pos
  | n + 1, pos => if s[pos]? = some 47 then pos else nextSlash s n (pos + 1)

/-- The loop of `commonpathlength` behind the first `i` bytes. -/
def commonLoop : List Byte → List Byte → Nat → Nat → Nat
  | [], [], i, _ => i
  | x :: _, [], i, lastslash => if x = 47 then i else lastslash
  | [], y :: _, i, lastslash => if y = 47 then i else lastslash
  | x :: a, y :: b, i, lastslash =>
    if x ≠ y then lastslash
    else commonLoop a b (i + 1) (if x = 47 then if i = 0 then 1 else i else lastslash)

/-- `commonpathlength` -/
def commonpathlength (a : List Byte) (alen : Nat) (b : List Byte) (blen : Nat) : Nat :=
  commonLoop (a.take alen) (b.take blen) 0 0

/-! ## The text of a path -/

@[simp] theorem slashed_nil : slashed [] = [] := rfl

theorem slashed_cons (c : Component) (cs : List Component) :
    slashed (c :: cs) = 47 :: (c.val ++ slashed cs) := rfl

theorem slashed_append (cs ds : List Component) :
    slashed (cs ++ ds) = slashed cs ++ slashed ds := by
  simp [slashed]

theorem joinPath_append {d : List Component} (h : d ≠ []) (e : List Component) :
    joinPath (d ++ e) = joinPath d ++ slashed e := by
  obtain ⟨c, d, rfl⟩ := List.exists_cons_of_ne_nil h
  rw [List.cons_append, joinPath, joinPath, slashed_append, List.append_assoc]

theorem joinPath_singleton (c : Component) : joinPath [c] = c.val := by
  simp [joinPath]

theorem joinPath_concat {d : List Component} (h : d ≠ []) (c : Component) :
    joinPath (d ++ [c]) = joinPath d ++ 47 :: c.val := by
  rw [joinPath_append h, slashed_cons, slashed_nil, List.append_nil]

theorem Component.val_inj {c d : Component} : c.val = d.val ↔ c = d := by
  rcases c with ⟨c, _, _, _⟩
  rcases d with ⟨d, _, _, _⟩
  simp

theorem Component.length_pos (c : Component) : 0 < c.val.length :=
  List.length_pos_iff.mpr c.ne_nil

theorem slashed_length_pos {e : List Component} (h : e ≠ []) : 0 < (slashed e).length := by
  obtain ⟨c, e, rfl⟩ := List.exists_cons_of_ne_nil h
  simp [slashed_cons]

theorem joinPath_length_pos {d : List Component} (h : d ≠ []) : 0 < (joinPath d).length := by
  obtain ⟨c, d, rfl⟩ := List.exists_cons_of_ne_nil h
  have := c.length_pos
  simp only [joinPath, List.length_append]
  omega

/-- A longer path has a longer text. -/
theorem joinPath_length_lt (d : List Component) {e : List Component} (h : e ≠ []) :
    (joinPath d).length < (joinPath (d ++ e)).length := by
  by_cases hd : d = []
  · subst hd
    exact joinPath_length_pos h
  · have := slashed_length_pos h
    rw [joinPath_append hd, List.length_append]
    omega

theorem joinPath_below {d f : List Component} (hd : d <+: f) (hne : d ≠ []) (hlt : d ≠ f) :
    ∃ r, joinPath f = joinPath d ++ 47 :: r := by
  obtain ⟨e, rfl⟩ := hd
  rcases e with - | ⟨c, e⟩
  · exact absurd (List.append_nil d).symm hlt
  · exact ⟨_, by rw [joinPath_append hne, slashed_cons]⟩

theorem joinPath_ne_nil {d : List Component} (h : d ≠ []) : joinPath d ≠ [] :=
  List.length_pos_iff.mp (joinPath_length_pos h)

/-- Two names that are followed by a slash or by nothing. -/
theorem component_append_inj {c e : Component} {x y : List Byte} (hx : ∀ b ∈ x.head?, b = 47)
    (hy : ∀ b ∈ y.head?, b = 47) (h : c.val ++ x = e.val ++ y) : c = e ∧ x = y := by
  have hval (c : Component) {x : List Byte} (hx : ∀ b ∈ x.head?, b = 47) :
      (c.val ++ x).takeWhile (· ≠ 47) = c.val := by
    have hslash : ∀ b ∈ c.val, decide (b ≠ 47) = true := fun b hb =>
      decide_eq_true (ne_of_mem_of_not_mem hb c.no_slash)
    rw [List.takeWhile_append_of_pos hslash]
    cases x with
    | nil => simp
    | cons b x => simp [hx b rfl]
  have heq : c.val = e.val := by rw [← hval c hx, h, hval e hy]
  exact ⟨Component.val_inj.mp heq, List.append_cancel_left (heq ▸ h)⟩

theorem slashed_head (cs : List Component) : ∀ b ∈ (slashed cs).head?, b = 47 := by
  cases cs <;> simp [slashed_cons]

theorem slashed_injective {cs ds : List Component} (h : slashed cs = slashed ds) : cs = ds := by
  induction cs generalizing ds with
  | nil =>
    cases ds with
    | nil => rfl
    | cons d ds => cases h
  | cons c cs ih =>
    cases ds with
    | nil => cases h
    | cons d ds =>
      rw [slashed_cons, slashed_cons, List.cons.injEq] at h
      obtain ⟨rfl, hrest⟩ := component_append_inj (slashed_head cs) (slashed_head ds) h.2
      rw [ih hrest]

theorem joinPath_injective {p q : List Component} (hp : p ≠ []) (hq : q ≠ [])
    (h : joinPath p = joinPath q) : p = q := by
  obtain ⟨c, cs, rfl⟩ := List.exists_cons_of_ne_nil hp
  obtain ⟨d, ds, rfl⟩ := List.exists_cons_of_ne_nil hq
  refine slashed_injective ?_
  rw [slashed_cons, slashed_cons]
  exact congrArg (47 :: ·) h

/-- The text of a path in front of a slash is that of a directory above. -/
theorem prefix_of_joinPath {d f : List Component} {r : List Byte} (hne : d ≠ [])
    (h : joinPath f = joinPath d ++ 47 :: r) : d <+: f ∧ d ≠ f := by
  have hslashed (d f : List Component) (h : slashed f = slashed d ++ 47 :: r) : d <+: f ∧ d ≠ f := by
    induction d generalizing f with
    | nil =>
      refine ⟨List.nil_prefix, ?_⟩
      rintro rfl
      cases h
    | cons c d ih =>
      rcases f with - | ⟨e, f⟩
      · cases h
      · simp only [slashed_cons, List.cons_append, List.append_assoc, List.cons.injEq,
          true_and] at h
        obtain ⟨rfl, hrest⟩ := component_append_inj (slashed_head f)
          (by cases d <;> simp [slashed_cons]) h
        obtain ⟨hpre, hne⟩ := ih f hrest
        exact ⟨(List.prefix_cons_inj e).mpr hpre, fun heq => hne (List.cons.inj heq).2⟩
  obtain ⟨c, d, rfl⟩ := List.exists_cons_of_ne_nil hne
  rcases f with - | ⟨e, f⟩
  · exact absurd h.symm (by simp [joinPath])
  · refine hslashed (c :: d) (e :: f) ?_
    rw [slashed_cons, slashed_cons, List.cons_append]
    exact congrArg (47 :: ·) h

theorem zero_notMem_joinPath (d : List Component) : (0 : Byte) ∉ joinPath d := by
  have hs (cs : List Component) : (0 : Byte) ∉ slashed cs := by
    simp only [slashed, List.mem_flatMap, List.mem_cons, not_exists, not_and, not_or]
    exact fun c _ => ⟨by decide, c.no_nul⟩
  match d with
  | [] => exact List.not_mem_nil
  | c :: cs => exact fun h => (List.mem_append.mp h).elim c.no_nul (hs cs)

/-- A relative path does not begin with a slash. -/
theorem joinPath_head (d : List Component) : (joinPath d).head? ≠ some 47 := by
  match d with
  | [] => simp [joinPath]
  | c :: cs =>
    obtain ⟨x, xs, hx⟩ := List.exists_cons_of_ne_nil c.ne_nil
    intro h
    rw [joinPath, hx, List.cons_append, List.head?_cons] at h
    exact c.no_slash (by simp [hx, Option.some.inj h])

theorem cstr_append_nul {s : List Byte} (h : (0 : Byte) ∉ s) (rest : List Byte) :
    cstr (s ++ 0 :: rest) = s := by
  have hs : ∀ b ∈ s, decide (b ≠ 0) = true := by
    intro b hb
    exact decide_eq_true fun h0 => h (h0 ▸ hb)
  rw [cstr, List.takeWhile_append_of_pos hs]
  simp

/-! ## The last slash -/

theorem slashBefore_none {s : List Byte} (h : (47 : Byte) ∉ s) (rest : List Byte) :
    slashBefore (s ++ rest) s.length = none := by
  suffices H : ∀ n ≤ s.length, slashBefore (s ++ rest) n = none from H s.length (Nat.le_refl _)
  intro n hn
  induction n with
  | zero => rfl
  | succ n ih =>
    have hget : (s ++ rest)[n]? ≠ some 47 := by
      rw [List.getElem?_append_left (by omega)]
      exact fun h' => h (List.mem_of_getElem? h')
    rw [slashBefore, if_neg hget]
    exact ih (by omega)

theorem slashBefore_some (x : List Byte) {s : List Byte} (h : (47 : Byte) ∉ s) (rest : List Byte) :
    slashBefore (x ++ 47 :: s ++ rest) (x ++ 47 :: s).length = some x.length := by
  suffices H : ∀ n ≤ s.length,
      slashBefore (x ++ 47 :: s ++ rest) (x.length + 1 + n) = some x.length by
    have := H s.length (Nat.le_refl _)
    rwa [show x.length + 1 + s.length = (x ++ 47 :: s).length by simp; omega] at this
  intro n hn
  induction n with
  | zero =>
    rw [Nat.add_zero, slashBefore, if_pos]
    simp
  | succ n ih =>
    have hget : (x ++ 47 :: s ++ rest)[x.length + 1 + n]? ≠ some 47 := by
      rw [List.append_assoc, List.getElem?_append_right (by omega),
        show x.length + 1 + n - x.length = n + 1 by omega, List.cons_append,
        List.getElem?_cons_succ, List.getElem?_append_left (by omega)]
      exact fun h' => h (List.mem_of_getElem? h')
    rw [show x.length + 1 + (n + 1) = (x.length + 1 + n) + 1 by omega, slashBefore, if_neg hget]
    exact ih (by omega)

/-- The last slash of a path is at the end of its directory. -/
theorem slashBefore_joinPath (d : List Component) (c : Component) (rest : List Byte) :
    (slashBefore (joinPath (d ++ [c]) ++ rest) (joinPath (d ++ [c])).length).getD 0 =
      (joinPath d).length := by
  by_cases hd : d = []
  · subst hd
    rw [List.nil_append, joinPath_singleton, slashBefore_none c.no_slash]
    rfl
  · rw [joinPath_concat hd, slashBefore_some _ c.no_slash]
    rfl

/-! ## The next slash -/

theorem nextSlash_skip {x s rest : List Byte} (h : (47 : Byte) ∉ s) (n : Nat) :
    nextSlash (x ++ s ++ rest) (s.length + n) x.length =
      nextSlash (x ++ s ++ rest) n (x.length + s.length) := by
  induction s generalizing x with
  | nil => simp
  | cons b s ih =>
    have hget : (x ++ b :: s ++ rest)[x.length]? ≠ some 47 := by
      simp only [List.append_assoc, List.getElem?_append_right (Nat.le_refl _), Nat.sub_self,
        List.cons_append, List.getElem?_cons_zero, ne_eq, Option.some.injEq]
      exact fun hb => h (by simp [hb])
    have := ih (x := x ++ [b]) (fun hs => h (List.mem_cons_of_mem b hs))
    rw [List.append_assoc x, List.singleton_append, List.length_append, List.length_singleton]
      at this
    rw [List.length_cons, show s.length + 1 + n = (s.length + n) + 1 by omega, nextSlash,
      if_neg hget, this]
    congr 1
    omega

/-- From the beginning of a component to its end. -/
theorem nextSlash_joinPath (d : List Component) (c : Component) (e : List Component)
    (rest : List Byte) :
    nextSlash (joinPath (d ++ c :: e) ++ rest) ((joinPath (d ++ c :: e)).length -
        (if (joinPath d).length = 0 then 0 else (joinPath d).length + 1))
        (if (joinPath d).length = 0 then 0 else (joinPath d).length + 1) =
      (joinPath (d ++ [c])).length := by
  -- the text in front of the component
  have hx : ∃ x, joinPath (d ++ c :: e) = x ++ c.val ++ slashed e ∧
      joinPath (d ++ [c]) = x ++ c.val ∧
      x.length = if (joinPath d).length = 0 then 0 else (joinPath d).length + 1 := by
    by_cases hd : d = []
    · subst hd
      exact ⟨[], rfl, by simp [joinPath], rfl⟩
    · have hpos := joinPath_length_pos hd
      refine ⟨joinPath d ++ [47], ?_, ?_, ?_⟩
      · rw [joinPath_append hd, slashed_cons]
        simp
      · rw [joinPath_concat hd]
        simp
      · rw [if_neg (by omega)]
        simp
  obtain ⟨x, hfull, hcut, hlen⟩ := hx
  rw [← hlen, hfull, hcut, List.append_assoc (x ++ c.val)]
  rw [show (x ++ c.val ++ slashed e).length - x.length = c.val.length + (slashed e).length by
    simp only [List.length_append]; omega, nextSlash_skip c.no_slash, List.length_append]
  match e with
  | [] => rfl
  | c' :: e =>
    rw [slashed_cons, List.length_cons, nextSlash, if_pos]
    rw [← List.length_append, List.getElem?_append_right (Nat.le_refl _), Nat.sub_self]
    rfl

/-! ## `commonpathlength` -/

/-- Behind equal bytes, the next component decides. -/
theorem commonLoop_component {c d : List Byte} (hc : (47 : Byte) ∉ c) (hd : (47 : Byte) ∉ d)
    (p t : List Component) (i lastslash : Nat) :
    commonLoop (c ++ slashed p) (d ++ slashed t) i lastslash =
      if c = d then commonLoop (slashed p) (slashed t) (i + c.length) lastslash
      else lastslash := by
  induction c generalizing d i with
  | nil =>
    match d with
    | [] => simp
    | y :: d =>
      have hy : ¬ y = 47 := fun h => hd (by simp [h])
      match p with
      | [] => simp [commonLoop, hy]
      | c' :: p =>
        have hy' : ¬ (47 : Byte) = y := fun h => hy h.symm
        simp [slashed_cons, commonLoop, hy']
  | cons x c ih =>
    have hx : ¬ x = 47 := fun h => hc (by simp [h])
    match d with
    | [] =>
      match t with
      | [] => simp [commonLoop, hx]
      | c' :: t => simp [slashed_cons, commonLoop, hx]
    | y :: d =>
      simp only [List.cons_append, commonLoop, List.cons.injEq]
      by_cases hxy : x = y
      · subst hxy
        rw [if_neg (by simp), if_neg hx, ih (fun h => hc (List.mem_cons_of_mem x h))
          (fun h => hd (List.mem_cons_of_mem x h)), List.length_cons,
          show i + 1 + c.length = i + (c.length + 1) by omega]
        simp
      · simp [hxy]

/-- Behind equal components. -/
theorem commonLoop_slashed {i : Nat} (hi : 0 < i) (p t : List Component) (lastslash : Nat) :
    commonLoop (slashed p) (slashed t) i lastslash = i + (slashed (common p t)).length := by
  induction p generalizing t i lastslash with
  | nil =>
    match t with
    | [] => rfl
    | d :: t => simp [slashed_cons, commonLoop, common]
  | cons c p ih =>
    match t with
    | [] => simp [slashed_cons, commonLoop, common]
    | d :: t =>
      have hi0 : i ≠ 0 := by omega
      simp only [slashed_cons, commonLoop, ne_eq, not_true_eq_false, if_false, if_true, hi0]
      rw [commonLoop_component c.no_slash d.no_slash, common]
      by_cases hcd : c = d
      · subst hcd
        rw [if_pos rfl, if_pos rfl, ih (by omega), slashed_cons, List.length_cons,
          List.length_append]
        omega
      · rw [if_neg fun h => hcd (Component.val_inj.mp h), if_neg hcd]
        rfl

/-- `commonpathlength` is the length of the deepest common directory. -/
theorem commonLoop_joinPath (p t : List Component) :
    commonLoop (joinPath p) (joinPath t) 0 0 = (joinPath (common p t)).length := by
  match p, t with
  | [], [] => rfl
  | [], d :: t =>
    obtain ⟨y, ys, hy⟩ := List.exists_cons_of_ne_nil d.ne_nil
    simp [joinPath, hy, commonLoop, common]
  | c :: p, [] =>
    obtain ⟨x, xs, hx⟩ := List.exists_cons_of_ne_nil c.ne_nil
    simp [joinPath, hx, commonLoop, common]
  | c :: p, d :: t =>
    rw [joinPath, joinPath, commonLoop_component c.no_slash d.no_slash, common]
    by_cases hcd : c = d
    · subst hcd
      have := c.length_pos
      rw [if_pos rfl, if_pos rfl, commonLoop_slashed (by omega), joinPath, List.length_append]
      omega
    · rw [if_neg fun h => hcd (Component.val_inj.mp h), if_neg hcd]
      rfl

theorem commonpathlength_joinPath (p t : List Component) (x y : List Byte) :
    commonpathlength (joinPath p ++ x) (joinPath p).length (joinPath t ++ y) (joinPath t).length =
      (joinPath (common p t)).length := by
  rw [commonpathlength, List.take_left, List.take_left]
  exact commonLoop_joinPath p t

end Csup
