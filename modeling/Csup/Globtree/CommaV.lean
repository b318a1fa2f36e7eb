import Csup.Globtree.Glob

/-!
# Patterns for RCS files

In checkout mode `,v` is put behind a pattern. The items of the two patterns are the
same but for the last ones, and those are not slashes (`items_commaV`): a backslash at
the end escapes the comma, and a bracket expression that is open stays open.

* `rangeLoop_closed`: a bracket expression is not looked at behind its end.
-/

namespace Csup.Globtree

open Csup.Framework
open Csup.Framework.Glob

variable {flags : Flags} {test c : Byte} {p q : List Byte} {ok ok' : Bool}

/-! ## Bracket expressions -/

theorem rangeByte_reads (h : rangeByte flags p = some (c, q)) :
    ∃ b v, p = b :: v ++ q ∧ ∀ r, rangeByte flags (b :: v ++ r) = some (c, r) := by
  rcases p with - | ⟨b, p⟩
  · cases h
  · simp only [rangeByte] at h
    split at h
    · rename_i hb
      rcases p with - | ⟨d, p⟩
      · cases h
      · cases h
        refine ⟨b, [c], rfl, fun r => ?_⟩
        show (if b = 92 ∧ flags.noescape = false then some (c, r) else _) = _
        rw [if_pos hb]
    · rename_i hb
      cases h
      refine ⟨c, [], rfl, fun r => ?_⟩
      rw [List.singleton_append, rangeByte.eq_def]
      exact if_neg hb

/-- The first byte in front of a `]`, or the `]`. -/
theorem head_front {w t : List Byte} {d : Byte} (h : w ++ 93 :: q = d :: t) (r : List Byte) :
    ∃ x, w ++ 93 :: r = d :: x := by
  rcases w with - | ⟨a, w⟩
  · exact ⟨r, by rw [(List.cons.inj h).1]; rfl⟩
  · rw [List.cons_append] at h
    exact ⟨w ++ 93 :: r, by rw [(List.cons.inj h).1]; rfl⟩

/-- What a step reads, when it leaves a `]` in what is behind it. -/
theorem rangeStep_reads {step : Byte → Bool} {w : List Byte}
    (h : rangeStep flags p = some (step, w ++ 93 :: q)) :
    ∃ b v, p = b :: v ++ (w ++ 93 :: q) ∧
      ∀ r, rangeStep flags (b :: v ++ (w ++ 93 :: r)) = some (step, w ++ 93 :: r) := by
  rw [rangeStep] at h
  rcases hb : rangeByte flags p with - | ⟨c, p₁⟩
  · rw [hb] at h
    cases h
  · obtain ⟨b, v, hp, hreads⟩ := rangeByte_reads hb
    simp only [hb] at h
    split at h
    · rename_i c2 t
      split at h
      · -- a `-` in front of the end is a byte
        rename_i hc2
        obtain ⟨rfl, hw⟩ := Prod.mk.inj (Option.some.inj h)
        refine ⟨b, v, by rw [hp, hw], fun r => ?_⟩
        obtain ⟨x, hx⟩ := head_front hw.symm r
        obtain ⟨w, rfl⟩ : ∃ w', w = 45 :: w' := by
          rcases w with - | ⟨a, w⟩
          · cases hw
          · exact ⟨w, by rw [(List.cons.inj hw).1]⟩
        obtain ⟨y, hy⟩ := head_front (List.cons.inj hw).2.symm r
        rw [rangeStep, hreads, List.cons_append, hy]
        simp only [if_pos hc2]
      · split at h
        · cases h
        · rename_i hc2 _ c2' t' hb2
          obtain ⟨rfl, rfl⟩ := Prod.mk.inj (Option.some.inj h)
          obtain ⟨b2, v2, ht, hreads2⟩ := rangeByte_reads hb2
          obtain ⟨rfl, rfl⟩ := List.cons.inj ht
          refine ⟨b, v ++ 45 :: c2 :: v2, by simp [hp], fun r => ?_⟩
          have happ : b :: (v ++ 45 :: c2 :: v2) ++ (w ++ 93 :: r) =
              b :: v ++ (45 :: c2 :: (v2 ++ (w ++ 93 :: r))) := by simp
          rw [happ, rangeStep, hreads]
          simp only [if_neg hc2]
          rw [show c2 :: (v2 ++ (w ++ 93 :: r)) = c2 :: v2 ++ (w ++ 93 :: r) from rfl, hreads2]
    · rename_i hne
      obtain ⟨rfl, rfl⟩ := Prod.mk.inj (Option.some.inj h)
      refine ⟨b, v, hp, fun r => ?_⟩
      rw [rangeStep, hreads]
      simp only
      split
      · rename_i c2 t hw
        rcases w with - | ⟨a, w⟩
        · cases hw
        · obtain ⟨rfl, hw'⟩ := List.cons.inj (show a :: (w ++ 93 :: r) = _ from hw)
          obtain ⟨y, hy⟩ := head_front hw' q
          exact absurd (by rw [List.cons_append, hy]) (hne c2 y)
      · rfl

/-- The loop does not look behind the end of the bracket expression. -/
theorem rangeLoop_closed (h : rangeLoop flags test p ok = some (ok', q)) :
    ∃ w, p = w ++ 93 :: q ∧ ∀ r, rangeLoop flags test (w ++ 93 :: r) ok = some (ok', r) := by
  fun_induction rangeLoop flags test p ok with
  | case1 p ok hc =>
    obtain ⟨t, rfl⟩ := List.head?_eq_some_iff.mp hc
    cases h
    refine ⟨[], rfl, fun r => ?_⟩
    rw [List.nil_append, rangeLoop]
    rfl
  | case2 => cases h
  | case3 p ok hc step p' hstep ih =>
    obtain ⟨w, rfl, hw⟩ := ih h
    obtain ⟨b, v, rfl, hreads⟩ := rangeStep_reads hstep
    refine ⟨b :: v ++ w, by simp, fun r => ?_⟩
    have hb : ¬ (b :: v ++ (w ++ 93 :: r)).head? = some 93 := hc
    rw [List.append_assoc, rangeLoop.eq_def, if_neg hb]
    split
    · rename_i hnone
      rw [hreads] at hnone
      cases hnone
    · rename_i hsome
      rw [hreads] at hsome
      cases hsome
      exact hw r

theorem rangeLoop_nil : rangeLoop flags test [] ok = none := by
  rw [rangeLoop]
  rfl

theorem rangeLoop_append (h : rangeLoop flags test p ok = some (ok', q)) (t : List Byte) :
    rangeLoop flags test (p ++ t) ok = some (ok', q ++ t) := by
  obtain ⟨w, rfl, hw⟩ := rangeLoop_closed h
  rw [List.append_assoc]
  exact hw (q ++ t)

theorem rangeLoop_append_none {t : List Byte} (ht : 93 ∉ t)
    (h : rangeLoop flags test p ok = none) : rangeLoop flags test (p ++ t) ok = none := by
  rcases hloop : rangeLoop flags test (p ++ t) ok with - | ⟨ok', q⟩
  · rfl
  · obtain ⟨w, heq, hw⟩ := rangeLoop_closed hloop
    rcases List.append_eq_append_iff.mp heq with ⟨r, rfl, hr⟩ | ⟨r, rfl, hr⟩
    · exact absurd (by simp [hr]) ht
    · rcases r with - | ⟨a, r⟩
      · rw [List.nil_append] at hr
        exact absurd (hr ▸ List.mem_cons_self ..) ht
      · obtain ⟨rfl, -⟩ := List.cons.inj hr
        rw [hw r] at h
        cases h

theorem members_append (hp : p ≠ []) (t : List Byte) : members (p ++ t) = members p ++ t := by
  obtain ⟨c, p, rfl⟩ := List.exists_cons_of_ne_nil hp
  show (if some c = some 33 ∨ some c = some 94 then p ++ t else c :: p ++ t) =
    (if some c = some 33 ∨ some c = some 94 then p else c :: p) ++ t
  split <;> rfl

theorem bracket_append (h : bracket p = some q) (t : List Byte) :
    bracket (p ++ t) = some (q ++ t) ∧ inClass (p ++ t) = inClass p := by
  have hp : p ≠ [] := by
    rintro rfl
    rw [bracket, show members [] = [] from rfl, rangeLoop_nil] at h
    cases h
  have hloop (b : Byte) : ∃ ok, rangeLoop (pathFlags true true) b (members p) false = some (ok, q) := by
    rw [bracket, rangeLoop_snd 0 b (members p) false false] at h
    obtain ⟨⟨ok, q⟩, hloop, rfl⟩ := Option.map_eq_some_iff.mp h
    exact ⟨ok, hloop⟩
  constructor
  · obtain ⟨ok, h0⟩ := hloop 0
    rw [bracket, members_append hp, rangeLoop_append h0]
    rfl
  · funext b
    obtain ⟨ok, hb⟩ := hloop b
    rw [inClass, inClass, rangematch_members, rangematch_members, members_append hp,
      rangeLoop_append hb, hb, List.head?_append_of_ne_nil _ hp]
    simp only
    split <;> rfl

theorem bracket_append_none {t : List Byte} (ht : 93 ∉ t) (h : bracket p = none) :
    bracket (p ++ t) = none := by
  rw [bracket, Option.map_eq_none_iff] at h ⊢
  by_cases hp : p = []
  · subst hp
    have hm : 93 ∉ members t := by
      rw [members]
      split
      · exact fun h => ht (List.mem_of_mem_tail h)
      · exact ht
    exact rangeLoop_append_none hm rangeLoop_nil
  · rw [members_append hp]
    exact rangeLoop_append_none ht h

/-! ## Items -/

/-- What is put behind a pattern. -/
def commaV : List Byte := [44, 118]

theorem items_v : items [118] = [.lit 118] := by
  rw [items_plain ⟨by decide, by decide, by decide⟩]
  show Item.lit 118 :: items [] = _
  rw [items_nil]

theorem items_of_commaV : items commaV = [.lit 44, .lit 118] := by
  rw [commaV, items_plain ⟨by decide, by decide, by decide⟩]
  show Item.lit 44 :: items [118] = _
  rw [items_v]

theorem stars_append {t : List Byte} (ht : t.head? ≠ some 42) (p : List Byte) :
    stars (p ++ t) = stars p ++ t := by
  induction p with
  | nil =>
    rcases t with - | ⟨c, t⟩
    · rfl
    · have hc : c ≠ 42 := fun h => ht (by rw [h]; rfl)
      show List.dropWhile _ (c :: t) = c :: t
      rw [List.dropWhile_cons_of_neg (by simpa using hc)]
  | cons c p ih =>
    rw [stars, stars] at ih ⊢
    by_cases hc : c = 42
    · rw [List.cons_append, List.dropWhile_cons_of_pos (by simpa using hc),
        List.dropWhile_cons_of_pos (by simpa using hc), ih]
    · rw [List.cons_append, List.dropWhile_cons_of_neg (by simpa using hc),
        List.dropWhile_cons_of_neg (by simpa using hc)]
      rfl

/-- The items of two patterns are the same up to some, with no slash among the rest. -/
def SameSlashes (is js : List (Item Byte)) : Prop :=
  ∃ x y z, is = x ++ y ∧ js = x ++ z ∧ .lit 47 ∉ y ∧ .lit 47 ∉ z

theorem SameSlashes.cons {is js : List (Item Byte)} (h : SameSlashes is js) (i : Item Byte) :
    SameSlashes (i :: is) (i :: js) := by
  obtain ⟨x, y, z, rfl, rfl, hy, hz⟩ := h
  exact ⟨i :: x, y, z, rfl, rfl, hy, hz⟩

theorem SameSlashes.of_notMem {is js : List (Item Byte)} (hi : .lit 47 ∉ is) (hj : .lit 47 ∉ js) :
    SameSlashes is js := ⟨[], is, js, rfl, rfl, hi, hj⟩

/-- A pattern with `,v` behind it has its slashes at the same places. -/
theorem items_commaV (p : List Byte) : SameSlashes (items p) (items (p ++ commaV)) := by
  induction hn : p.length using Nat.strongRecOn generalizing p with
  | _ n ih =>
  rcases p with - | ⟨c, p⟩
  · rw [items_nil, List.nil_append, items_of_commaV]
    exact .of_notMem (by simp) (by simp)
  · have hp : p.length < n := by
      rw [← hn]
      exact Nat.lt_succ_self _
    rw [List.cons_append]
    by_cases h63 : c = 63
    · subst h63
      rw [items_any, items_any]
      exact (ih _ hp p rfl).cons _
    by_cases h42 : c = 42
    · subst h42
      rw [items_star, items_star, stars_append (by decide)]
      exact (ih _ (Nat.lt_of_le_of_lt (stars_le p) hp) _ rfl).cons _
    by_cases h91 : c = 91
    · subst h91
      rw [items_bracket, items_bracket]
      rcases hb : bracket p with - | q
      · rw [bracket_append_none (by decide) hb]
        exact .of_notMem (by simp) (by simp)
      · obtain ⟨happ, hin⟩ := bracket_append hb commaV
        rw [happ, hin]
        exact (ih _ (Nat.lt_of_le_of_lt (bracket_le hb) hp) q rfl).cons _
    · rw [items_plain ⟨h63, h42, h91⟩, items_plain ⟨h63, h42, h91⟩]
      by_cases h92 : c = 92
      · subst h92
        rcases p with - | ⟨d, p⟩
        · -- the comma is escaped
          show SameSlashes (.lit 92 :: items []) (.lit 44 :: items [118])
          rw [items_nil, items_v]
          exact .of_notMem (by simp) (by simp)
        · exact (ih _ (Nat.lt_of_succ_lt hp) p rfl).cons _
      · have hlit (t : List Byte) : literal (pathFlags true true) c t = (c, t) := if_neg fun h => h92 h.1
        rw [hlit, hlit]
        exact (ih _ hp p rfl).cons _

theorem SameSlashes.seps {is js : List (Item Byte)} (h : SameSlashes is js) :
    seps 47 is = seps 47 js := by
  obtain ⟨x, y, z, rfl, rfl, hy, hz⟩ := h
  have hzero {y : List (Item Byte)} (hy : .lit 47 ∉ y) :
      y.countP (fun i => i.takes 47 47) = 0 := by
    rw [List.countP_eq_zero]
    intro i hi htake
    exact hy (takes_sep.mp htake ▸ hi)
  rw [Glob.seps, Glob.seps, List.countP_append, List.countP_append, hzero hy, hzero hz]

/-- The part in front of a slash is in both. -/
theorem SameSlashes.part {is js q₁ q₂ : List (Item Byte)} (h : SameSlashes is js)
    (hj : js = q₁ ++ .lit 47 :: q₂) : ∃ q₂, is = q₁ ++ .lit 47 :: q₂ := by
  obtain ⟨x, y, z, rfl, rfl, -, hz⟩ := h
  rcases List.append_eq_append_iff.mp hj with ⟨t, rfl, ht⟩ | ⟨t, rfl, ht⟩
  · exact absurd (by simp [ht]) hz
  · rcases t with - | ⟨i, t⟩
    · rw [List.nil_append] at ht
      exact absurd (ht ▸ List.mem_cons_self ..) hz
    · obtain ⟨rfl, -⟩ := List.cons.inj ht
      exact ⟨t ++ y, by simp⟩

end Csup.Globtree
