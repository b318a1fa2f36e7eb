import Csup.Misc.Path
import Csup.Status.Order

/-!
# The order of records and the tree

A record is about the path that its name is (`PathRec`). Where no name has a byte 1 the
records are in the order of their ranks, and the rank of a path is made of those of its
components (`pathRank_lt_iff`).

`cmp_tree`: the comparison is an order, the records in a directory lie between the one
that opens it and the one that closes it, and the records that close none compare as the
lists of their components do.
-/

namespace Csup.Status

/-! ## Records with paths -/

/-- A record and its path, which has no byte 1 in it. -/
structure PathRec extends StatusRec where
  path : List Component
  path_ne : path ≠ []
  file_eq : file = joinPath path
  plain : ∀ c ∈ path, (1 : Byte) ∉ c.val

/-- The path, and whether the record closes a directory. -/
def PathRec.key (a : PathRec) : List Component × Bool := (a.path, decide (a.type = .dirup))

def cmp (a b : PathRec) : Int := statusrecCmp a.toStatusRec b.toStatusRec

/-- The bytes of a component as signed characters, and 0 for its end. -/
def componentRank (c : Component) : List Int := c.val.map schar ++ [0]

theorem one_notMem_joinPath {p : List Component} (h : ∀ c ∈ p, (1 : Byte) ∉ c.val) :
    (1 : Byte) ∉ joinPath p := by
  have hs (cs : List Component) (hcs : ∀ c ∈ cs, (1 : Byte) ∉ c.val) :
      (1 : Byte) ∉ slashed cs := by
    simp only [slashed, List.mem_flatMap, List.mem_cons, not_exists, not_and, not_or]
    exact fun c hc => ⟨by decide, hcs c hc⟩
  rcases p with - | ⟨c, cs⟩
  · exact List.not_mem_nil
  · have hcs := hs cs fun d hd => h d (by simp [hd])
    exact fun hmem => (List.mem_append.mp hmem).elim (h c (by simp)) hcs

section

variable (a b : PathRec)

theorem PathRec.zero_notMem : 0 ∉ a.file := a.file_eq ▸ zero_notMem_joinPath a.path

theorem PathRec.one_notMem : 1 ∉ a.file := a.file_eq ▸ one_notMem_joinPath a.plain

theorem PathRec.apart : Apart a.file b.file := apart_of_notMem a.one_notMem b.one_notMem

theorem cmp_lt_iff : cmp a b < 0 ↔ rank a.toStatusRec < rank b.toStatusRec :=
  statusrecCmp_lt_iff (a.apart b) a.zero_notMem b.zero_notMem

theorem file_eq_iff : a.file = b.file ↔ a.path = b.path := by
  rw [a.file_eq, b.file_eq]
  exact ⟨joinPath_injective a.path_ne b.path_ne, congrArg joinPath⟩

theorem cmp_eq_iff : cmp a b = 0 ↔ a.path = b.path ∧ a.type ≠ .dirup ∧ b.type ≠ .dirup := by
  rw [← file_eq_iff]
  exact statusrecCmp_eq_iff (a.apart b) a.zero_notMem b.zero_notMem

end

/-! ## An order -/

/-- Two records with different keys do not close each other. -/
theorem not_covers {a b : PathRec} (h : a.key ≠ b.key) (hab : Covers a.toStatusRec b.toStatusRec) :
    ¬Covers b.toStatusRec a.toStatusRec := by
  rintro ⟨hb, hlen, -⟩
  obtain ⟨ha, hlen', hfile⟩ := hab
  have heq : a.file.length = b.file.length := by omega
  rw [heq, List.take_length] at hfile
  exact h (by simp [PathRec.key, ha, hb, (file_eq_iff a b).mp hfile])

/-- Of two records with different keys one is less, and the other is greater. -/
theorem cmp_antisymm {a b : PathRec} (h : a.key ≠ b.key) :
    cmp a b < 0 ∧ 0 < cmp b a ∨ 0 < cmp a b ∧ cmp b a < 0 := by
  have hne : cmp a b ≠ 0 := fun h0 => by
    obtain ⟨hpath, ha, hb⟩ := (cmp_eq_iff a b).mp h0
    exact h (by simp [PathRec.key, hpath, ha, hb])
  have hnot := not_covers h
  unfold cmp at hne ⊢
  rw [statusrecCmp_eq, pathcmp_swap] at hne ⊢
  rw [statusrecCmp_eq]
  split_ifs at hne ⊢ with hab hba <;> first | omega | exact absurd hba (hnot hab)

theorem cmp_trans {a b c : PathRec} (hab : cmp a b < 0) (hbc : cmp b c < 0) : cmp a c < 0 := by
  rw [cmp_lt_iff] at hab hbc ⊢
  exact List.lt_trans hab hbc

/-! ## Paths -/

/-- The rank of a path, and what is behind a component in it. -/
def pathRank (p : List Component) : List Int := (joinPath p).map byteRank ++ [0]

def restRank (cs : List Component) : List Int := (slashed cs).map byteRank ++ [0]

theorem pathRank_cons (c : Component) (cs : List Component) :
    pathRank (c :: cs) = c.val.map byteRank ++ restRank cs := by
  simp [pathRank, restRank, joinPath]

theorem restRank_cons (c : Component) (cs : List Component) :
    restRank (c :: cs) = 1 :: pathRank (c :: cs) := by
  simp [restRank, slashed_cons, pathRank, joinPath, byteRank]

/-- A component ends with a slash or with its path. -/
theorem restRank_head (cs : List Component) : ∃ e l, restRank cs = e :: l ∧ (e = 0 ∨ e = 1) := by
  cases cs with
  | nil => exact ⟨0, [], rfl, .inl rfl⟩
  | cons c cs => exact ⟨1, _, restRank_cons c cs, .inr rfl⟩

/-- The rank of a byte of a component. -/
theorem byteRank_component {c : Component} (h1 : 1 ∉ c.val) {x : Byte} (hx : x ∈ c.val) :
    byteRank x = 4 * schar x ∧ schar x ≠ 0 := by
  have hslash : x ≠ 47 := fun h => c.no_slash (h ▸ hx)
  have hone : x ≠ 1 := fun h => h1 (h ▸ hx)
  have hzero : x ≠ 0 := fun h => c.no_nul (h ▸ hx)
  exact ⟨by rw [byteRank, if_neg hslash, if_neg hone], fun h => hzero ((schar_eq x).1.mp h)⟩

theorem componentRank_injective {c d : Component} (h : componentRank c = componentRank d) :
    c = d := by
  have hmap : c.val.map schar = d.val.map schar := List.append_cancel_right h
  exact Component.val_inj.mp (List.map_injective_iff.mpr (fun _ _ => schar_inj) hmap)

/-- Two components that differ, whatever is behind them. -/
theorem component_lt_iff {c d : Component} (hc : 1 ∉ c.val) (hd : 1 ∉ d.val) (hne : c ≠ d)
    {e f : Int} (he : e = 0 ∨ e = 1) (hf : f = 0 ∨ f = 1) (l m : List Int) :
    c.val.map byteRank ++ e :: l < d.val.map byteRank ++ f :: m ↔
      componentRank c < componentRank d := by
  unfold componentRank
  have hcmp := compared c.val d.val
  generalize hs : c.val = s at hcmp
  generalize ht : d.val = t at hcmp
  cases hcmp with
  | same => exact absurd (Component.val_inj.mp (hs.trans ht.symm)) hne
  | below _ x t =>
    -- the end of the first against a byte of the second
    obtain ⟨hx, hx0⟩ := byteRank_component hd (x := x) (by simp [ht])
    rw [below_lt_iff (by omega), below_lt_iff hx0.symm]
    omega
  | above _ x t =>
    obtain ⟨hx, hx0⟩ := byteRank_component hc (x := x) (by simp [hs])
    rw [above_lt_iff (by omega), above_lt_iff hx0]
    omega
  | @differ w x y s t h =>
    obtain ⟨hx, -⟩ := byteRank_component hc (x := x) (by simp [hs])
    obtain ⟨hy, -⟩ := byteRank_component hd (x := y) (by simp [ht])
    have hxy : schar x ≠ schar y := fun heq => h (schar_inj heq)
    rw [differ_lt_iff (by omega), differ_lt_iff hxy]
    omega

/-- Paths are in the order of the lists of their components. -/
theorem pathRank_lt_iff {p q : List Component} (hp : ∀ c ∈ p, (1 : Byte) ∉ c.val)
    (hq : ∀ c ∈ q, (1 : Byte) ∉ c.val) (hp0 : p ≠ []) (hq0 : q ≠ []) :
    pathRank p < pathRank q ↔ p.map componentRank < q.map componentRank := by
  induction p generalizing q with
  | nil => exact absurd rfl hp0
  | cons c p ih =>
    obtain ⟨d, q, rfl⟩ := List.exists_cons_of_ne_nil hq0
    rw [pathRank_cons, pathRank_cons, List.map_cons, List.map_cons, List.cons_lt_cons_iff]
    by_cases hcd : c = d
    · subst hcd
      rw [append_lt_iff]
      simp only [List.lt_irrefl, false_or, true_and]
      rcases p with - | ⟨c', p⟩ <;> rcases q with - | ⟨d', q⟩
      · simp [restRank]
      · rw [restRank_cons]
        exact iff_of_true ((cons_lt_iff (by decide) _ _).mpr (by decide)) (List.nil_lt_cons _ _)
      · rw [restRank_cons]
        refine iff_of_false (fun h => ?_) (List.not_lt_nil _)
        exact absurd ((cons_lt_iff (by decide) _ _).mp h) (by decide)
      · rw [restRank_cons, restRank_cons, List.cons_lt_cons_iff]
        simpa using ih (fun c h => hp c (by simp [h])) (fun c h => hq c (by simp [h]))
          (List.cons_ne_nil _ _) (List.cons_ne_nil _ _)
    · obtain ⟨e, l, he, he01⟩ := restRank_head p
      obtain ⟨f, m, hf, hf01⟩ := restRank_head q
      have hrank : componentRank c ≠ componentRank d := fun h => hcd (componentRank_injective h)
      simp only [hrank, false_and, or_false]
      rw [he, hf]
      exact component_lt_iff (hp c (by simp)) (hq d (by simp)) hcd he01 hf01 l m

theorem rank_eq (a : PathRec) (h : a.type ≠ .dirup) : rank a.toStatusRec = pathRank a.path := by
  rw [rank, endRank, if_neg h, pathRank, a.file_eq]

/-! ## Directories -/

/-- The rank of a byte of a name. -/
theorem byteRank_name {c : Byte} (h0 : c ≠ 0) (h1 : c ≠ 1) :
    c = 47 ∧ byteRank c = 1 ∨ c ≠ 47 ∧ byteRank c = 4 * schar c ∧ schar c ≠ 0 := by
  unfold byteRank
  by_cases hc : c = 47
  · exact .inl ⟨hc, if_pos hc⟩
  · exact .inr ⟨hc, by rw [if_neg hc, if_neg h1], fun h => h0 ((schar_eq c).1.mp h)⟩

/-- The records in a directory are those between the two of the directory. -/
theorem between_iff {d u r : PathRec} (hd : d.type = .dirdown) (hu : u.type = .dirup)
    (hdu : d.path = u.path) :
    cmp d r < 0 ∧ cmp r u < 0 ↔ d.path <+: r.path ∧ d.path ≠ r.path := by
  have hfile : u.file = d.file := (file_eq_iff u d).mpr hdu.symm
  have hed : endRank d.toStatusRec = 0 := if_neg (by simp [hd])
  have heu : endRank u.toStatusRec = 2 := if_pos hu
  have hr := endRank_cases r.toStatusRec
  have hname (a : PathRec) {c : Byte} (hc : c ∈ a.file) :=
    byteRank_name (ne_of_mem_of_not_mem hc a.zero_notMem) (ne_of_mem_of_not_mem hc a.one_notMem)
  have hcmp := compared d.file r.file
  rw [cmp_lt_iff, cmp_lt_iff, rank, rank, rank, hfile, hed, heu]
  constructor
  · rintro ⟨hlt, hgt⟩
    generalize hs : d.file = s at hcmp hlt hgt
    generalize ht : r.file = t at hcmp hlt hgt
    cases hcmp with
    | same =>
      rw [append_lt_iff, List.cons_lt_cons_iff] at hlt hgt
      simp only [List.lt_irrefl, and_false, or_false] at hlt hgt
      omega
    | below _ c t =>
      have hc := hname r (c := c) (by simp [ht])
      rw [below_lt_iff (by omega)] at hlt
      rw [above_lt_iff (by omega)] at hgt
      rcases hc with ⟨rfl, -⟩ | ⟨-, hc⟩
      · refine prefix_of_joinPath (r := t) d.path_ne ?_
        rw [← r.file_eq, ← d.file_eq, hs, ht]
      · omega
    | above _ c t =>
      have hc := hname d (c := c) (by simp [hs])
      rw [above_lt_iff (by omega)] at hlt
      rw [below_lt_iff (by omega)] at hgt
      omega
    | @differ w x y s t h =>
      have hx := hname d (c := x) (by simp [hs])
      have hy := hname r (c := y) (by simp [ht])
      have hxy : schar x ≠ schar y := fun heq => h (schar_inj heq)
      have hrank : byteRank x ≠ byteRank y := by
        rcases hx with ⟨hx, hx'⟩ | ⟨-, hx⟩ <;> rcases hy with ⟨hy, hy'⟩ | ⟨-, hy⟩
        · exact absurd (hx.trans hy.symm) h
        all_goals omega
      rw [differ_lt_iff hrank] at hlt
      rw [differ_lt_iff hrank.symm] at hgt
      omega
  · rintro ⟨hpre, hne⟩
    obtain ⟨t, ht⟩ := joinPath_below hpre d.path_ne hne
    rw [← r.file_eq, ← d.file_eq] at ht
    rw [ht, below_lt_iff (by decide), above_lt_iff (by decide)]
    decide

/-- `statusrec_cmp` fits the tree: records with different keys are in an order; a record is
between the two of a directory just when it is in the directory; and records that close
none compare as the lists of their components. -/
theorem cmp_tree :
    (∀ a b : PathRec, a.key ≠ b.key →
      cmp a b < 0 ∧ 0 < cmp b a ∨ 0 < cmp a b ∧ cmp b a < 0) ∧
    (∀ a b c : PathRec, a.key ≠ b.key → b.key ≠ c.key → a.key ≠ c.key →
      cmp a b < 0 → cmp b c < 0 → cmp a c < 0) ∧
    (∀ d u r : PathRec, d.type = .dirdown → u.type = .dirup → d.path = u.path →
      (cmp d r < 0 ∧ cmp r u < 0 ↔ ∃ e, e ≠ [] ∧ r.path = d.path ++ e)) ∧
    ∀ a b : PathRec, a.type ≠ .dirup → b.type ≠ .dirup →
      (cmp a b < 0 ↔ a.path.map componentRank < b.path.map componentRank) ∧
      (cmp a b = 0 ↔ a.path = b.path) := by
  refine ⟨fun a b => cmp_antisymm, fun a b c _ _ _ => cmp_trans, fun d u r hd hu hdu => ?_,
    fun a b ha hb => ⟨?_, ?_⟩⟩
  · rw [between_iff hd hu hdu]
    constructor
    · rintro ⟨⟨e, he⟩, hne⟩
      exact ⟨e, fun h0 => hne (by rw [← he, h0, List.append_nil]), he.symm⟩
    · rintro ⟨e, he, hr⟩
      exact ⟨⟨e, hr.symm⟩, fun h => he (by simpa [hr] using h)⟩
  · rw [cmp_lt_iff, rank_eq a ha, rank_eq b hb]
    exact pathRank_lt_iff a.plain b.plain a.path_ne b.path_ne
  · rw [cmp_eq_iff]
    exact ⟨And.left, fun h => ⟨h, ha, hb⟩⟩

/-- A record with no more in it than its path. -/
def pathRec (type : SrType) (p : List Component) (hp : p ≠ [])
    (h1 : ∀ c ∈ p, (1 : Byte) ∉ c.val) : PathRec where
  toStatusRec := rawRec type (joinPath p)
  path := p
  path_ne := hp
  file_eq := rfl
  plain := h1

def nameX : Component := ⟨[120], by decide, by decide, by decide⟩

def nameY : Component := ⟨[121], by decide, by decide, by decide⟩

/-- The directory `x`, its file `x/y`, and the file `y` behind it. -/
theorem cmp_tree_letters :
    let d := pathRec .dirdown [nameX] (by decide) (by decide)
    let u := pathRec .dirup [nameX] (by decide) (by decide)
    let r := pathRec .checkoutlive [nameX, nameY] (by decide) (by decide)
    let s := pathRec .filelive [nameY] (by decide) (by decide)
    (0 < cmp u r ∧ cmp r u < 0) ∧ cmp d s < 0 ∧ (cmp d r < 0 ∧ cmp r u < 0) ∧
      r.path.map componentRank < s.path.map componentRank := by
  intro d u r s
  obtain ⟨hanti, htrans, hdir, hfile⟩ := cmp_tree
  have hdr : cmp d r < 0 := by decide
  have hrs : cmp r s < 0 := by decide
  refine ⟨?_, ?_, ?_, ?_⟩
  · exact (hanti u r (by decide)).resolve_left fun h => absurd h.1 (by decide)
  · exact htrans d r s (by decide) (by decide) (by decide) hdr hrs
  · exact (hdir d u r rfl rfl rfl).mpr ⟨[nameY], by decide, rfl⟩
  · exact (hfile r s (by decide) (by decide)).1.mp hrs

end Csup.Status
