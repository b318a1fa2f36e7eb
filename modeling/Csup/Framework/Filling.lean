import Csup.Framework.Nesting
import Csup.Framework.TreeWalk
import Mathlib.Data.List.Chain
import Mathlib.Order.Lattice

/-!
# Walks between marks

Marks that are sorted but leave out nodes that are opened and closed: between one mark and the
next one is the walk from the node that is open behind the one to the node that is open in
front of the other (`filled`).

* `nested_filled`: the result is nested;
* `Ranks.pairwise_filled`: it is sorted when the marks are, and no leaf is above another mark.
-/

namespace Csup.Framework

variable {α : Type*}

def Move.mark : Move α → Mark α
  | .down d => .down d
  | .up d => .up d

/-- The innermost node that is open in front of a mark. -/
def Mark.before : Mark α → List α
  | .down d | .leaf d => d.dropLast
  | .up d => d

/-- The innermost node that is open behind a mark. -/
def Mark.after : Mark α → List α
  | .down d => d
  | .leaf d | .up d => d.dropLast

/-- The node that is open behind marks. -/
def openAfter : List α → List (Mark α) → List α
  | d, [] => d
  | _, m :: ms => openAfter m.after ms

/-- A node is opened where it is not open, and is closed where it is. -/
def Mark.Fits (d : List α) : Mark α → Prop
  | .down e => ¬e <+: d
  | .leaf _ => True
  | .up e => e <+: d

/-- There is nothing to walk between the marks. -/
def InLine : List α → List (Mark α) → Prop
  | _, [] => True
  | d, m :: ms => m.before = d ∧ InLine m.after ms

/-- The move that a mark is. -/
def Mark.own : Mark α → List (Move α)
  | .down d => [.down d]
  | .leaf _ => []
  | .up d => [.up d]

section

variable {c d e s t u : List α} {m : Mark α} {ms : List (Mark α)}

theorem openAfter_concat : openAfter d (ms ++ [m]) = m.after := by
  induction ms generalizing d with
  | nil => rfl
  | cons x ms ih => exact ih

/-! ## Walks are nested -/

theorem not_concat_prefix (d : List α) (a : α) : ¬d ++ [a] <+: d := fun h => by
  have := h.length_le
  rw [List.length_append, List.length_singleton] at this
  omega

theorem nested_walk {ws : List (Move α)} (h : Walk d ws t) (hrest : Nested t ms) :
    Nested d (ws.map Move.mark ++ ms) := by
  induction h with
  | nil => exact hrest
  | down _ ih => exact .down (ih hrest)
  | up _ ih => exact .up (ih hrest)

/-- A mark between the nodes in front of it and behind it. -/
theorem nested_mark (hm : m.node ≠ []) (hrest : Nested m.after ms) : Nested m.before (m :: ms) := by
  obtain ⟨e, a, he⟩ := (List.eq_nil_or_concat' m.node).resolve_left hm
  cases m <;> obtain rfl := he <;>
    simp only [Mark.before, Mark.after, List.dropLast_concat] at hrest ⊢
  · exact .down hrest
  · exact .leaf hrest
  · exact .up hrest

/-- Between neighbours of a nested list there is nothing to walk. -/
theorem Nested.inLine (h : Nested d ms) : InLine d ms := by
  induction h with
  | nil => trivial
  | down _ ih | leaf _ ih | up _ ih => exact ⟨by simp [Mark.before], by simpa [Mark.after] using ih⟩

theorem inLine_append {ms' : List (Mark α)} :
    InLine d (ms ++ ms') ↔ InLine d ms ∧ InLine (openAfter d ms) ms' := by
  induction ms generalizing d with
  | nil => simp [InLine, openAfter]
  | cons m ms ih => simp [InLine, openAfter, ih, and_assoc]

/-- What is next fits. -/
theorem Mark.fits_of_before (hm : m.node ≠ []) (h : m.before = d) : m.Fits d := by
  subst h
  cases m with
  | leaf e => trivial
  | up e => exact List.prefix_refl e
  | down e =>
    obtain ⟨e, a, rfl⟩ := (List.eq_nil_or_concat' e).resolve_left hm
    rw [Mark.before, List.dropLast_concat]
    exact not_concat_prefix e a

/-! ## Where walks go -/

theorem mem_ups (h : Move.up u ∈ ups c s) : u <+: c ++ s.reverse := by
  induction s with
  | nil => simp [ups] at h
  | cons a s ih =>
    rcases List.mem_cons.mp h with h | h
    · obtain rfl := Move.up.inj h
      exact List.prefix_refl _
    · refine (ih h).trans ?_
      rw [List.reverse_cons, ← List.append_assoc]
      exact List.prefix_append _ _

theorem mem_downs (h : Move.down u ∈ downs c s) : c <+: u ∧ u ≠ c ∧ u <+: c ++ s := by
  induction s generalizing c with
  | nil => simp [downs] at h
  | cons a s ih =>
    have hfront : c ++ a :: s = c ++ [a] ++ s := by simp
    rw [hfront]
    rcases List.mem_cons.mp h with h | h
    · obtain rfl := Move.down.inj h
      exact ⟨List.prefix_append _ _, by simp, List.prefix_append _ _⟩
    · obtain ⟨hpre, -, hle⟩ := ih h
      refine ⟨(List.prefix_append _ _).trans hpre, ?_, hle⟩
      rintro rfl
      exact not_concat_prefix _ _ hpre

theorem down_notMem_ups (c s u : List α) : Move.down u ∉ ups c s := by
  induction s with
  | nil => simp [ups]
  | cons a s ih => simp [ups, ih]

theorem prefix_dropLast (h : e <+: d) (hne : e ≠ d) : e <+: d.dropLast := by
  rcases List.eq_nil_or_concat' d with rfl | ⟨d, a, rfl⟩
  · exact absurd (List.prefix_nil.mp h) hne
  · rw [List.dropLast_concat]
    exact (List.prefix_concat_iff.mp h).resolve_left hne

theorem of_prefix_dropLast (hd : d ≠ []) (h : e <+: d.dropLast) : e <+: d ∧ e ≠ d := by
  obtain ⟨d, a, rfl⟩ := (List.eq_nil_or_concat' d).resolve_left hd
  rw [List.dropLast_concat] at h
  refine ⟨h.trans (List.prefix_append _ _), ?_⟩
  rintro rfl
  exact not_concat_prefix _ _ h

theorem prefix_before (h : e <+: m.node) (hne : e ≠ m.node) : e <+: m.before := by
  cases m with
  | up d => exact h
  | down d | leaf d => exact prefix_dropLast h hne

theorem prefix_after (h : e <+: m.node) (hne : e ≠ m.node) : e <+: m.after := by
  cases m with
  | down d => exact h
  | up d | leaf d => exact prefix_dropLast h hne

end

/-! ## Ranks -/

/-- Marks are ranked, so that the inside of a node is between its marks, and only a leaf and
the mark that opens it may have the same rank. -/
structure Ranks {β : Type*} [LinearOrder β] (rank : Mark α → β) : Prop extends
    Nests fun x y => rank x < rank y where
  node : ∀ {x y}, rank x = rank y → x.node = y.node
  up : ∀ {x : Mark α} {d : List α}, rank x = rank (.up d) → x = .up d

section

variable {β : Type*} [LinearOrder β] {rank : Mark α → β} {x m : Mark α} {e f : List α}

/-- A node that is open behind a mark has been opened by it or before, and is closed later. -/
theorem Ranks.of_prefix_after (h : Ranks rank) (hx : x.node ≠ []) (hne : e ≠ [])
    (he : e <+: x.after) :
    rank (.down e) ≤ rank x ∧ rank x < rank (.up e) := by
  cases x with
  | down d =>
    by_cases hed : e = d
    · exact hed ▸ ⟨le_rfl, h.down_lt_up e⟩
    · exact ⟨(h.down_lt (m := .down d) hne he hed).le, h.lt_up (m := .down d) hne he hed⟩
  | up d | leaf d =>
    obtain ⟨hpre, hed⟩ := of_prefix_dropLast hx he
    exact ⟨(h.down_lt hne hpre hed).le, h.lt_up hne hpre hed⟩

/-- A node that is open in front of a mark has been opened, and is closed by it or later. -/
theorem Ranks.of_prefix_before (h : Ranks rank) (hm : m.node ≠ []) (hne : e ≠ [])
    (he : e <+: m.before) : rank (.down e) < rank m ∧ rank m ≤ rank (.up e) := by
  cases m with
  | up d =>
    by_cases hed : e = d
    · exact hed ▸ ⟨h.down_lt_up e, le_rfl⟩
    · exact ⟨h.down_lt (m := .up d) hne he hed, (h.lt_up (m := .up d) hne he hed).le⟩
  | down d | leaf d =>
    obtain ⟨hpre, hed⟩ := of_prefix_dropLast hm he
    exact ⟨h.down_lt hne hpre hed, (h.lt_up hne hpre hed).le⟩

/-- What is closed between two marks is closed in front of the second. -/
theorem Ranks.up_lt (h : Ranks rank) (hx : x.node ≠ []) (hlt : rank x < rank m) (hne : e ≠ [])
    (he : e <+: x.after) (hno : ¬e <+: m.before) : rank (.up e) < rank m := by
  rcases lt_trichotomy (rank m) (rank (.up e)) with hm | hm | hm
  · obtain ⟨hpre, hem⟩ := h.between hne ((h.of_prefix_after hx hne he).1.trans_lt hlt) hm
    exact absurd (prefix_before hpre hem) hno
  · obtain rfl := h.up hm
    exact absurd (List.prefix_refl e) hno
  · exact hm

/-- What is opened between two marks is opened behind the first, which is no leaf in its place. -/
theorem Ranks.lt_down (h : Ranks rank) (hm : m.node ≠ []) (hlt : rank x < rank m) (hne : e ≠ [])
    (he : e <+: m.before) (hno : ¬e <+: x.after) (hleaf : x ≠ .leaf e) :
    rank x < rank (.down e) := by
  rcases lt_trichotomy (rank x) (rank (.down e)) with hd | hd | hd
  · exact hd
  · have hnode := h.node hd
    cases x with
    | down d =>
      obtain rfl : d = e := hnode
      exact absurd (List.prefix_refl d) hno
    | leaf d => exact absurd (congrArg Mark.leaf hnode) hleaf
    | up d =>
      obtain rfl : d = e := hnode
      exact absurd (h.down_lt_up d) (by rw [hd]; exact lt_irrefl _)
  · obtain ⟨hpre, hex⟩ := h.between hne hd (hlt.trans_le (h.of_prefix_before hm hne he).2)
    exact absurd (prefix_after hpre hex) hno

/-- What is closed between two marks is closed in front of what is opened between them. -/
theorem Ranks.up_lt_down (h : Ranks rank) (hx : x.node ≠ []) (hne : e ≠ []) (he : e <+: x.after)
    (hno : ¬e <+: m.before) (hf : f <+: m.before) (hlt : rank x < rank (.down f)) :
    rank (.up e) < rank (.down f) := by
  rcases lt_trichotomy (rank (.down f)) (rank (.up e)) with hd | hd | hd
  · obtain ⟨hpre, -⟩ := h.between hne ((h.of_prefix_after hx hne he).1.trans_lt hlt) hd
    exact absurd (List.IsPrefix.trans hpre hf) hno
  · cases h.up hd
  · exact hd

/-- Between sorted marks, each fits that is closed behind the mark that opens it. -/
theorem Ranks.fits {pre post : List (Mark α)} (h : Ranks rank)
    (hs : (pre ++ m :: post).Pairwise fun x y => rank x < rank y)
    (hnode : ∀ x ∈ pre ++ m :: post, x.node ≠ [])
    (hopen : ∀ d, .up d ∈ pre ++ m :: post → .down d ∈ pre ++ m :: post) :
    m.Fits (openAfter [] pre) := by
  have hm := hnode m (by simp)
  obtain ⟨-, hpost, hlt⟩ := List.pairwise_append.mp hs
  rcases List.eq_nil_or_concat' pre with rfl | ⟨pre, x, rfl⟩
  · cases m with
    | leaf e => trivial
    | down e => exact fun hpre => hm (List.prefix_nil.mp hpre)
    | up e =>
      -- the mark that opens it is not behind it
      rcases List.mem_cons.mp (hopen e (.head _)) with heq | hmem
      · cases heq
      · exact absurd (List.rel_of_pairwise_cons hpost hmem) (lt_asymm (h.down_lt_up e))
  · have hx := hnode x (by simp)
    have hxm := hlt x (by simp) m (.head _)
    rw [openAfter_concat]
    cases m with
    | leaf e => trivial
    | down e => exact fun hpre => absurd hxm (not_lt.mpr (h.of_prefix_after hx hm hpre).1)
    | up e =>
      have hdown : .down e ∈ pre ++ [x] := by
        rcases List.mem_append.mp (hopen e (by simp)) with hmem | hmem
        · exact hmem
        · rcases List.mem_cons.mp hmem with heq | hmem
          · cases heq
          · exact absurd (List.rel_of_pairwise_cons hpost hmem) (lt_asymm (h.down_lt_up e))
      rcases List.mem_append.mp hdown with hmem | hmem
      · have hdx := (List.pairwise_append.mp (List.pairwise_append.mp hs).1).2.2 _ hmem x (.head _)
        obtain ⟨hpre, hne⟩ := h.between hm hdx hxm
        exact prefix_after hpre hne
      · obtain rfl := List.mem_singleton.mp hmem
        exact List.prefix_refl e

theorem Ranks.pairwise_ups (h : Ranks rank) (c s : List α) :
    ((ups c s).map Move.mark).Pairwise fun x y => rank x < rank y := by
  induction s with
  | nil => exact .nil
  | cons a s ih =>
    rw [ups, List.map_cons]
    refine .cons (fun y hy => ?_) ih
    obtain ⟨w, hw, rfl⟩ := List.mem_map.mp hy
    cases w with
    | down u => exact absurd hw (down_notMem_ups _ _ _)
    | up u =>
      obtain ⟨hpre, hu⟩ := up_mem_ups hw
      have hle := mem_ups hw
      have hne : u ≠ [] := fun h0 => hu (by rw [h0] at hpre ⊢; exact (List.prefix_nil.mp hpre).symm)
      rw [List.reverse_cons, ← List.append_assoc]
      refine h.lt_up hne (hle.trans (List.prefix_append _ _)) ?_
      rintro rfl
      exact not_concat_prefix _ _ hle

theorem Ranks.pairwise_downs (h : Ranks rank) (c s : List α) :
    ((downs c s).map Move.mark).Pairwise fun x y => rank x < rank y := by
  induction s generalizing c with
  | nil => exact .nil
  | cons a s ih =>
    rw [downs, List.map_cons]
    refine .cons (fun y hy => ?_) (ih _)
    obtain ⟨w, hw, rfl⟩ := List.mem_map.mp hy
    cases w with
    | up u => exact absurd hw (up_notMem_downs _ _ _)
    | down u =>
      obtain ⟨hpre, hu, -⟩ := mem_downs hw
      exact h.down_lt (by simp) hpre hu.symm

end

/-- No leaf is above another mark. -/
def LeavesLow (ms : List (Mark α)) : Prop :=
  ∀ e, .leaf e ∈ ms → ∀ m ∈ ms, e <+: m.node → m = .leaf e

theorem LeavesLow.not_prefix {ms : List (Mark α)} {m : Mark α} {e : List α} (h : LeavesLow ms)
    (he : .leaf e ∈ ms) (hm : m ∈ ms) (hlt : m ≠ .leaf e) : ¬e <+: m.before := by
  intro hpre
  refine hlt (h e he m hm ?_)
  cases m with
  | up d => exact hpre
  | down d | leaf d => exact List.IsPrefix.trans hpre (List.dropLast_prefix d)

/-! ## Walks between marks -/

variable [DecidableEq α]

/-- The marks of the walk from a node to a node. -/
def walkMarks (d t : List α) : List (Mark α) := (moves d t).map Move.mark

/-- The marks with the walks in front of them. -/
def filling : List α → List (Mark α) → List (Mark α)
  | _, [] => []
  | d, m :: ms => walkMarks d m.before ++ m :: filling m.after ms

/-- The marks with all the walks, until no node is open. -/
def filled (ms : List (Mark α)) : List (Mark α) := filling [] ms ++ walkMarks (openAfter [] ms) []

section

variable {d t : List α} {m : Mark α} {ms : List (Mark α)}

theorem filling_concat :
    filling d (ms ++ [m]) = filling d ms ++ (walkMarks (openAfter d ms) m.before ++ [m]) := by
  induction ms generalizing d with
  | nil => rfl
  | cons x ms ih =>
    rw [List.cons_append, filling, filling, ih, openAfter, List.append_assoc, List.cons_append]

theorem walkMarks_self (d : List α) : walkMarks d d = [] := by
  rw [walkMarks, moves_self]
  rfl

theorem nested_filling (hms : ∀ m ∈ ms, m.node ≠ []) :
    Nested d (filling d ms ++ walkMarks (openAfter d ms) []) := by
  induction ms generalizing d with
  | nil =>
    have := nested_walk (walk_moves d []) Nested.nil
    rwa [List.append_nil] at this
  | cons m ms ih =>
    obtain ⟨hm, hms⟩ := List.forall_mem_cons.mp hms
    rw [filling, openAfter, List.append_assoc, List.cons_append]
    exact nested_walk (walk_moves d m.before) (nested_mark hm (ih hms))

theorem nested_filled (hms : ∀ m ∈ ms, m.node ≠ []) : Nested [] (filled ms) := nested_filling hms

/-- A node that is not open is opened last. -/
theorem moves_concat_of_not_prefix {a : α} (h : ¬t ++ [a] <+: d) :
    moves d (t ++ [a]) = moves d t ++ [.down (t ++ [a])] := by
  have hle : common d (t ++ [a]) <+: t := by
    rcases List.prefix_concat_iff.mp (common_prefix_right d (t ++ [a])) with heq | hpre
    · exact absurd (heq ▸ common_prefix_left d (t ++ [a])) h
    · exact hpre
  have hcommon : common d (t ++ [a]) = common d t := by
    refine List.IsPrefix.eq_of_length_le (prefix_common (common_prefix_left _ _) hle)
      (List.IsPrefix.length_le ?_)
    exact prefix_common (common_prefix_left _ _)
      ((common_prefix_right d t).trans (List.prefix_append _ _))
  have hlen := (common_prefix_right d t).length_le
  have hdown (c s : List α) : downs c (s ++ [a]) = downs c s ++ [.down (c ++ s ++ [a])] := by
    induction s generalizing c with
    | nil => simp [downs]
    | cons b s ih => simp [downs, ih]
  rw [moves, moves, hcommon, List.drop_append_of_le_length hlen, hdown, ← List.append_assoc,
    common_append_drop_right]

/-- An open node is closed last. -/
theorem moves_eq_concat_of_prefix {a : α} (h : t ++ [a] <+: d) :
    moves d t = moves d (t ++ [a]) ++ [.up (t ++ [a])] := by
  obtain ⟨s, rfl⟩ := h
  have hups (s : List α) : ups t (s ++ [a]) = ups (t ++ [a]) s ++ [.up (t ++ [a])] := by
    induction s with
    | nil => rfl
    | cons b s ih => simp [ups, ih]
  rw [moves_above, List.append_assoc, moves_above, List.singleton_append, List.reverse_cons, hups]

/-- The walk to behind a mark is the one to in front of it, and the mark. -/
theorem moves_after (hm : m.node ≠ []) (h : m.Fits d) :
    moves d m.after = moves d m.before ++ m.own := by
  cases m with
  | leaf e => exact (List.append_nil _).symm
  | down e =>
    obtain ⟨e, a, rfl⟩ := (List.eq_nil_or_concat' e).resolve_left hm
    rw [Mark.before, List.dropLast_concat]
    exact moves_concat_of_not_prefix h
  | up e =>
    obtain ⟨e, a, rfl⟩ := (List.eq_nil_or_concat' e).resolve_left hm
    rw [Mark.after, List.dropLast_concat]
    exact moves_eq_concat_of_prefix h

/-- A walk closes nodes that are open at its beginning and not at its end, and opens nodes
that are open at its end and not at its beginning. -/
theorem mem_walkMarks {y : Mark α} (h : y ∈ walkMarks d t) :
    (∃ e, y = .up e ∧ e ≠ [] ∧ e <+: d ∧ ¬e <+: t) ∨
      ∃ e, y = .down e ∧ e ≠ [] ∧ e <+: t ∧ ¬e <+: d := by
  obtain ⟨w, hw, rfl⟩ := List.mem_map.mp h
  have hne {u : List α} (hpre : common d t <+: u) (hu : u ≠ common d t) : u ≠ [] := by
    rintro rfl
    exact hu (List.prefix_nil.mp hpre).symm
  have hno {u : List α} (hpre : common d t <+: u) (hu : u ≠ common d t) (hd : u <+: d)
      (ht : u <+: t) : False :=
    hu (List.IsPrefix.eq_of_length_le (prefix_common hd ht) hpre.length_le)
  rw [moves, List.mem_append] at hw
  cases w with
  | up u =>
    have hup := hw.resolve_right (up_notMem_downs _ _ _)
    obtain ⟨hpre, hu⟩ := up_mem_ups hup
    have hd := mem_ups hup
    rw [List.reverse_reverse, common_append_drop_left] at hd
    exact .inl ⟨u, rfl, hne hpre hu, hd, hno hpre hu hd⟩
  | down u =>
    obtain ⟨hpre, hu, ht⟩ := mem_downs (hw.resolve_left (down_notMem_ups _ _ _))
    rw [common_append_drop_right] at ht
    exact .inr ⟨u, rfl, hne hpre hu, ht, fun hd => hno hpre hu hd ht⟩

theorem node_walkMarks {y : Mark α} (h : y ∈ walkMarks d t) : y.node ≠ [] := by
  rcases mem_walkMarks h with ⟨e, rfl, hne, -⟩ | ⟨e, rfl, hne, -⟩ <;> exact hne

/-- What is filled in is above the marks. -/
theorem mem_filling {y : Mark α} (h : y ∈ filling d ms ++ walkMarks (openAfter d ms) []) :
    y.node <+: d ∨ ∃ m ∈ ms, y.node <+: m.node := by
  induction ms generalizing d with
  | nil =>
    rw [filling, openAfter, List.nil_append] at h
    rcases mem_walkMarks h with ⟨e, rfl, -, he, -⟩ | ⟨e, rfl, hne, he, -⟩
    · exact .inl he
    · exact absurd (List.prefix_nil.mp he) hne
  | cons m ms ih =>
    have hbefore : m.before <+: m.node := by
      cases m with
      | up e => exact List.prefix_refl e
      | down e | leaf e => exact List.dropLast_prefix e
    have hafter : m.after <+: m.node := by
      cases m with
      | down e => exact List.prefix_refl e
      | up e | leaf e => exact List.dropLast_prefix e
    rw [filling, openAfter, List.append_assoc, List.cons_append, List.mem_append,
      List.mem_cons] at h
    rcases h with h | rfl | h
    · rcases mem_walkMarks h with ⟨e, rfl, -, he, -⟩ | ⟨e, rfl, -, he, -⟩
      · exact .inl he
      · exact .inr ⟨m, .head _, List.IsPrefix.trans he hbefore⟩
    · exact .inr ⟨_, .head _, List.prefix_refl _⟩
    · rcases ih h with hpre | ⟨x, hx, hpre⟩
      · exact .inr ⟨m, .head _, hpre.trans hafter⟩
      · exact .inr ⟨x, .tail _ hx, hpre⟩

theorem mem_filled {y : Mark α} (hne : y.node ≠ []) (h : y ∈ filled ms) :
    ∃ m ∈ ms, y.node <+: m.node :=
  (mem_filling h).resolve_left fun hpre => hne (List.prefix_nil.mp hpre)

end

/-! ## Sorted marks -/

section

variable {β : Type*} [LinearOrder β] {rank : Mark α → β} {x m : Mark α} {ms : List (Mark α)}

/-- A mark and the walk to the next one. -/
theorem Ranks.pairwise_walk (h : Ranks rank) (hx : x.node ≠ []) (hm : m.node ≠ [])
    (hlt : rank x < rank m) (hleaf : ∀ e, x = .leaf e → ¬e <+: m.before) :
    (x :: walkMarks x.after m.before).Pairwise (fun x y => rank x < rank y) ∧
      ∀ y ∈ x :: walkMarks x.after m.before, rank y < rank m := by
  have hdown {e : List α} (hne : e ≠ []) (he : e <+: m.before) (hno : ¬e <+: x.after) :
      rank x < rank (.down e) := h.lt_down hm hlt hne he hno fun heq => hleaf e heq he
  refine ⟨.cons (fun y hy => ?_) ?_, List.forall_mem_cons.mpr ⟨hlt, fun y hy => ?_⟩⟩
  · rcases mem_walkMarks hy with ⟨e, rfl, hne, he, hno⟩ | ⟨e, rfl, hne, he, hno⟩
    · exact (h.of_prefix_after hx hne he).2
    · exact hdown hne he hno
  · rw [walkMarks, moves, List.map_append, List.pairwise_append]
    refine ⟨h.pairwise_ups _ _, h.pairwise_downs _ _, fun y hy z hz => ?_⟩
    have hwalk {w : Mark α} (hw : w ∈ (ups (common x.after m.before)
        (x.after.drop (common x.after m.before).length).reverse).map Move.mark ++
        (downs (common x.after m.before)
          (m.before.drop (common x.after m.before).length)).map Move.mark) :
        w ∈ walkMarks x.after m.before := by
      rwa [walkMarks, moves, List.map_append]
    rcases mem_walkMarks (hwalk (List.mem_append_left _ hy)) with
      ⟨e, rfl, hne, he, hno⟩ | ⟨e, rfl, -⟩
    · rcases mem_walkMarks (hwalk (List.mem_append_right _ hz)) with
        ⟨f, rfl, -⟩ | ⟨f, rfl, hne', hf, hno'⟩
      · obtain ⟨w, hw, heq⟩ := List.mem_map.mp hz
        cases w with
        | up u => exact absurd hw (up_notMem_downs _ _ _)
        | down u => cases heq
      · exact h.up_lt_down hx hne he hno hf (hdown hne' hf hno')
    · obtain ⟨w, hw, heq⟩ := List.mem_map.mp hy
      cases w with
      | up u => cases heq
      | down u => exact absurd hw (down_notMem_ups _ _ _)
  · rcases mem_walkMarks hy with ⟨e, rfl, hne, he, hno⟩ | ⟨e, rfl, hne, he, hno⟩
    · exact h.up_lt hx hlt hne he hno
    · exact (h.of_prefix_before hm hne he).1

/-- A mark, and all the walks and marks behind it. -/
theorem Ranks.pairwise_filling (h : Ranks rank)
    (hs : (x :: ms).Pairwise fun x y => rank x < rank y) (hnode : ∀ m ∈ x :: ms, m.node ≠ [])
    (hlow : LeavesLow (x :: ms)) :
    (x :: (filling x.after ms ++ walkMarks (openAfter x.after ms) [])).Pairwise
      fun x y => rank x < rank y := by
  induction ms generalizing x with
  | nil =>
    have hx := hnode x (.head _)
    refine .cons (fun y hy => ?_) ?_
    · rcases mem_walkMarks hy with ⟨e, rfl, hne, he, -⟩ | ⟨e, rfl, hne, he, -⟩
      · exact (h.of_prefix_after hx hne he).2
      · exact absurd (List.prefix_nil.mp he) hne
    · have hwalk : moves x.after ([] : List α) = ups [] x.after.reverse := moves_above [] x.after
      rw [filling, openAfter, List.nil_append, walkMarks, hwalk]
      exact h.pairwise_ups _ _
  | cons m ms ih =>
    obtain ⟨hx, hs⟩ := List.pairwise_cons.mp hs
    obtain ⟨hxne, hnode⟩ := List.forall_mem_cons.mp hnode
    have hlt := hx m (.head _)
    have hrest := ih hs hnode fun e he y hy => hlow e (.tail _ he) y (.tail _ hy)
    obtain ⟨hwalk, hbelow⟩ := h.pairwise_walk hxne (hnode m (.head _)) hlt fun e heq => by
      subst heq
      refine hlow.not_prefix (.head _) (.tail _ (.head _)) ?_
      rintro rfl
      exact lt_irrefl _ hlt
    rw [filling, openAfter, List.append_assoc, List.cons_append, ← List.cons_append,
      List.pairwise_append]
    refine ⟨hwalk, hrest, fun y hy z hz => ?_⟩
    rcases List.mem_cons.mp hz with rfl | hz
    · exact hbelow y hy
    · exact (hbelow y hy).trans (List.rel_of_pairwise_cons hrest hz)

theorem Ranks.pairwise_filled (h : Ranks rank) (hs : ms.Pairwise fun x y => rank x < rank y)
    (hnode : ∀ m ∈ ms, m.node ≠ []) (hlow : LeavesLow ms) :
    (filled ms).Pairwise fun x y => rank x < rank y := by
  cases ms with
  | nil =>
    rw [filled, filling, openAfter, walkMarks_self]
    exact .nil
  | cons m ms =>
    have hrest := h.pairwise_filling hs hnode hlow
    have hm := hnode m (.head _)
    have hdowns : moves [] m.before = downs [] m.before := moves_below [] m.before
    rw [filled, filling, openAfter, List.append_assoc, List.cons_append, List.pairwise_append]
    refine ⟨?_, hrest, fun y hy z hz => ?_⟩
    · rw [walkMarks, hdowns]
      exact h.pairwise_downs _ _
    · have hlt : rank y < rank m := by
        rcases mem_walkMarks hy with ⟨e, rfl, hne, he, -⟩ | ⟨e, rfl, hne, he, -⟩
        · exact absurd (List.prefix_nil.mp he) hne
        · exact (h.of_prefix_before hm hne he).1
      rcases List.mem_cons.mp hz with rfl | hz
      · exact hlt
      · exact hlt.trans (List.rel_of_pairwise_cons hrest hz)

end

end Csup.Framework
