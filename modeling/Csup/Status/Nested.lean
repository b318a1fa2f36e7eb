import Csup.Framework.Nesting
import Csup.Status.Cooked
import Csup.Status.Get
import Csup.Status.Order

/-!
# Directories in a status file

`status_rdraw` checks that each record is greater than the one before it, and counts the
directories that are open. A file that it reads to the end is nested when, besides, the
names are paths, each directory is opened and closed somewhere, and `pathcmp` does not
take a slash for the byte 1 between two records.

* `nests_markRank`: the order of the records has the inside of a directory between its
  records;
* `Nested.inStep`: nested records are copied without a failed assertion;
* `nestedFile_iff`: when a file that is read is nested.
-/

namespace Csup.Status

open Csup.Framework
open Csup.Pathcomp (AtRest pathcompNew)

/-! ## What is read -/

/-- The records that `status_rdraw` returns, one after the other, and the status behind. -/
def rdrawLoop : Nat → State → List StatusRec × State
  | 0, st => ([], st)
  | turns + 1, st =>
    match statusRdraw st with
    | (st, none) => ([], st)
    | (st, some (sr, _)) =>
      let (srs, st) := rdrawLoop turns st
      (sr :: srs, st)

/-- The mark of a record. -/
def Marks (sr : StatusRec) : Mark Component → Prop
  | .down path => sr.type = .dirdown ∧ sr.file = joinPath path
  | .leaf path => (sr.type ≠ .dirdown ∧ sr.type ≠ .dirup) ∧ sr.file = joinPath path
  | .up path => sr.type = .dirup ∧ sr.file = joinPath path

/-- The path compressor is in sync while the records are copied. -/
def InStep (pc : Pathcomp.State) : List StatusRec → Prop
  | [] => True
  | sr :: srs => ∃ events pc', putRecord pc sr = .ok (events, pc') ∧ inSync sr events = true ∧
      InStep pc' srs

/-- Directories are opened directly below the innermost open one, files are in it, and it
is the one that is closed; the records can be copied. -/
def NestedFile (goal : Nat) (recs : List StatusRec) : Prop :=
  (∃ ms, List.Forall₂ Marks recs ms ∧ Nested [] ms) ∧ InStep (pathcompNew goal) recs

theorem rdrawLoop_sorted {turns : Nat} {st st' : State} {recs : List StatusRec}
    (h : rdrawLoop turns st = (recs, st')) :
    (∀ sr ∈ recs, 0 ∉ sr.file) ∧ (st.previous.toList ++ recs).IsChain (statusrecCmp · · < 0) := by
  induction turns generalizing st recs with
  | zero =>
    obtain ⟨rfl, rfl⟩ := Prod.mk.inj h
    cases st.previous <;> simp
  | succ turns ih =>
    rw [rdrawLoop] at h
    split at h
    · cases h
      cases st.previous <;> simp
    · next st₁ sr l hraw =>
      rcases hrest : rdrawLoop turns st₁ with ⟨srs, s⟩
      rw [hrest] at h
      cases h
      obtain ⟨rd, hrd, hline, hsr, ht⟩ := statusRdraw_some hraw
      obtain ⟨h0, hchain⟩ := ih hrest
      have hprev : st₁.previous = some sr := by
        have hne : rd ≠ [] := by
          rintro rfl
          rw [statusRdraw, hrd] at hraw
          simp only [ht.eof, streamGetln, if_true, Bool.false_eq_true, if_false] at hraw
          split at hraw <;> cases hraw
        have := hraw.symm.trans (statusRdraw_of hrd hne hline (hsr ▸ ht))
        rw [(Prod.mk.inj this).1]
        exact congrArg some hsr.symm
      rw [hprev] at hchain
      refine ⟨List.forall_mem_cons.mpr ⟨zero_notMem_file hline, h0⟩, ?_⟩
      have hsorted := ht.sorted
      rcases hp : st.previous with - | p
      · exact hchain
      · rw [hp] at hsorted
        exact .cons_cons (by simpa using hsorted) hchain

/-! ## The order of the marks -/

def markEnd : Mark Component → Int
  | .up _ => 2
  | _ => 0

/-- The rank of the record of a mark. -/
def markRank (m : Mark Component) : List Int := (joinPath m.node).map byteRank ++ [markEnd m]

theorem Marks.file {sr : StatusRec} {m : Mark Component} (h : Marks sr m) :
    sr.file = joinPath m.node := by
  cases m <;> exact h.2

theorem Marks.rank {sr : StatusRec} {m : Mark Component} (h : Marks sr m) : rank sr = markRank m := by
  have hend : endRank sr = markEnd m := by
    cases m <;> simp_all [Marks, endRank, markEnd]
  rw [Status.rank, markRank, h.file, hend]

theorem byteRank_inj {c d : Byte} (h : byteRank c = byteRank d) : c = d := by
  have hc := schar_eq c
  have hd := schar_eq d
  have hinj : schar c = schar d → c = d := schar_inj
  unfold byteRank at h
  split_ifs at h <;> first | simp_all; done | omega

/-- What is between the end of a name and the one that closes a directory. -/
theorem between_ends {u x : List Int} (h₁ : u ++ [0] < x) (h₂ : x < u ++ [2]) :
    ∃ n v, x = u ++ n :: v ∧ (n = 0 ∧ v ≠ [] ∨ n = 1) := by
  induction u generalizing x with
  | nil =>
    rcases x with - | ⟨n, v⟩
    · simp at h₁
    · refine ⟨n, v, rfl, ?_⟩
      simp only [List.nil_append, List.cons_lt_cons_iff] at h₁ h₂
      rcases v with - | ⟨y, v⟩
      · simp at h₁ h₂
        omega
      · simp at h₂
        rcases h₁ with h₁ | ⟨rfl, -⟩
        · omega
        · simp
  | cons a u ih =>
    rcases x with - | ⟨n, v⟩
    · simp at h₁
    · simp only [List.cons_append, List.cons_lt_cons_iff] at h₁ h₂
      obtain rfl : n = a := by omega
      obtain ⟨n', v', rfl, hn⟩ := ih (by simpa using h₁) (by simpa using h₂)
      exact ⟨n', v', rfl, hn⟩

/-- A name whose rank has that of a directory in front. -/
theorem joinPath_of_rank {d f : List Component} {e n : Int} {v : List Int} (he : e = 0 ∨ e = 2)
    (h : (joinPath f).map byteRank ++ [e] = (joinPath d).map byteRank ++ n :: v)
    (hn : n = 0 ∧ v ≠ [] ∨ n = 1) : ∃ r, joinPath f = joinPath d ++ 47 :: r := by
  have hlast (t : List Int) : [e] ≠ t ++ n :: v := by
    rcases t with - | ⟨x, t⟩
    · rintro heq
      obtain ⟨rfl, rfl⟩ := List.cons.inj heq
      simp only [ne_eq, not_true_eq_false, and_false, false_or] at hn
      omega
    · simp
  rcases List.append_eq_append_iff.mp h with ⟨t, -, heq⟩ | ⟨t, hf, heq⟩
  · exact absurd heq (hlast t)
  · rcases t with - | ⟨x, t⟩
    · exact absurd heq.symm (hlast [])
    · obtain ⟨rfl, -⟩ := List.cons.inj heq
      obtain ⟨p, q, hpq, hp, hq⟩ := List.map_eq_append_iff.mp hf
      obtain ⟨c, r, rfl, hc, -⟩ := List.map_eq_cons_iff.mp hq
      obtain rfl : p = joinPath d := List.map_injective_iff.mpr (fun _ _ => byteRank_inj) hp
      refine ⟨r, ?_⟩
      rcases hn with ⟨rfl, -⟩ | rfl
      · obtain rfl : c = 0 := byteRank_inj hc
        exact absurd (by simp [hpq]) (zero_notMem_joinPath f)
      · obtain rfl : c = 47 := byteRank_inj hc
        exact hpq

theorem nests_markRank : Nests fun x y => markRank x < markRank y where
  trans := lt_trans
  irrefl := fun _ => lt_irrefl _
  down_lt := by
    intro d m hne hpre hlt
    obtain ⟨r, hr⟩ := joinPath_below hpre hne hlt
    simp only [markRank]
    rw [hr, List.map_append, List.append_assoc, Mark.node, append_lt_iff]
    simp [markEnd, byteRank, List.cons_lt_cons_iff]
  lt_up := by
    intro d m hne hpre hlt
    obtain ⟨r, hr⟩ := joinPath_below hpre hne hlt
    simp only [markRank]
    rw [hr, List.map_append, List.append_assoc, Mark.node, append_lt_iff]
    simp [markEnd, byteRank, List.cons_lt_cons_iff]
  down_lt_up := by
    intro d
    simp only [markRank, Mark.node, append_lt_iff]
    simp [markEnd, List.cons_lt_cons_iff]
  between := by
    intro d m hne h₁ h₂
    obtain ⟨n, v, heq, hn⟩ := between_ends h₁ h₂
    have hend : markEnd m = 0 ∨ markEnd m = 2 := by cases m <;> simp [markEnd]
    obtain ⟨r, hr⟩ := joinPath_of_rank hend heq hn
    exact prefix_of_joinPath hne hr

/-! ## Names that `pathcmp` tells apart -/

theorem prefix_apart {s t : List Byte} (h : s <+: t) : Apart s t := by
  obtain ⟨z, rfl⟩ := h
  rintro p c s' d t' rfl heq
  rw [List.append_assoc] at heq
  obtain ⟨rfl, -⟩ := List.cons.inj (List.append_cancel_left heq)
  refine ⟨?_, ?_⟩ <;> rintro ⟨rfl, hd⟩ <;> exact absurd hd (by decide)

/-- Names in one directory do not differ first in a slash. -/
theorem apart_concat (u : List Byte) {x y : List Byte} (hx : 47 ∉ x) (hy : 47 ∉ y) :
    Apart (u ++ x) (u ++ y) := by
  have hno {x y p s' t' : List Byte} (hx : 47 ∉ x) (h : u ++ x = p ++ 47 :: s')
      (h' : u ++ y = p ++ 1 :: t') : False := by
    rcases List.append_eq_append_iff.mp h with ⟨z, -, rfl⟩ | ⟨z, rfl, hz⟩
    · exact hx (by simp)
    · rcases z with - | ⟨b, z⟩
      · exact hx (by rw [← List.nil_append x, ← hz]; simp)
      · obtain ⟨rfl, -⟩ := List.cons.inj hz
        rw [List.append_assoc] at h'
        exact absurd (List.cons.inj (List.append_cancel_left h')).1 (by decide)
  rintro p c s' d t' hs ht
  refine ⟨?_, ?_⟩ <;> rintro ⟨rfl, rfl⟩
  · exact hno hx hs ht
  · exact hno hy ht hs

theorem joinPath_isPrefix (d e : List Component) : joinPath d <+: joinPath (d ++ e) := by
  obtain ⟨s, hs⟩ := Pathcomp.joinPath_prefix d e
  exact ⟨s, hs.symm⟩

theorem joinPath_child (d : List Component) : ∃ u, ∀ c, joinPath (d ++ [c]) = u ++ c.val := by
  by_cases h : d = []
  · exact ⟨[], fun c => by rw [h, List.nil_append, joinPath_singleton, List.nil_append]⟩
  · exact ⟨joinPath d ++ [47], fun c => by rw [joinPath_concat h]; simp⟩

/-- The first of the marks behind a place. -/
theorem nested_head {d : List Component} {ms : List (Mark Component)} (h : Nested d ms)
    {m : Mark Component} (hm : m ∈ ms.head?) : m.node = d ∨ ∃ c, m.node = d ++ [c] := by
  cases h <;> cases hm
  · exact .inr ⟨_, rfl⟩
  · exact .inr ⟨_, rfl⟩
  · exact .inl rfl

theorem apart_of_nested {d : List Component} {ms : List (Mark Component)} (h : Nested d ms) :
    ms.IsChain fun a b => Apart (joinPath a.node) (joinPath b.node) := by
  -- behind a child of the directory that is open
  have hchild {d : List Component} {a : Component} {ms : List (Mark Component)} (h : Nested d ms) :
      ∀ m ∈ ms.head?, Apart (joinPath (d ++ [a])) (joinPath m.node) := by
    intro m hm
    rcases nested_head h hm with heq | ⟨c, heq⟩ <;> rw [heq]
    · exact (prefix_apart (joinPath_isPrefix d [a])).symm
    · obtain ⟨u, hu⟩ := joinPath_child d
      rw [hu, hu]
      exact apart_concat u a.no_slash c.no_slash
  induction h with
  | nil => exact .nil
  | @down d a ms h ih =>
    refine List.isChain_cons.mpr ⟨fun m hm => ?_, ih⟩
    rcases nested_head h hm with heq | ⟨c, heq⟩ <;> rw [heq] <;> refine prefix_apart ?_
    · exact List.prefix_refl _
    · exact joinPath_isPrefix (d ++ [a]) [c]
  | leaf h ih | up h ih => exact List.isChain_cons.mpr ⟨hchild h, ih⟩

/-! ## Copies -/

theorem inSync_own (sr : StatusRec) : inSync sr (ownEvents sr) = true := by
  cases h : sr.type <;> simp [ownEvents, inSync, h]

/-- Nested records are copied in step with the path compressor. -/
theorem inStep_of_nested {pc : Pathcomp.State} {d : List Component} {recs : List StatusRec}
    {ms : List (Mark Component)} (hpc : AtRest pc d) (hm : List.Forall₂ Marks recs ms)
    (h : Nested d ms) : InStep pc recs := by
  induction h generalizing recs pc with
  | nil =>
    cases hm
    trivial
  | down h ih =>
    obtain ⟨sr, srs, ⟨ht, hf⟩, hms, rfl⟩ := List.forall₂_cons_right_iff.mp hm
    obtain ⟨pc', hput, hrest⟩ := putRecord_own hpc hf (by simp [ht])
    rw [if_pos ht] at hrest
    exact ⟨_, pc', hput, inSync_own sr, ih hrest hms⟩
  | leaf h ih =>
    obtain ⟨sr, srs, ⟨ht, hf⟩, hms, rfl⟩ := List.forall₂_cons_right_iff.mp hm
    obtain ⟨pc', hput, hrest⟩ := putRecord_own hpc hf ht.2
    rw [if_neg ht.1] at hrest
    exact ⟨_, pc', hput, inSync_own sr, ih hrest hms⟩
  | up h ih =>
    obtain ⟨sr, srs, ⟨ht, hf⟩, hms, rfl⟩ := List.forall₂_cons_right_iff.mp hm
    obtain ⟨pc', hput, hrest⟩ := putRecord_own_dirup hpc hf ht
    exact ⟨_, pc', hput, inSync_own sr, ih hrest hms⟩

/-! ## Files -/

/-- The neighbours of records are those of their marks. -/
theorem isChain_marks {recs : List StatusRec} {ms : List (Mark Component)}
    (hm : List.Forall₂ Marks recs ms) :
    (recs.IsChain fun a b => Apart a.file b.file) ↔
      ms.IsChain fun a b => Apart (joinPath a.node) (joinPath b.node) := by
  have hfiles : recs.map StatusRec.file = ms.map fun m => joinPath m.node := by
    induction hm with
    | nil => rfl
    | cons h _ ih => rw [List.map_cons, List.map_cons, h.file, ih]
  rw [← List.isChain_map (R := Apart) StatusRec.file, hfiles, List.isChain_map]

theorem map_rank {recs : List StatusRec} {ms : List (Mark Component)}
    (hm : List.Forall₂ Marks recs ms) : recs.map rank = ms.map markRank := by
  induction hm with
  | nil => rfl
  | cons h _ ih => rw [List.map_cons, List.map_cons, h.rank, ih]

/-- What is read of a file, to its end or to an error, is nested if and only if the names
are paths, each directory is opened and closed and so is the directory of each record,
and no neighbours differ first in a slash and a byte 1. -/
theorem nestedFile_iff (goal turns : Nat) (st : State) :
    NestedFile goal (rdrawLoop turns st).1 ↔
      ∃ ms, List.Forall₂ Marks (rdrawLoop turns st).1 ms ∧ Matched ms ∧
        (rdrawLoop turns st).1.IsChain fun a b => Apart a.file b.file := by
  obtain ⟨h0, hsorted⟩ := @rdrawLoop_sorted turns st _ _ rfl
  constructor
  · rintro ⟨⟨ms, hm, hn⟩, -⟩
    exact ⟨ms, hm, hn.matched, (isChain_marks hm).mpr (apart_of_nested hn)⟩
  · rintro ⟨ms, hm, hmatched, hap⟩
    have hranks := pairwise_rank h0 hsorted.right_of_append hap
    rw [← List.pairwise_map, map_rank hm, List.pairwise_map] at hranks
    have hn := nests_markRank.nested hranks hmatched
    exact ⟨⟨ms, hm, hn⟩, inStep_of_nested (Pathcomp.atRest_new goal) hm hn⟩

/-- A directory is opened, and another one closed. -/
def crossed : List Byte := bytes "F 5 0\nD a\nU b 1#1#2\n".toList

/-- Such a file is read without an error. -/
theorem not_nestedFile :
    ¬ ∀ (goal : Nat) (file : List Byte) (st : Handle), statusOpen goal (some file) (-1) = some st →
        (rdrawLoop st.turns st.toState).2.error = none →
        NestedFile goal (rdrawLoop st.turns st.toState).1 := by
  intro h
  obtain ⟨⟨ms, hm, hn⟩, -⟩ := h 0 crossed
    ⟨{ statusNew 0 (some (behindLine nl crossed)) with linenum := 1 }, none, false⟩ rfl rfl
  have hread : List.Forall₂ Marks [rawRec .dirdown [97], rawRec .dirup [98]] ms := hm
  obtain ⟨m, ms, hdown, hms, rfl⟩ := List.forall₂_cons_left_iff.mp hread
  obtain ⟨m', ms, hup, hnil, rfl⟩ := List.forall₂_cons_left_iff.mp hms
  obtain rfl := List.forall₂_nil_left_iff.mp hnil
  have hfile := hup.file
  rcases m' with path | path | path
  · exact absurd hup.1 (by decide)
  · exact absurd rfl hup.1.2
  · have hmem := (hn.matched.paired path).mpr (by simp)
    obtain rfl : .down path = m := by simpa using hmem
    exact absurd (hdown.file.trans hfile.symm) (by decide)

end Csup.Status
