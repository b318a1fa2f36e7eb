import Csup.Rcs.Content

/-!
# Checking the layout of a file

What the headers of a file have to name is decidable: the quantifiers of `RcsDoc.Layout` are over its
entries (`layout_iff`).
-/

namespace Csup.Rcs

open Csup.Framework

instance (r r' : Revnum) : Decidable (Behind r r') := inferInstanceAs (Decidable (_ ∧ _))

instance : DecidableRel revisions.before := fun r r' => inferInstanceAs (Decidable (Behind r r'))

attribute [local instance] Lineage.decidableMem Lineage.decidablePerm

namespace RcsDoc

variable (doc : RcsDoc)

/-- The numbers of the headers. -/
def revnums : List Revnum := doc.deltas.map HeaderEntry.revnum

theorem revs_eq : doc.revs = {r | r ∈ doc.revnums} := by
  ext r
  exact List.mem_map.symm

/-- The entries name their children. -/
def Links : Prop :=
  (∀ e ∈ doc.deltas, (∀ r ∈ e.next, revisions.NextOf {r | r ∈ doc.revnums} e.revnum r) ∧
    ∀ r ∈ doc.revnums, revisions.NextOf {r | r ∈ doc.revnums} e.revnum r → e.next = some r) ∧
  ∀ e ∈ doc.deltas, (∀ r ∈ e.branches, revisions.FirstOf {r | r ∈ doc.revnums} e.revnum r) ∧
    ∀ r ∈ doc.revnums, revisions.FirstOf {r | r ∈ doc.revnums} e.revnum r → r ∈ e.branches

instance : Decidable doc.Links := inferInstanceAs (Decidable (_ ∧ _))

/-- Each entry is that of the head, or a child of one in front of it. -/
def InOrder : List HeaderEntry → List HeaderEntry → Prop
  | _, [] => True
  | pre, e :: post => (pre = [] ∧ e.revnum = doc.head ∨
      ∃ a ∈ pre, revisions.Child {r | r ∈ doc.revnums} a.revnum e.revnum) ∧ InOrder (pre ++ [e]) post

instance : ∀ pre post, Decidable (doc.InOrder pre post)
  | _, [] => inferInstanceAs (Decidable True)
  | pre, e :: post =>
    have := instDecidableInOrder (pre ++ [e]) post
    inferInstanceAs (Decidable (_ ∧ _))

variable {doc}

theorem inOrder_iff {pre post : List HeaderEntry} : doc.InOrder pre post ↔
    ∀ mid e post', post = mid ++ e :: post' → pre ++ mid = [] ∧ e.revnum = doc.head ∨
      ∃ a ∈ pre ++ mid, revisions.Child {r | r ∈ doc.revnums} a.revnum e.revnum := by
  induction post generalizing pre with
  | nil => simp [InOrder]
  | cons e post ih =>
    rw [InOrder, ih]
    constructor
    · rintro ⟨he, hpost⟩ mid e' post' heq
      cases mid with
      | nil =>
        obtain ⟨rfl, rfl⟩ := List.cons.inj heq
        rwa [List.append_nil]
      | cons m mid =>
        obtain ⟨rfl, rfl⟩ := List.cons.inj heq
        have := hpost mid e' post' rfl
        rwa [List.append_assoc, List.singleton_append] at this
    · intro h
      refine ⟨?_, fun mid e' post' heq => ?_⟩
      · have := h [] e post rfl
        rwa [List.append_nil] at this
      · have := h (e :: mid) e' post' (by rw [heq]; rfl)
        rwa [List.append_assoc, List.singleton_append]

/-- The layout, with quantifiers over the entries. -/
theorem layout_iff : doc.Layout ↔ doc.revnums.Nodup ∧
    (doc.texts.map TextEntry.revnum).Perm doc.revnums ∧
    (∀ r ∈ doc.revnums, 0 < r.count dot) ∧
    (∀ r ∈ doc.revnums, ∀ a ∈ revisions.point (revLine r), a ∈ doc.revnums) ∧
    doc.Links ∧ doc.head ∈ doc.revnums ∧ revLine doc.head = none ∧
    (∀ r ∈ doc.revnums, revLine r = none → r = doc.head ∨ Behind doc.head r) ∧
    doc.InOrder [] doc.deltas := by
  have hrevs := doc.revs_eq
  have hmem {r : Revnum} : r ∈ doc.revs ↔ r ∈ doc.revnums := List.mem_map.symm
  constructor
  · rintro ⟨hnd, htexts, hnum, hground, hnext, hbranches, hhead, ⟨htrunk, hall⟩, horder⟩
    simp only [hrevs] at hnext hbranches horder
    refine ⟨hnd, htexts, fun r hr => hnum r (hmem.mpr hr),
      fun r hr a ha => hmem.mp (hground r (hmem.mpr hr) a ha),
      ⟨fun e he => ⟨fun r hr => (hnext e he r).mp hr, fun r _ hr => (hnext e he r).mpr hr⟩,
        fun e he => ⟨fun r hr => (hbranches e he r).mp hr, fun r _ hr => (hbranches e he r).mpr hr⟩⟩,
      hmem.mp hhead, htrunk, fun r hr => hall r (hmem.mpr hr), inOrder_iff.mpr ?_⟩
    exact fun mid e post heq => horder mid e post heq
  · rintro ⟨hnd, htexts, hnum, hground, ⟨hnext, hbranches⟩, hhead, htrunk, hall, horder⟩
    refine ⟨hnd, htexts, fun r hr => hnum r (hmem.mp hr),
      fun r hr a ha => hmem.mpr (hground r (hmem.mp hr) a ha), ?_, ?_, hmem.mpr hhead,
      ⟨htrunk, fun r hr => hall r (hmem.mp hr)⟩, ?_⟩ <;> simp only [hrevs]
    · exact fun e he r => ⟨(hnext e he).1 r, fun hr => (hnext e he).2 r hr.child hr⟩
    · exact fun e he r => ⟨(hbranches e he).1 r, fun hr => (hbranches e he).2 r hr.child hr⟩
    · exact fun pre e post heq => inOrder_iff.mp horder pre e post heq

instance : Decidable doc.Layout := decidable_of_iff _ layout_iff.symm

end RcsDoc

end Csup.Rcs
