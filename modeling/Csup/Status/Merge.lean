import Csup.Status.Update

/-!
# Records and calls, merged

The records of a file, and calls of `status_put` and `status_delete` in the order of their
names, are merged: a record that is put goes into its place, and one that is deleted goes
away (`merged`).

* `Mergeable.mem_merged`: the records of the merge;
* `Mergeable.whole`: they are sorted, and each is in a directory that is open or not yet
  closed.
-/

namespace Csup.Status

open Csup.Framework
open Csup.Proto

/-! ## Calls -/

/-- A call of `status_put`, or of `status_delete` of a file. -/
inductive Op
  | put (sr : StatusRec)
  | delete (name : List Byte)

def Op.name : Op → List Byte
  | put sr => sr.file
  | delete name => name

/-- The key of its search. -/
def Op.key (op : Op) : StatusRec := keyRec op.name false

def Op.run (env : Env) (st : Handle) : Op → Except Fault (Handle × Bool)
  | put sr => statusPut env st sr
  | delete name => statusDelete env st name false

/-- Calls one after the other, until one fails. -/
def updates (env : Env) : Handle → List Op → Except Fault (Handle × Bool)
  | st, [] => .ok (st, true)
  | st, op :: ops => do
    match ← op.run env st with
    | (st, false) => return (st, false)
    | (st, true) => updates env st ops

/-- The calls and `status_close`. -/
def session (env : Env) (st : Handle) (ops : List Op) : Except Fault Closed := do
  let (st, _) ← updates env st ops
  statusClose env st

/-! ## Sorted names -/

/-- The names of the records and of the calls. -/
def namesOf (recs : List StatusRec) (ops : List Op) : List (List Byte) :=
  recs.map StatusRec.file ++ ops.map Op.name

/-- A name of a file. -/
def IsFile (recs : List StatusRec) (ops : List Op) (name : List Byte) : Prop :=
  (∃ sr ∈ recs, ¬ofDir sr ∧ sr.file = name) ∨ ∃ op ∈ ops, op.name = name

/-- A name of a directory, or of one that something is in. -/
def IsDir (recs : List StatusRec) (ops : List Op) (name : List Byte) : Prop :=
  (∃ sr ∈ recs, ofDir sr ∧ sr.file = name) ∨ ∃ n ∈ namesOf recs ops, ∃ t, n = name ++ 47 :: t

/-- Calls for files, in the order of their names; no name is one of a file and a directory. -/
structure InOrder (recs : List StatusRec) (ops : List Op) : Prop where
  files : ∀ sr, .put sr ∈ ops → ¬ofDir sr
  names : ∀ op ∈ ops, IsName op.name
  sorted : ops.Pairwise fun a b => pathcmp a.name b.name < 0
  kinds : ∀ name, IsFile recs ops name → ¬IsDir recs ops name

/-- `pathcmp` takes no slash of a name for the byte 1 of another. -/
def AllApart (recs : List StatusRec) (ops : List Op) : Prop :=
  ∀ m ∈ namesOf recs ops, ∀ n ∈ namesOf recs ops, Apart m n

/-- Nested records: the marks are those of a walk. -/
def NestedRecs (recs : List StatusRec) : Prop :=
  ∃ ms, List.Forall₂ Marks recs ms ∧ Nested [] ms

/-! ## The merge -/

def Op.update : Op → Update StatusRec (List Int)
  | put sr => .put sr
  | delete name => .drop (rank (keyRec name false))

def merged (recs : List StatusRec) (ops : List Op) : List StatusRec :=
  updated rank recs (ops.map Op.update)

theorem node_of_markRank {x y : Mark Component} (h : markRank x = markRank y) :
    x.node = y.node := by
  have hfile := List.map_injective_iff.mpr (fun _ _ => byteRank_inj) (List.append_inj' h rfl).1
  by_cases hx : x.node = [] <;> by_cases hy : y.node = []
  · rw [hx, hy]
  · rw [hx] at hfile
    exact absurd hfile.symm (joinPath_ne_nil hy)
  · rw [hy] at hfile
    exact absurd hfile (joinPath_ne_nil hx)
  · exact joinPath_injective hx hy hfile

theorem ranks_markRank : Ranks markRank where
  toNests := nests_markRank
  node := node_of_markRank
  up := by
    intro x d h
    have hend : [markEnd x] = [2] := (List.append_inj' h rfl).2
    have hnode := node_of_markRank h
    cases x with
    | up e => exact congrArg Mark.up hnode
    | down e | leaf e => exact absurd hend (show ¬[(0 : Int)] = [2] by decide)

theorem rank_mark {sr : StatusRec} (h : IsName sr.file) : markRank sr.mark = rank sr :=
  (marks_mark h).rank.symm

section

variable {recs left done L : List StatusRec} {ops : List Op} {op : Op} {sr r : StatusRec}
  {name : List Byte}

theorem rank_key (h : sr.type ≠ .dirup) : rank (keyRec sr.file false) = rank sr := by
  rw [rank, rank, endRank, endRank, if_neg h]
  rfl

theorem InOrder.rank_update (h : InOrder recs ops) (hop : op ∈ ops) :
    op.update.rank rank = rank op.key := by
  cases op with
  | put sr => exact (rank_key fun hup => h.files sr hop (.inr hup)).symm
  | delete name => rfl

/-- A record of the rank of a key has its name, and closes no directory. -/
theorem file_of_rank (h : rank sr = rank (keyRec name false)) :
    sr.file = name ∧ sr.type ≠ .dirup := by
  obtain ⟨hfile, hend⟩ := List.append_inj' h rfl
  refine ⟨List.map_injective_iff.mpr (fun _ _ => byteRank_inj) hfile, fun hup => ?_⟩
  rw [endRank, if_pos hup] at hend
  exact absurd hend (show ¬[(2 : Int)] = [0] by decide)

/-- A key is compared with the records as their ranks are. -/
theorem cmp_key (hname : IsName name) (hsr : IsName sr.file) (hap : Apart sr.file name) :
    (statusrecCmp sr (keyRec name false) < 0 ↔ rank sr < rank (keyRec name false)) ∧
      (statusrecCmp sr (keyRec name false) = 0 ↔ rank sr = rank (keyRec name false)) := by
  have h0 := hsr.plain.2
  have hk0 : 0 ∉ (keyRec name false).file := hname.plain.2
  refine ⟨statusrecCmp_lt_iff hap h0 hk0, (statusrecCmp_eq_iff hap h0 hk0).trans ⟨?_, fun h => ?_⟩⟩
  · rintro ⟨hfile, hup, -⟩
    rw [← rank_key hup, hfile]
    rfl
  · obtain ⟨hfile, hup⟩ := file_of_rank h
    exact ⟨hfile, hup, by simp [keyRec, rawRec]⟩

/-- What a file is made of, in the order of its records. -/
structure Whole (L : List StatusRec) : Prop where
  sorted : L.Pairwise fun a b => rank a < rank b
  names : ∀ sr ∈ L, IsName sr.file
  opened : ∀ d, .up d ∈ L.map StatusRec.mark → .down d ∈ L.map StatusRec.mark
  low : LeavesLow (L.map StatusRec.mark)

theorem Whole.sorted_marks (h : Whole L) :
    (L.map StatusRec.mark).Pairwise fun x y => markRank x < markRank y := by
  rw [List.pairwise_map]
  refine h.sorted.imp_of_mem fun ha hb hlt => ?_
  rwa [rank_mark (h.names _ ha), rank_mark (h.names _ hb)]

theorem Whole.node (h : Whole L) : ∀ m ∈ L.map StatusRec.mark, m.node ≠ [] := by
  intro m hm
  obtain ⟨sr, hsr, rfl⟩ := List.mem_map.mp hm
  exact mark_ne (h.names sr hsr)

/-- Each record fits behind the ones before it. -/
theorem Whole.fits (h : Whole (done ++ sr :: left)) :
    sr.mark.Fits (openAfter [] (done.map StatusRec.mark)) := by
  have hs := h.sorted_marks
  have hnode := h.node
  have hopen := h.opened
  rw [List.map_append, List.map_cons] at hs hnode hopen
  exact ranks_markRank.fits hs hnode hopen

theorem mem_namesOf_left (h : sr ∈ recs) : sr.file ∈ namesOf recs ops :=
  List.mem_append_left _ (List.mem_map_of_mem h)

theorem mem_namesOf_right (h : op ∈ ops) : op.name ∈ namesOf recs ops :=
  List.mem_append_right _ (List.mem_map_of_mem h)

/-- The old records and the calls, as they come to be merged. -/
structure Mergeable (recs : List StatusRec) (ops : List Op) : Prop extends InOrder recs ops where
  recsSorted : recs.Pairwise fun a b => statusrecCmp a b < 0
  nested : NestedRecs recs
  apart : AllApart recs ops

theorem NestedRecs.marks (h : NestedRecs recs) :
    Nested [] (recs.map StatusRec.mark) ∧ ∀ sr ∈ recs, IsName sr.file := by
  obtain ⟨ms, hm, hn⟩ := h
  obtain ⟨rfl, hnames⟩ := map_mark hm hn.node
  exact ⟨hn, hnames⟩

theorem Mergeable.sorted_rank (h : Mergeable recs ops) :
    recs.Pairwise fun a b => rank a < rank b := by
  obtain ⟨-, hnames⟩ := h.nested.marks
  refine h.recsSorted.imp_of_mem fun {a b} ha hb hlt => ?_
  have hap := h.apart _ (mem_namesOf_left ha) _ (mem_namesOf_left hb)
  exact (statusrecCmp_lt_iff hap (hnames a ha).plain.2 (hnames b hb).plain.2).mp hlt

theorem statusrecCmp_keys (m n : List Byte) :
    statusrecCmp (keyRec m false) (keyRec n false) = pathcmp m n := by
  rw [statusrecCmp_eq, if_neg fun h => absurd h.1 (by simp [keyRec, rawRec]),
    if_neg fun h => absurd h.1 (by simp [keyRec, rawRec])]
  rfl

theorem Mergeable.sorted_update (h : Mergeable recs ops) :
    (ops.map Op.update).Pairwise fun u v => u.rank rank < v.rank rank := by
  rw [List.pairwise_map]
  refine h.sorted.imp_of_mem fun {a b} ha hb hlt => ?_
  have hap := h.apart _ (mem_namesOf_right ha) _ (mem_namesOf_right hb)
  rw [h.rank_update ha, h.rank_update hb]
  have hcmp := @cmp_key (keyRec a.name false) b.name (h.names b hb) (h.names a ha) hap
  exact hcmp.1.mp (by rwa [statusrecCmp_keys])

/-- The name of a call is no directory of the file. -/
theorem InOrder.not_dir (h : InOrder recs ops) (hop : op ∈ ops) (hsr : sr ∈ recs)
    (hfile : sr.file = op.name) : ¬ofDir sr :=
  fun hdir => h.kinds op.name (.inr ⟨op, hop, rfl⟩) (.inl ⟨sr, hsr, hdir, hfile⟩)

theorem Mergeable.mem_merged (h : Mergeable recs ops) :
    r ∈ merged recs ops ↔ .put r ∈ ops ∨ r ∈ recs ∧ ∀ op ∈ ops, op.name ≠ r.file := by
  have hput : Update.put r ∈ ops.map Op.update ↔ .put r ∈ ops := by
    refine ⟨fun hmem => ?_, fun hmem => List.mem_map_of_mem (f := Op.update) hmem⟩
    obtain ⟨op, hop, heq⟩ := List.mem_map.mp hmem
    cases op with
    | put sr =>
      cases heq
      exact hop
    | delete name => cases heq
  rw [merged, mem_updated h.sorted_rank h.sorted_update, hput]
  refine or_congr_right (and_congr_right fun hr => ?_)
  rw [List.forall_mem_map]
  refine forall₂_congr fun op hop => not_congr ?_
  rw [h.rank_update hop]
  constructor
  · exact fun heq => (file_of_rank heq.symm).1.symm
  · intro hname
    have hup : r.type ≠ .dirup := fun hup => h.not_dir hop hr hname.symm (.inr hup)
    rw [← rank_key hup, ← hname]
    rfl

theorem mark_dir (hdir : ofDir sr) : ∀ e, sr.mark ≠ .leaf e := by
  intro e
  unfold StatusRec.mark
  rcases hdir with ht | ht <;> simp [ht]

theorem mark_file (hdir : ¬ofDir sr) : sr.mark = .leaf (pathOf sr.file) := by
  unfold StatusRec.mark
  split
  · next ht => exact absurd (.inl ht) hdir
  · next ht => exact absurd (.inr ht) hdir
  · rfl

/-- A record is one of the file or one that is put, with a name of either. -/
theorem Mergeable.name_mem (h : Mergeable recs ops) (hr : r ∈ merged recs ops) :
    r.file ∈ namesOf recs ops ∧ IsName r.file ∧ (ofDir r → r ∈ recs) ∧
      (¬ofDir r → IsFile recs ops r.file) := by
  rcases h.mem_merged.mp hr with hput | ⟨hmem, -⟩
  · exact ⟨mem_namesOf_right hput, h.names (.put r) hput,
      fun hdir => absurd hdir (h.files r hput), fun _ => .inr ⟨_, hput, rfl⟩⟩
  · exact ⟨mem_namesOf_left hmem, h.nested.marks.2 r hmem, fun _ => hmem,
      fun hdir => .inl ⟨r, hmem, hdir, rfl⟩⟩

theorem Mergeable.whole (h : Mergeable recs ops) : Whole (merged recs ops) where
  sorted := pairwise_updated h.sorted_rank h.sorted_update
  names := fun _ hr => (h.name_mem hr).2.1
  opened := by
    intro d hup
    obtain ⟨r, hr, hmark⟩ := List.mem_map.mp hup
    have hdir : ofDir r := by
      by_contra hdir
      rw [mark_file hdir] at hmark
      cases hmark
    -- the record that opens the directory is in the file, and is no file that is put or deleted
    have hrec : .up d ∈ recs.map StatusRec.mark :=
      List.mem_map.mpr ⟨r, (h.name_mem hr).2.2.1 hdir, hmark⟩
    obtain ⟨x, hx, hdown⟩ := List.mem_map.mp ((h.nested.marks.1.matched.paired d).mpr hrec)
    refine List.mem_map.mpr ⟨x, h.mem_merged.mpr (.inr ⟨hx, fun op hop hname => ?_⟩), hdown⟩
    have hxdir : ofDir x := by
      by_contra hxdir
      rw [mark_file hxdir] at hdown
      cases hdown
    exact h.not_dir hop hx hname.symm hxdir
  low := by
    intro e he m hm hpre
    obtain ⟨r, hr, hmark⟩ := List.mem_map.mp he
    obtain ⟨x, hx, rfl⟩ := List.mem_map.mp hm
    have hfile : ¬ofDir r := fun hdir => mark_dir hdir e hmark
    have hkind := h.kinds r.file ((h.name_mem hr).2.2.2 hfile)
    rw [mark_file hfile] at hmark
    obtain rfl := Mark.leaf.inj hmark
    obtain ⟨hrname, hrne⟩ := (h.name_mem hr).2.1.pathOf
    obtain ⟨hxname, -⟩ := (h.name_mem hx).2.1.pathOf
    rw [node_mark] at hpre
    by_cases heq : pathOf r.file = pathOf x.file
    · have hname : x.file = r.file := by rw [← hxname, ← heq, hrname]
      have hxdir : ¬ofDir x := fun hdir =>
        hkind (.inl ⟨x, (h.name_mem hx).2.2.1 hdir, hdir, hname⟩)
      rw [mark_file hxdir, heq]
    · obtain ⟨t, ht⟩ := joinPath_below hpre hrne heq
      rw [hrname, hxname] at ht
      exact absurd (.inr ⟨x.file, (h.name_mem hx).1, t, ht⟩) hkind

end

end Csup.Status
