import Csup.Proto.Codec
import Csup.Rcs.Parsed
import Mathlib.Data.List.Induction
import Mathlib.Data.List.Nodup

/-!
# The details of an RCS file: `rcsfile_send_details`

The delta table of a file that is open for reading, and what is sent of it. The date of a
delta is `none` while it is `NULL`; what nobody reads of a delta is left out.

An entry whose number the table has, and not as a placeholder, is dropped. The `next` of any
other entry is put into the table, whatever is there (`Linked` says when that does no harm).

* `Table`: what the table is while it has no number twice;
* `sendDetails_iff`: which files are sent as they are.
-/

namespace Csup.Rcsparse

open Csup.Framework Csup.Keyword Csup.Lexer Csup.Proto
open Csup.Rcs (DeltaEntry insertBefore insertBefore_perm modifyFirst pairwise_insertBefore)

/-- A `struct delta` of a file that is open for reading. -/
structure RoDelta where
  revnum : Revnum
  revdate : Option (List Byte)
  placeholder : Bool
  deriving DecidableEq

/-- `rcsfile_insertsorteddelta` -/
def insertsorted (d : RoDelta) : List RoDelta → List RoDelta :=
  insertBefore (fun d2 => rcsnumCmp d.revnum d2.revnum ≠ .gt) d

/-- The placeholder for the next delta. -/
def importnext (next : Option Revnum) (table : List RoDelta) : List RoDelta :=
  match next with
  | none => table
  | some next => insertsorted ⟨next, none, true⟩ table

/-- `rcsfile_importdelta` of a file that is open for reading -/
def importdelta (table : List RoDelta) (e : DeltaEntry) : List RoDelta :=
  match table.find? fun d => d.revnum = e.revnum with
  | none => importnext e.next (insertsorted ⟨e.revnum, some e.revdate, false⟩ table)
  | some d =>
    if d.placeholder then
      importnext e.next (modifyFirst (fun d => d.revnum = e.revnum)
        (fun d => { d with revdate := some e.revdate, placeholder := false }) table)
    else table   -- it exists already

/-- `rcsparse(rf, path, 1)` -/
def rcsparseRo (content : List Byte) : Except Stop (Admin × List RoDelta) :=
  rcsparse (fun table e => .ok (importdelta table e)) (fun _ => []) pure content

/-- `proto_printf(wr, "%s %s\n", s, t)` -/
def printPair (s t : List Byte) : Option (List Byte) :=
  protoPrintf (bytes "%s %s\n".toList) [.str (cstr s), .str (cstr t)]

/-- The line of the default branch. -/
def printBranch : Option Revnum → Option (List Byte)
  | none => protoPrintf (bytes "b\n".toList) []
  | some branch => protoPrintf (bytes "B %s\n".toList) [.str (cstr branch)]

/-- `rcsfile_send_details`: what each call of `proto_printf` writes, unless its argument is
`NULL`. -/
def sendDetails (name : List Byte) (rf : Admin) (deltatable : List RoDelta) :
    Option (List (List Byte)) := do
  let v ← protoPrintf (bytes "V %s\n".toList) [.str (cstr name)]
  let b ← printBranch rf.branch
  let e ← protoPrintf (bytes "E %s\n".toList) [.str (keywordEncodeExpand rf.expand)]
  let tags ← rf.taglist.mapM fun t => printPair t.1 t.2
  let deltas ← deltatable.mapM fun d => d.revdate.bind (printPair d.revnum)
  return [v, b, e, bytes "T\n".toList] ++ tags ++ [bytes ".\n".toList, bytes "D\n".toList] ++
    deltas ++ [bytes ".\n".toList, bytes ".\n".toList]

/-! ## What should be sent -/

/-- Two strings, both escaped. -/
def pairLine (p : List Byte × List Byte) : List Byte :=
  protoEscape p.1 ++ 32 :: (protoEscape p.2 ++ [nl])

/-- The sections, with the lines of the symbols and of the deltas. -/
def sections (v b e : List Byte) (tags deltas : List (List Byte × List Byte)) :
    List (List Byte) :=
  [v, b, e, bytes "T\n".toList] ++ tags.map pairLine ++ [bytes ".\n".toList, bytes "D\n".toList] ++
    deltas.map pairLine ++ [bytes ".\n".toList, bytes ".\n".toList]

/-- The revisions with an entry, each once, in ascending order and with its date. -/
structure Lists (es : List DeltaEntry) (ds : List (Revnum × List Byte)) : Prop where
  nodup : (ds.map Prod.fst).Nodup
  mem : ∀ r, r ∈ ds.map Prod.fst ↔ r ∈ es.map DeltaEntry.revnum
  sorted : ds.Pairwise fun a b => rcsnumCmp a.1 b.1 ≠ .gt
  date : ∀ d ∈ ds, (es.find? fun e => e.revnum = d.1).map DeltaEntry.revdate = some d.2

/-- The lines list the symbols of the file, and its revisions. -/
def SentAs (rf : Admin) (es : List DeltaEntry) (out : List (List Byte)) : Prop :=
  ∃ v b e ds, out = sections v b e rf.taglist ds ∧ Lists es ds

/-- An entry that is the first with its number has `r` as its `next`. -/
def Names (es : List DeltaEntry) (r : Revnum) : Prop :=
  ∃ pre e post, es = pre ++ e :: post ∧ e.revnum ∉ pre.map DeltaEntry.revnum ∧ e.next = some r

/-- The `next` of each entry that is the first with its number has an entry, all of them are
behind this one, and no such entry in front of this one has the same `next`. -/
def Linked (es : List DeltaEntry) : Prop :=
  ∀ pre e post r, es = pre ++ e :: post → e.revnum ∉ pre.map DeltaEntry.revnum → e.next = some r →
    r ∉ (pre ++ [e]).map DeltaEntry.revnum ∧ ¬Names pre r ∧ r ∈ post.map DeltaEntry.revnum

/-! ## The table -/

/-- The table behind the entries `pre`, while no number is in it twice. -/
structure Table (pre : List DeltaEntry) (table : List RoDelta) : Prop where
  sorted : (table.map RoDelta.revnum).Pairwise fun a b => rcsnumCmp a b ≠ .gt
  nodup : (table.map RoDelta.revnum).Nodup
  mem : ∀ r, r ∈ table.map RoDelta.revnum ↔ r ∈ pre.map DeltaEntry.revnum ∨ Names pre r
  real : ∀ d ∈ table, d.placeholder = false → d.revnum ∈ pre.map DeltaEntry.revnum ∧
    (pre.find? fun e => e.revnum = d.revnum).map DeltaEntry.revdate = d.revdate
  held : ∀ d ∈ table, d.placeholder = true →
    d.revdate = none ∧ d.revnum ∉ pre.map DeltaEntry.revnum

theorem append_singleton_eq {α : Type*} {pre p q : List α} {e x : α} :
    pre ++ [e] = p ++ x :: q ↔
      q = [] ∧ p = pre ∧ x = e ∨ ∃ q', q = q' ++ [e] ∧ pre = p ++ x :: q' := by
  constructor
  · intro h
    rcases List.eq_nil_or_concat' q with rfl | ⟨q', y, rfl⟩
    · obtain ⟨rfl, hx⟩ := List.append_inj' h rfl
      exact .inl ⟨rfl, rfl, (List.cons.inj hx).1.symm⟩
    · rw [← List.cons_append, ← List.append_assoc] at h
      obtain ⟨rfl, hy⟩ := List.append_inj' h rfl
      obtain rfl := (List.cons.inj hy).1
      exact .inr ⟨q', rfl, rfl⟩
  · rintro (⟨rfl, rfl, rfl⟩ | ⟨q', rfl, rfl⟩)
    · rfl
    · simp

theorem names_concat {pre : List DeltaEntry} {e : DeltaEntry} {r : Revnum} :
    Names (pre ++ [e]) r ↔
      Names pre r ∨ e.revnum ∉ pre.map DeltaEntry.revnum ∧ e.next = some r := by
  constructor
  · rintro ⟨p, x, q, h, hfirst, hnext⟩
    rcases append_singleton_eq.mp h with ⟨-, rfl, rfl⟩ | ⟨q', -, rfl⟩
    · exact .inr ⟨hfirst, hnext⟩
    · exact .inl ⟨p, x, q', rfl, hfirst, hnext⟩
  · rintro (⟨p, x, q, rfl, hfirst, hnext⟩ | ⟨hfirst, hnext⟩)
    · exact ⟨p, x, q ++ [e], by simp, hfirst, hnext⟩
    · exact ⟨pre, e, [], rfl, hfirst, hnext⟩

theorem insertsorted_perm (d : RoDelta) (table : List RoDelta) :
    (insertsorted d table).Perm (d :: table) := insertBefore_perm _ _ _

theorem mem_insertsorted {d x : RoDelta} {table : List RoDelta} :
    x ∈ insertsorted d table ↔ x = d ∨ x ∈ table := by
  rw [(insertsorted_perm d table).mem_iff, List.mem_cons]

theorem sorted_insertsorted {d : RoDelta} {table : List RoDelta}
    (h : (table.map RoDelta.revnum).Pairwise fun a b => rcsnumCmp a b ≠ .gt) :
    ((insertsorted d table).map RoDelta.revnum).Pairwise fun a b => rcsnumCmp a b ≠ .gt := by
  rw [List.pairwise_map] at h ⊢
  refine pairwise_insertBefore (fun y z hy hz => rcsnumCmp_trans hy hz)
    (fun y _ hy => by simpa using hy) (fun y _ hy => ?_) h
  have hgt : rcsnumCmp d.revnum y.revnum = .gt := by simpa using hy
  rw [rcsnumCmp_swap, hgt]
  decide

/-- The first element that `p` holds of. -/
theorem modifyFirst_of_find? {α : Type*} {p : α → Bool} (f : α → α) {l : List α} {d : α}
    (h : l.find? p = some d) : ∃ a b, l = a ++ d :: b ∧ modifyFirst p f l = a ++ f d :: b := by
  induction l with
  | nil => cases h
  | cons y l ih =>
    by_cases hp : p y = true
    · rw [List.find?_cons_of_pos hp] at h
      obtain rfl := Option.some.inj h
      exact ⟨[], l, rfl, if_pos hp⟩
    · rw [List.find?_cons_of_neg hp] at h
      obtain ⟨a, b, rfl, hmod⟩ := ih h
      refine ⟨y :: a, b, rfl, ?_⟩
      rw [modifyFirst, if_neg hp, hmod]
      rfl

variable {pre : List DeltaEntry} {table : List RoDelta} {e : DeltaEntry}

/-- A number that the file has an entry for is no placeholder's. -/
theorem Table.exists_real (h : Table pre table) {r : Revnum}
    (hr : r ∈ pre.map DeltaEntry.revnum) :
    ∃ d ∈ table, d.revnum = r ∧ d.placeholder = false := by
  obtain ⟨d, hd, rfl⟩ := List.mem_map.mp ((h.mem r).mpr (.inl hr))
  refine ⟨d, hd, rfl, ?_⟩
  by_contra hp
  exact (h.held d hd (by simpa using hp)).2 hr

theorem find?_concat_of_mem {r : Revnum} (hr : r ∈ pre.map DeltaEntry.revnum) :
    (pre ++ [e]).find? (fun e => e.revnum = r) = pre.find? (fun e => e.revnum = r) := by
  obtain ⟨x, hx, rfl⟩ := List.mem_map.mp hr
  have hsome : (pre.find? fun e => decide (e.revnum = x.revnum)).isSome :=
    List.find?_isSome.mpr ⟨x, hx, by simp⟩
  rw [List.find?_append, Option.or_of_isSome hsome]

theorem find?_concat_self (hr : e.revnum ∉ pre.map DeltaEntry.revnum) :
    (pre ++ [e]).find? (fun e' => e'.revnum = e.revnum) = some e := by
  have hnone : pre.find? (fun e' => decide (e'.revnum = e.revnum)) = none :=
    List.find?_eq_none.mpr fun x hx => by
      have : x.revnum ≠ e.revnum := fun heq => hr (List.mem_map.mpr ⟨x, hx, heq⟩)
      simpa using this
  rw [List.find?_append, hnone]
  simp

/-- The table behind one more entry, without a `next`: what is new in it is the delta of the
entry, unless there is one. -/
theorem Table.concat (h : Table pre table) (hnext : e.next = none) {table' : List RoDelta}
    (hsorted : (table'.map RoDelta.revnum).Pairwise fun a b => rcsnumCmp a b ≠ .gt)
    (hnodup : (table'.map RoDelta.revnum).Nodup)
    (hrevs : ∀ r, r ∈ table'.map RoDelta.revnum ↔ r ∈ table.map RoDelta.revnum ∨ r = e.revnum)
    (hdelta : ∀ x ∈ table', x = ⟨e.revnum, some e.revdate, false⟩ ∧
        e.revnum ∉ pre.map DeltaEntry.revnum ∨
      x ∈ table ∧ (x.placeholder = true → x.revnum ≠ e.revnum)) :
    Table (pre ++ [e]) table' := by
  have hmem (r : Revnum) : r ∈ (pre ++ [e]).map DeltaEntry.revnum ↔
      r ∈ pre.map DeltaEntry.revnum ∨ r = e.revnum := by simp
  refine ⟨hsorted, hnodup, fun r => ?_, fun x hx hp => ?_, fun x hx hp => ?_⟩
  · rw [hrevs, h.mem, hmem, names_concat, hnext, or_right_comm]
    simp
  · rcases hdelta x hx with ⟨rfl, hfirst⟩ | ⟨hx, -⟩
    · refine ⟨(hmem _).mpr (.inr rfl), ?_⟩
      rw [find?_concat_self hfirst]
      rfl
    · obtain ⟨hr, hdate⟩ := h.real x hx hp
      exact ⟨(hmem _).mpr (.inl hr), by rw [find?_concat_of_mem hr]; exact hdate⟩
  · rcases hdelta x hx with ⟨rfl, -⟩ | ⟨hx, hne⟩
    · cases hp
    · obtain ⟨hdate, hr⟩ := h.held x hx hp
      refine ⟨hdate, fun hr' => ?_⟩
      rcases (hmem _).mp hr' with hr' | hr'
      · exact hr hr'
      · exact hne hp hr'

/-- What an entry without a `next` does. -/
theorem Table.entry (h : Table pre table) (hnext : e.next = none) :
    Table (pre ++ [e]) (importdelta table e) := by
  unfold importdelta
  rw [hnext]
  split
  · -- there is none
    rename_i hfind
    have hnot : e.revnum ∉ table.map RoDelta.revnum := fun hr => by
      obtain ⟨d, hd, hdr⟩ := List.mem_map.mp hr
      have := List.find?_eq_none.mp hfind d hd
      simp [hdr] at this
    have hperm := (insertsorted_perm ⟨e.revnum, some e.revdate, false⟩ table).map RoDelta.revnum
    refine h.concat hnext (sorted_insertsorted h.sorted)
      (hperm.nodup_iff.mpr (List.nodup_cons.mpr ⟨hnot, h.nodup⟩)) (fun r => ?_) fun x hx => ?_
    · refine hperm.mem_iff.trans ?_
      rw [List.map_cons, List.mem_cons, or_comm]
    · rcases mem_insertsorted.mp hx with rfl | hx
      · exact .inl ⟨rfl, fun hr => hnot ((h.mem _).mpr (.inl hr))⟩
      · exact .inr ⟨hx, fun _ hr => hnot (List.mem_map.mpr ⟨x, hx, hr⟩)⟩
  · rename_i d hfind
    have hd := List.mem_of_find?_eq_some hfind
    have hdr : d.revnum = e.revnum := by simpa using List.find?_some hfind
    have hself (r : Revnum) : r ∈ table.map RoDelta.revnum ↔
        r ∈ table.map RoDelta.revnum ∨ r = e.revnum :=
      ⟨.inl, fun hr => hr.elim id fun hr => List.mem_map.mpr ⟨d, hd, by rw [hdr, hr]⟩⟩
    split
    · -- a placeholder
      rename_i hp
      obtain ⟨a, b, rfl, hmod⟩ := modifyFirst_of_find?
        (fun d : RoDelta => { d with revdate := some e.revdate, placeholder := false }) hfind
      rw [hmod]
      show Table (pre ++ [e]) (a ++ ⟨d.revnum, some e.revdate, false⟩ :: b)
      have hmap : (a ++ ⟨d.revnum, some e.revdate, false⟩ :: b).map RoDelta.revnum =
          (a ++ d :: b).map RoDelta.revnum := by simp
      refine h.concat hnext (hmap ▸ h.sorted) (hmap ▸ h.nodup) (fun r => hmap ▸ hself r) fun x hx => ?_
      have hnd := (List.perm_middle.map RoDelta.revnum).nodup_iff.mp h.nodup
      rcases List.mem_cons.mp (List.perm_middle.mem_iff.mp hx) with rfl | hx
      · exact .inl ⟨by rw [hdr], hdr ▸ (h.held d hd hp).2⟩
      · refine .inr ⟨List.perm_middle.mem_iff.mpr (.tail _ hx), fun _ hr => ?_⟩
        exact (List.nodup_cons.mp hnd).1 (List.mem_map.mpr ⟨x, hx, by rw [hr, hdr]⟩)
    · -- it exists already
      rename_i hp
      have hr := (h.real d hd (by simpa using hp)).1
      refine h.concat hnext h.sorted h.nodup hself fun x hx => .inr ⟨hx, fun hp' hr' => ?_⟩
      rw [hdr, ← hr'] at hr
      exact (h.held x hx hp').2 hr

/-- The entry without its `next`. -/
def unlinked (e : DeltaEntry) : DeltaEntry := { e with next := none }

/-- The `next` is put into the table behind its entry, unless this is dropped. -/
theorem importdelta_eq (table : List RoDelta) (e : DeltaEntry) :
    importdelta table e = importdelta table (unlinked e) ∧
        (∃ d ∈ table, d.revnum = e.revnum ∧ d.placeholder = false) ∨
      importdelta table e = importnext e.next (importdelta table (unlinked e)) ∧
        ∀ d, table.find? (fun d => d.revnum = e.revnum) = some d → d.placeholder = true := by
  cases hfind : table.find? fun d => decide (d.revnum = e.revnum) with
  | none =>
    refine .inr ⟨?_, by simp⟩
    unfold importdelta unlinked
    dsimp only
    rw [hfind]
    rfl
  | some d =>
    by_cases hp : d.placeholder = true
    · refine .inr ⟨?_, fun d' hd' => Option.some.inj hd' ▸ hp⟩
      unfold importdelta unlinked
      dsimp only
      rw [hfind]
      dsimp only
      rw [if_pos hp, if_pos hp]
      rfl
    · refine .inl ⟨?_, d, List.mem_of_find?_eq_some hfind, by simpa using List.find?_some hfind,
        by simpa using hp⟩
      unfold importdelta unlinked
      dsimp only
      rw [hfind]
      dsimp only
      rw [if_neg hp, if_neg hp]

/-- An entry, with its `next`, which no entry so far has named or is about. -/
def Fresh (pre : List DeltaEntry) (e : DeltaEntry) : Prop :=
  ∀ r, e.revnum ∉ pre.map DeltaEntry.revnum → e.next = some r →
    r ∉ (pre ++ [e]).map DeltaEntry.revnum ∧ ¬Names pre r

theorem find?_unlinked (r : Revnum) :
    ((pre ++ [unlinked e]).find? fun e => e.revnum = r).map DeltaEntry.revdate =
      ((pre ++ [e]).find? fun e => e.revnum = r).map DeltaEntry.revdate := by
  rw [List.find?_append, List.find?_append]
  cases pre.find? fun e => decide (e.revnum = r) with
  | some x => rfl
  | none =>
    by_cases h : e.revnum = r
    · simp [unlinked, h]
    · simp [unlinked, h]

/-- The table with the `next` of the entry. -/
theorem Table.link (h : Table (pre ++ [unlinked e]) table) {table' : List RoDelta}
    (hsorted : (table'.map RoDelta.revnum).Pairwise fun a b => rcsnumCmp a b ≠ .gt)
    (hnodup : (table'.map RoDelta.revnum).Nodup)
    (hrevs : ∀ r, r ∈ table'.map RoDelta.revnum ↔ r ∈ table.map RoDelta.revnum ∨
      e.revnum ∉ pre.map DeltaEntry.revnum ∧ e.next = some r)
    (hdelta : ∀ x ∈ table', x ∈ table ∨ x.placeholder = true ∧ x.revdate = none ∧
      x.revnum ∉ (pre ++ [e]).map DeltaEntry.revnum) : Table (pre ++ [e]) table' := by
  have hmap : (pre ++ [unlinked e]).map DeltaEntry.revnum = (pre ++ [e]).map DeltaEntry.revnum := by
    simp [unlinked]
  have hnames (r : Revnum) : Names (pre ++ [unlinked e]) r ↔ Names pre r := by
    rw [names_concat]
    simp [unlinked]
  refine ⟨hsorted, hnodup, fun r => ?_, fun x hx hp => ?_, fun x hx hp => ?_⟩
  · rw [hrevs, h.mem, hmap, hnames, names_concat, or_assoc]
  · rcases hdelta x hx with hx | ⟨hp', -⟩
    · obtain ⟨hr, hdate⟩ := h.real x hx hp
      exact ⟨hmap ▸ hr, by rw [← find?_unlinked]; exact hdate⟩
    · rw [hp] at hp'
      cases hp'
  · rcases hdelta x hx with hx | ⟨-, hdate, hr⟩
    · obtain ⟨hdate, hr⟩ := h.held x hx hp
      exact ⟨hdate, hmap ▸ hr⟩
    · exact ⟨hdate, hr⟩

theorem mem_revnums_importnext {next : Option Revnum} {r : Revnum} :
    r ∈ (importnext next table).map RoDelta.revnum ↔
      r ∈ table.map RoDelta.revnum ∨ next = some r := by
  cases next with
  | none => simp [importnext]
  | some next =>
    refine ((insertsorted_perm _ table).map RoDelta.revnum).mem_iff.trans ?_
    rw [List.map_cons, List.mem_cons, or_comm, Option.some.injEq, eq_comm]

/-- No delta of the entry's number that is no placeholder. -/
theorem Table.not_mem_of_find? (h : Table pre table)
    (hfind : ∀ d, table.find? (fun d => d.revnum = e.revnum) = some d → d.placeholder = true) :
    e.revnum ∉ pre.map DeltaEntry.revnum := by
  intro hr
  have hsome : (table.find? fun d => decide (d.revnum = e.revnum)).isSome := by
    obtain ⟨d, hd, hdr, -⟩ := h.exists_real hr
    exact List.find?_isSome.mpr ⟨d, hd, by simp [hdr]⟩
  obtain ⟨d, hd⟩ := Option.isSome_iff_exists.mp hsome
  have hdr : d.revnum = e.revnum := by simpa using List.find?_some hd
  exact (h.held d (List.mem_of_find?_eq_some hd) (hfind d hd)).2 (hdr ▸ hr)

theorem Table.step (h : Table pre table) (hfresh : Fresh pre e) :
    Table (pre ++ [e]) (importdelta table e) := by
  have hentry : Table (pre ++ [unlinked e]) (importdelta table (unlinked e)) := h.entry rfl
  rcases importdelta_eq table e with ⟨heq, d, hd, hdr, hp⟩ | ⟨heq, hfind⟩
  · rw [heq]
    have hr : e.revnum ∈ pre.map DeltaEntry.revnum := hdr ▸ (h.real d hd hp).1
    exact hentry.link hentry.sorted hentry.nodup (fun r => by simp [hr]) fun x hx => .inl hx
  · have hfirst := h.not_mem_of_find? hfind
    have hrevs (r : Revnum) := @mem_revnums_importnext (importdelta table (unlinked e)) e.next r
    rw [heq]
    cases hnext : e.next with
    | none =>
      exact hentry.link hentry.sorted hentry.nodup (fun r => by simp [hnext, importnext])
        fun x hx => .inl hx
    | some next =>
      obtain ⟨hr, hnames⟩ := hfresh next hfirst hnext
      have hnot : next ∉ (importdelta table (unlinked e)).map RoDelta.revnum := by
        rw [hentry.mem, names_concat]
        simpa [unlinked, hnames] using hr
      rw [hnext] at hrevs
      refine hentry.link (sorted_insertsorted hentry.sorted) ?_ (fun r => ?_) fun x hx => ?_
      · exact ((insertsorted_perm _ _).map RoDelta.revnum).nodup_iff.mpr
          (List.nodup_cons.mpr ⟨hnot, hentry.nodup⟩)
      · rw [hnext]
        exact (hrevs r).trans (or_congr_right (and_iff_right hfirst).symm)
      · rcases mem_insertsorted.mp hx with rfl | hx
        · exact .inr ⟨rfl, rfl, hr⟩
        · exact .inl hx

/-- Where no number is in the table twice, the entry was fresh. -/
theorem Table.fresh (h : Table pre table)
    (hnd : ((importdelta table e).map RoDelta.revnum).Nodup) : Fresh pre e := by
  intro next hfirst hnext
  have hentry : Table (pre ++ [unlinked e]) (importdelta table (unlinked e)) := h.entry rfl
  rcases importdelta_eq table e with ⟨heq, d, hd, hdr, hp⟩ | ⟨heq, hfind⟩
  · exact absurd (hdr ▸ (h.real d hd hp).1) hfirst
  · rw [heq, hnext] at hnd
    have hnot := (List.nodup_cons.mp
      (((insertsorted_perm _ _).map RoDelta.revnum).nodup_iff.mp hnd)).1
    rw [hentry.mem, names_concat] at hnot
    simpa [unlinked, not_or] using hnot

theorem nodup_of_insertsorted {d : RoDelta}
    (hnd : ((insertsorted d table).map RoDelta.revnum).Nodup) : (table.map RoDelta.revnum).Nodup :=
  (List.nodup_cons.mp (((insertsorted_perm _ _).map RoDelta.revnum).nodup_iff.mp hnd)).2

theorem nodup_of_importnext {next : Option Revnum}
    (hnd : ((importnext next table).map RoDelta.revnum).Nodup) :
    (table.map RoDelta.revnum).Nodup := by
  cases next with
  | none => exact hnd
  | some next => exact nodup_of_insertsorted hnd

/-- No entry removes a number. -/
theorem nodup_of_importdelta (hnd : ((importdelta table e).map RoDelta.revnum).Nodup) :
    (table.map RoDelta.revnum).Nodup := by
  unfold importdelta at hnd
  split at hnd
  · exact nodup_of_insertsorted (nodup_of_importnext hnd)
  · rename_i d hfind
    split at hnd
    · obtain ⟨a, b, rfl, hmod⟩ := modifyFirst_of_find?
        (fun d : RoDelta => { d with revdate := some e.revdate, placeholder := false }) hfind
      rw [hmod] at hnd
      simpa using nodup_of_importnext hnd
    · exact hnd

/-! ## The table of a file -/

theorem table_nil : Table [] [] :=
  ⟨.nil, .nil, fun r => by simp [Names], by simp, by simp⟩

variable {es : List DeltaEntry}

theorem table_foldl (h : ∀ pre e post, es = pre ++ e :: post → Fresh pre e) :
    Table es (es.foldl importdelta []) := by
  induction es using List.reverseRecOn with
  | nil => exact table_nil
  | append_singleton pre e ih =>
    rw [List.foldl_append]
    exact (ih fun p x q hq => h p x (q ++ [e]) (by simp [hq])).step (h pre e [] rfl)

theorem fresh_of_nodup (h : ((es.foldl importdelta []).map RoDelta.revnum).Nodup) :
    ∀ pre e post, es = pre ++ e :: post → Fresh pre e := by
  induction es using List.reverseRecOn with
  | nil => simp
  | append_singleton pre e ih =>
    rw [List.foldl_append] at h
    have hfresh := ih (nodup_of_importdelta h)
    intro p x q hq
    rcases append_singleton_eq.mp hq with ⟨-, rfl, rfl⟩ | ⟨q', -, hq⟩
    · exact (table_foldl hfresh).fresh h
    · exact hfresh p x q' hq

/-- The placeholders that are left are the numbers without an entry. -/
theorem linked_iff : Linked es ↔ (∀ pre e post, es = pre ++ e :: post → Fresh pre e) ∧
    ∀ r, Names es r → r ∈ es.map DeltaEntry.revnum := by
  constructor
  · intro h
    refine ⟨fun pre e post hes r hfirst hnext => ?_, ?_⟩
    · obtain ⟨hr, hnames, -⟩ := h pre e post r hes hfirst hnext
      exact ⟨hr, hnames⟩
    · rintro r ⟨pre, e, post, rfl, hfirst, hnext⟩
      obtain ⟨-, -, hr⟩ := h pre e post r rfl hfirst hnext
      rw [List.map_append, List.map_cons]
      exact List.mem_append_right _ (.tail _ hr)
  · rintro ⟨hfresh, hnames⟩ pre e post r rfl hfirst hnext
    obtain ⟨hr, hno⟩ := hfresh pre e post rfl r hfirst hnext
    refine ⟨hr, hno, ?_⟩
    have := hnames r ⟨pre, e, post, rfl, hfirst, hnext⟩
    rw [List.append_cons, List.map_append, List.mem_append] at this
    exact this.resolve_left hr

/-! ## The lines -/

theorem printPair_eq (s t : List Byte) : printPair s t = some (pairLine (cstr s, cstr t)) := by
  have h := protoPrintf_strs (List.cons_ne_nil (cstr s) [cstr t])
  have hjoin : joined ([cstr s, cstr t].map protoEscape) ++ [nl] = pairLine (cstr s, cstr t) := by
    simp [joined, pairLine]
  rw [hjoin] at h
  exact h

theorem pairLine_injective : Function.Injective pairLine := by
  intro p q h
  have hno (s : List Byte) : 32 ∉ protoEscape s := notMem_protoEscape s (.inl rfl)
  have hend : 32 ∉ protoEscape p.2 ++ [nl] := by
    rw [List.mem_append, not_or]
    exact ⟨hno p.2, by decide⟩
  obtain ⟨h₁, -, h₂⟩ := (List.append_cons_inj_of_notMem (hno p.1) hend).mp h
  have hinj {s t : List Byte} (hst : protoEscape s = protoEscape t) : s = t := by
    rw [← protoUnescape_protoEscape s, hst, protoUnescape_protoEscape]
  exact Prod.ext (hinj h₁) (hinj (List.append_cancel_right h₂))

theorem mapM_some {α β : Type} (f : α → β) (l : List α) :
    (l.mapM fun a => some (f a)) = some (l.map f) := by
  induction l with
  | nil => rfl
  | cons a l ih => simp [List.mapM_cons, ih]

/-- The lines of the deltas are those of pairs, where all dates are there. -/
theorem mapM_deltas {lines : List (List Byte)} :
    table.mapM (fun d => d.revdate.bind (printPair d.revnum)) = some lines ↔
      ∃ ds : List (Revnum × List Byte),
        table.map (fun d => (d.revnum, d.revdate)) = ds.map (fun p => (p.1, some p.2)) ∧
        lines = ds.map fun p => pairLine (cstr p.1, cstr p.2) := by
  induction table generalizing lines with
  | nil =>
    constructor
    · intro h
      exact ⟨[], rfl, (Option.some.inj h).symm⟩
    · rintro ⟨ds, hds, rfl⟩
      rw [List.map_eq_nil_iff.mp hds.symm]
      rfl
  | cons d table ih =>
    simp only [List.mapM_cons, bind, pure, Option.bind_eq_some_iff, printPair_eq]
    constructor
    · rintro ⟨line, ⟨date, hdate, hline⟩, lines', hlines', hall⟩
      obtain ⟨ds, hds, rfl⟩ := ih.mp hlines'
      obtain rfl := Option.some.inj hline
      obtain rfl := Option.some.inj hall
      exact ⟨(d.revnum, date) :: ds, by rw [List.map_cons, List.map_cons, hds, hdate], rfl⟩
    · rintro ⟨ds, hds, rfl⟩
      match ds, hds with
      | (revnum, date) :: ds, hds =>
        obtain ⟨hd, htl⟩ := List.cons.inj hds
        obtain ⟨rfl, hdate⟩ := Prod.mk.inj hd
        exact ⟨_, ⟨date, hdate, rfl⟩, _, ih.mpr ⟨ds, htl, rfl⟩, rfl⟩

/-- What is sent, where no date is missing. -/
theorem sendDetails_eq (name : List Byte) (rf : Admin) (table : List RoDelta) :
    ∃ v b e, ∀ out, sendDetails name rf table = some out ↔ ∃ ds : List (Revnum × List Byte),
      table.map (fun d => (d.revnum, d.revdate)) = ds.map (fun p => (p.1, some p.2)) ∧
      out = sections v b e (rf.taglist.map fun t => (cstr t.1, cstr t.2))
        (ds.map fun p => (cstr p.1, cstr p.2)) := by
  have hv : protoPrintf (bytes "V %s\n".toList) [.str (cstr name)] =
      some (86 :: 32 :: (protoEscape (cstr name) ++ [nl])) := rfl
  have he : protoPrintf (bytes "E %s\n".toList) [.str (keywordEncodeExpand rf.expand)] =
      some (69 :: 32 :: (protoEscape (keywordEncodeExpand rf.expand) ++ [nl])) := rfl
  obtain ⟨b, hb⟩ : ∃ b, printBranch rf.branch = some b := by
    cases rf.branch with
    | none => exact ⟨[98, nl], rfl⟩
    | some branch => exact ⟨66 :: 32 :: (protoEscape (cstr branch) ++ [nl]), rfl⟩
  refine ⟨86 :: 32 :: (protoEscape (cstr name) ++ [nl]), b,
    69 :: 32 :: (protoEscape (keywordEncodeExpand rf.expand) ++ [nl]), fun out => ?_⟩
  have htags : (rf.taglist.mapM fun t => printPair t.1 t.2) =
      some (rf.taglist.map fun t => pairLine (cstr t.1, cstr t.2)) := by
    simp only [printPair_eq]
    exact mapM_some _ _
  unfold sendDetails
  rw [hv, hb, he, htags]
  simp only [bind, Option.bind_some, Option.bind_eq_some_iff, mapM_deltas, pure, Option.some.injEq,
    sections, List.map_map, Function.comp_def]
  constructor
  · rintro ⟨lines, ⟨ds, hds, rfl⟩, rfl⟩
    exact ⟨ds, hds, rfl⟩
  · rintro ⟨ds, hds, rfl⟩
    exact ⟨_, ⟨ds, hds, rfl⟩, rfl⟩

theorem sections_inj {v b e v' b' e' : List Byte} {tags tags' ds ds' : List (List Byte × List Byte)}
    (hlen : tags.length = tags'.length) (h : sections v b e tags ds = sections v' b' e' tags' ds') :
    tags = tags' ∧ ds = ds' := by
  unfold sections at h
  have hmid := List.append_inj_left' h rfl
  rw [List.append_assoc, List.append_assoc, List.append_assoc, List.append_assoc] at hmid
  have hrest := (List.append_inj hmid rfl).2
  obtain ⟨htags, hrest⟩ := List.append_inj hrest (by simpa using hlen)
  have hds := (List.append_inj hrest rfl).2
  exact ⟨List.map_injective_iff.mpr pairLine_injective htags,
    List.map_injective_iff.mpr pairLine_injective hds⟩

theorem cstr_eq_self {s : List Byte} : cstr s = s ↔ 0 ∉ s := by
  refine ⟨fun h => ?_, cstr_of_notMem⟩
  rw [← h]
  exact zero_notMem_cstr s

/-- The deltas of a table without a placeholder. -/
theorem exists_pairs (h : ∀ d ∈ table, ∃ date, d.revdate = some date) :
    ∃ ds : List (Revnum × List Byte),
      table.map (fun d => (d.revnum, d.revdate)) = ds.map fun p => (p.1, some p.2) := by
  induction table with
  | nil => exact ⟨[], rfl⟩
  | cons d table ih =>
    obtain ⟨date, hdate⟩ := h d List.mem_cons_self
    obtain ⟨ds, hds⟩ := ih fun d hd => h d (.tail _ hd)
    exact ⟨(d.revnum, date) :: ds, by rw [List.map_cons, List.map_cons, hds, hdate]⟩

/-- What is sent of a table is its deltas. -/
theorem pairs_spec {ds : List (Revnum × List Byte)}
    (h : table.map (fun d => (d.revnum, d.revdate)) = ds.map fun p => (p.1, some p.2)) :
    ds.map Prod.fst = table.map RoDelta.revnum ∧
      (∀ p ∈ ds, ∃ d ∈ table, d.revnum = p.1 ∧ d.revdate = some p.2) ∧
      ∀ d ∈ table, ∃ p ∈ ds, d.revnum = p.1 ∧ d.revdate = some p.2 := by
  refine ⟨?_, fun p hp => ?_, fun d hd => ?_⟩
  · have := congrArg (List.map Prod.fst) h
    simpa [List.map_map, Function.comp_def] using this.symm
  · obtain ⟨d, hd, heq⟩ := List.mem_map.mp (h ▸ List.mem_map_of_mem hp :
      (p.1, some p.2) ∈ table.map fun d => (d.revnum, d.revdate))
    obtain ⟨hrev, hdate⟩ := Prod.mk.inj heq
    exact ⟨d, hd, hrev, hdate⟩
  · obtain ⟨p, hp, heq⟩ := List.mem_map.mp (h ▸ List.mem_map_of_mem hd :
      (d.revnum, d.revdate) ∈ ds.map fun p => (p.1, some p.2))
    obtain ⟨hrev, hdate⟩ := Prod.mk.inj heq
    exact ⟨p, hp, hrev.symm, hdate.symm⟩

/-- A file whose deltas are linked in order. -/
theorem lists_of_linked (hlinked : Linked es) (hnul : ∀ e ∈ es, 0 ∉ e.revnum ∧ 0 ∉ e.revdate) :
    ∃ ds : List (Revnum × List Byte), (es.foldl importdelta []).map (fun d => (d.revnum, d.revdate)) =
      ds.map (fun p => (p.1, some p.2)) ∧ (ds.map fun p => (cstr p.1, cstr p.2)) = ds ∧ Lists es ds := by
  obtain ⟨hfresh, hnames⟩ := linked_iff.mp hlinked
  have htable := table_foldl hfresh
  have hreal (d : RoDelta) (hd : d ∈ es.foldl importdelta []) : d.placeholder = false := by
    by_contra hp
    have hno := (htable.held d hd (by simpa using hp)).2
    rcases (htable.mem d.revnum).mp (List.mem_map_of_mem hd) with hr | hr
    · exact hno hr
    · exact hno (hnames _ hr)
  -- the date is that of an entry
  have hentry (d : RoDelta) (hd : d ∈ es.foldl importdelta []) : ∃ e ∈ es,
      e.revnum = d.revnum ∧ d.revdate = some e.revdate ∧
        (es.find? fun e => e.revnum = d.revnum).map DeltaEntry.revdate = d.revdate := by
    obtain ⟨hr, hdate⟩ := htable.real d hd (hreal d hd)
    obtain ⟨x, hx, hxr⟩ := List.mem_map.mp hr
    obtain ⟨e, he⟩ := Option.isSome_iff_exists.mp
      (List.find?_isSome.mpr ⟨x, hx, by simpa using hxr⟩ :
        (es.find? fun e => decide (e.revnum = d.revnum)).isSome)
    refine ⟨e, List.mem_of_find?_eq_some he, by simpa using List.find?_some he, ?_, hdate⟩
    rw [← hdate, he]
    rfl
  obtain ⟨ds, hds⟩ := exists_pairs fun d hd => by
    obtain ⟨e, -, -, hdate, -⟩ := hentry d hd
    exact ⟨e.revdate, hdate⟩
  obtain ⟨hfst, hpair, -⟩ := pairs_spec hds
  refine ⟨ds, hds, ?_, ?_, ?_, ?_, ?_⟩
  · refine (List.map_congr_left fun p hp => ?_).trans (List.map_id ds)
    obtain ⟨d, hd, hrev, hdate⟩ := hpair p hp
    obtain ⟨e, he, hrev', hdate', -⟩ := hentry d hd
    obtain ⟨hr, hz⟩ := hnul e he
    rw [hdate'] at hdate
    rw [← hrev, ← hrev', ← Option.some.inj hdate, cstr_eq_self.mpr hr, cstr_eq_self.mpr hz,
      hrev', hrev, Option.some.inj hdate]
    rfl
  · rw [hfst]
    exact htable.nodup
  · intro r
    rw [hfst, htable.mem]
    exact ⟨fun h => h.elim id (hnames r), .inl⟩
  · have := htable.sorted
    rw [← hfst, List.pairwise_map] at this
    exact this
  · intro p hp
    obtain ⟨d, hd, hrev, hdate⟩ := hpair p hp
    obtain ⟨e, -, -, -, hfind⟩ := hentry d hd
    rw [← hrev, hfind, hdate]

/-- The other way around. -/
theorem linked_of_lists {ds ds' : List (Revnum × List Byte)}
    (htable : (es.foldl importdelta []).map (fun d => (d.revnum, d.revdate)) =
      ds'.map (fun p => (p.1, some p.2)))
    (hcut : (ds'.map fun p => (cstr p.1, cstr p.2)) = ds) (hlists : Lists es ds) : Linked es := by
  obtain ⟨hfst, -, hdate⟩ := pairs_spec htable
  have hnd : ((es.foldl importdelta []).map RoDelta.revnum).Nodup := by
    have := hlists.nodup
    rw [← hcut, List.map_map, show (Prod.fst ∘ fun p : Revnum × List Byte => (cstr p.1, cstr p.2)) =
      cstr ∘ Prod.fst from rfl, ← List.map_map, hfst] at this
    exact List.Nodup.of_map cstr this
  have hfresh := fresh_of_nodup hnd
  have ht := table_foldl hfresh
  refine linked_iff.mpr ⟨hfresh, fun r hr => ?_⟩
  obtain ⟨d, hd, rfl⟩ := List.mem_map.mp ((ht.mem r).mpr (.inr hr))
  obtain ⟨p, -, -, hsome⟩ := hdate d hd
  by_contra hno
  have hp : d.placeholder = true := by
    by_contra hp
    exact hno (ht.real d hd (by simpa using hp)).1
  rw [(ht.held d hd hp).1] at hsome
  cases hsome

/-- `rcsparse` succeeds on the file, and what is then sent of it lists its symbols and its
deltas just where the deltas are linked in order and no symbol has a NUL in it. -/
theorem sendDetails_iff (name content : List Byte) (rf : Admin) (table : List RoDelta)
    (h : rcsparseRo content = .ok (rf, table)) :
    ∃ es, fileParts content = some (rf, es) ∧
      ((∃ out, sendDetails name rf table = some out ∧ SentAs rf es out) ↔
        Linked es ∧ ∀ t ∈ rf.taglist, 0 ∉ t.1) := by
  obtain ⟨es, table', lex, lex', hparts, hfold, hrest⟩ := rcsparse_ok h
  have hfold' : Except.ok (es.foldl importdelta []) = Except.ok table' :=
    (List.foldlM_pure (m := Except Stop)).symm.trans hfold
  have htable : table = table' := by
    obtain ⟨_, lex₁, -, hrest⟩ := bind_eq_ok.mp hrest
    obtain ⟨_, lex₂, -, hrest⟩ := bind_eq_ok.mp hrest
    exact (Prod.mk.inj (Except.ok.inj hrest)).1.symm
  obtain rfl := htable.trans (Except.ok.inj hfold').symm
  obtain ⟨hnum, hnul⟩ := zero_notMem_fileParts hparts
  obtain ⟨v, b, e, hsend⟩ := sendDetails_eq name rf (es.foldl importdelta [])
  refine ⟨es, hparts, ?_⟩
  constructor
  · rintro ⟨out, hout, v', b', e', ds, hsec, hlists⟩
    obtain ⟨ds', hds', rfl⟩ := (hsend out).mp hout
    obtain ⟨htags, hds⟩ := sections_inj (by simp) hsec
    refine ⟨linked_of_lists hds' hds hlists, fun t ht => ?_⟩
    have := List.map_eq_map_iff.mp (htags.trans (List.map_id rf.taglist).symm) t ht
    exact cstr_eq_self.mp (Prod.mk.inj this).1
  · rintro ⟨hlinked, htags⟩
    obtain ⟨ds, hds, hcut, hlists⟩ := lists_of_linked hlinked hnul
    refine ⟨_, (hsend _).mpr ⟨ds, hds, rfl⟩, v, b, e, ds, ?_, hlists⟩
    have hcut' : (rf.taglist.map fun t => (cstr t.1, cstr t.2)) = rf.taglist := by
      refine (List.map_congr_left fun t ht => ?_).trans (List.map_id rf.taglist)
      rw [cstr_eq_self.mpr (htags t ht), cstr_eq_self.mpr (hnum t ht)]
      rfl
    rw [hcut, hcut']

/-- Two deltas and a symbol, in the order they stand in when this program has written them. -/
def twoDeltas : List Byte :=
  bytes "head 1.2;access;symbols r:1.1;locks;\n1.2 date 3;author a;state;branches;next 1.1;\n".toList ++
    bytes "1.1 date 2;author a;state;branches;next;\ndesc @@\n".toList

def twoAdmin : Admin :=
  ⟨bytes "1.2".toList, none, [], [(bytes "r".toList, bytes "1.1".toList)], false, none, .default⟩

theorem sendDetails_iff_twoDeltas : ∃ es, fileParts twoDeltas = some (twoAdmin, es) ∧
    ((∃ out, sendDetails [102] twoAdmin
        [⟨bytes "1.1".toList, some [50], false⟩, ⟨bytes "1.2".toList, some [51], false⟩] = some out ∧
      SentAs twoAdmin es out) ↔ Linked es ∧ ∀ t ∈ twoAdmin.taglist, 0 ∉ t.1) :=
  sendDetails_iff [102] twoDeltas twoAdmin _ (by decide +kernel)

/-- The same deltas in the other order: `next` names a delta that is there. -/
def twoReversed : List Byte :=
  bytes "head 1.2;access;symbols r:1.1;locks;\n1.1 date 2;author a;state;branches;next;\n".toList ++
    bytes "1.2 date 3;author a;state;branches;next 1.1;\ndesc @@\n".toList

theorem not_sendDetails : ∃ table es, rcsparseRo twoReversed = .ok (twoAdmin, table) ∧
    fileParts twoReversed = some (twoAdmin, es) ∧
    ¬∃ out, sendDetails [102] twoAdmin table = some out ∧ SentAs twoAdmin es out := by
  have hparse : rcsparseRo twoReversed = .ok (twoAdmin, [⟨bytes "1.1".toList, none, true⟩,
      ⟨bytes "1.1".toList, some [50], false⟩, ⟨bytes "1.2".toList, some [51], false⟩]) := by
    decide +kernel
  obtain ⟨es, -, -, -, hparts, -, -⟩ := rcsparse_ok hparse
  refine ⟨_, es, hparse, hparts, ?_⟩
  rintro ⟨out, hout, -⟩
  cases hout

end Csup.Rcsparse
