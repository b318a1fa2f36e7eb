import Csup.Status.Merge

/-!
# What a run makes of a status file

What `status_put` and `status_delete` have written is the merge of the records they have
passed by, with the directories opened and closed around them (`Stage`); `status_close`
copies the rest.

* `session_fills`: the file behind the calls and `status_close`;
* `session_wellFormed`: it is sorted and nested;
* `session_merges`: its files are those of the merge.
-/

namespace Csup.Status

open Csup.Framework
open Csup.Proto

/-! ## Runs -/

/-- The records that a search passes by. -/
def passed (key : StatusRec) (left : List StatusRec) : List StatusRec :=
  left.takeWhile fun sr => statusrecCmp sr key < 0

/-- The records behind the place of a key. -/
def behind (key : StatusRec) (left : List StatusRec) : List StatusRec :=
  left.dropWhile fun sr => statusrecCmp sr key ≤ 0

/-- What is passed by can be written: the first record with its fields (`Q`), and the others
as they are. -/
def Passes (Q : StatusRec → Prop) (key : StatusRec) (left : List StatusRec) : Prop :=
  (∀ sr ∈ (passed key left).head?, Q sr) ∧ ∀ sr ∈ (passed key left).tail, Kept sr

/-- What is left can be written by `status_close`: the record that is kept with its fields,
and the others as they are. Where no record is kept, the directory of the first one is open. -/
def Ends (Q : StatusRec → Prop) (st : Handle) (left : List StatusRec) : Prop :=
  (∀ sr, st.current = some sr → Q sr ∧ ∀ x ∈ left.tail, Kept x) ∧
    (st.current = none → (∀ x ∈ left, Kept x) ∧ ∀ sr ∈ left.head?, Placed st.pc sr)

/-- Each of the calls can write what it passes by, and `status_close` what is left then. -/
def Orderly (env : Env) (Q : StatusRec → Prop) : Handle → List StatusRec → List Op → Prop
  | st, left, [] => st.dirty = true → Ends Q st left
  | st, left, op :: ops => Passes Q op.key left ∧
    ∀ st', op.run env st = .ok (st', true) → Orderly env Q st' (behind op.key left) ops

section

variable {env : Env} {R : StatusRec → Option (List Byte) → Prop} {Q : StatusRec → Prop}
  {head : List Byte} {recs left done : List StatusRec} {all ops : List Op} {op : Op}
  {sr r : StatusRec} {st : Handle}

/-- A place in a run: some of the calls have been made, and what they have passed by is
written, merged with them. -/
structure Stage (env : Env) (R : StatusRec → Option (List Byte) → Prop) (head : List Byte)
    (recs : List StatusRec) (all : List Op) (st : Handle) (done left : List StatusRec)
    (ops : List Op) : Prop where
  wrote : Wrote R head st.toState done
  remains : Remains env st left
  recsLeft : left <:+ recs
  opsLeft : ops <:+ all
  split : done ++ merged left ops = merged recs all
  clean : st.dirty = false → done ++ left = recs

theorem inLine_suffix (h : Mergeable recs all) (hleft : left <:+ recs) :
    ∃ d, InLine d (left.map StatusRec.mark) := by
  obtain ⟨pre, rfl⟩ := hleft
  have hline := h.nested.marks.1.inLine
  rw [List.map_append, inLine_append] at hline
  exact ⟨_, hline.2⟩

/-- What is behind a record of the file can be copied. -/
theorem copies_tail (h : Mergeable recs all) {pre rest : List StatusRec}
    (hleft : sr :: (pre ++ rest) <:+ recs) (hk : ∀ x ∈ pre, Kept x) :
    Copies sr.mark.after pre := by
  obtain ⟨d, hline⟩ := inLine_suffix h hleft
  rw [List.map_cons, List.map_append] at hline
  exact ⟨hk, fun x hx => h.nested.marks.2 x (hleft.subset (by simp [hx])),
    (inLine_append.mp hline.2).1⟩

/-- The place of a call: what is passed by, at most one record that is found, and what is
behind it. -/
structure Place (op : Op) (left here : List StatusRec) : Prop where
  split : left = passed op.key left ++ (here ++ behind op.key left)
  searched : searched op.key left = here ++ behind op.key left
  passed : passed op.key left = below rank (op.update.rank rank) left
  behind : behind op.key left = above rank (op.update.rank rank) left
  lt : ∀ sr ∈ Status.passed op.key left, statusrecCmp sr op.key < 0
  ge : ∀ sr ∈ (here ++ Status.behind op.key left).head?, 0 ≤ statusrecCmp sr op.key
  found : here = [] ∧ (∀ sr ∈ (Status.behind op.key left).head?, statusrecCmp sr op.key ≠ 0) ∨
    ∃ sr, here = [sr] ∧ statusrecCmp sr op.key = 0 ∧ sr.file = op.name

theorem Mergeable.place (h : Mergeable recs all) (hleft : left <:+ recs) (hop : op ∈ all) :
    ∃ here, Place op left here := by
  have hsorted := h.sorted_rank.sublist hleft.sublist
  obtain ⟨here, hl, hhere⟩ := exists_at (k := op.update.rank rank) hsorted
  have hrank := h.rank_update hop
  have hcmp : ∀ x ∈ left, (statusrecCmp x op.key < 0 ↔ rank x < op.update.rank rank) ∧
      (statusrecCmp x op.key = 0 ↔ rank x = op.update.rank rank) := by
    intro x hx
    have hxr := hleft.subset hx
    rw [hrank]
    exact cmp_key (h.names op hop) (h.nested.marks.2 x hxr)
      (h.apart _ (mem_namesOf_left hxr) _ (mem_namesOf_right hop))
  have hmem {x : StatusRec} (hx : x ∈ below rank (op.update.rank rank) left ∨ x ∈ here ∨
      x ∈ above rank (op.update.rank rank) left) : x ∈ left := by
    rw [hl]
    simpa [or_assoc] using hx
  have hbelow : ∀ x ∈ below rank (op.update.rank rank) left, statusrecCmp x op.key < 0 :=
    fun x hx => (hcmp x (hmem (.inl hx))).1.mpr (lt_of_mem_below hx)
  have heq : ∀ x ∈ here, statusrecCmp x op.key = 0 :=
    fun x hx => (hcmp x (hmem (.inr (.inl hx)))).2.mpr (hhere x hx)
  have habove : ∀ x ∈ above rank (op.update.rank rank) left, 0 < statusrecCmp x op.key := by
    intro x hx
    have hgt := lt_of_mem_above hsorted hx
    obtain ⟨hlt, hzero⟩ := hcmp x (hmem (.inr (.inr hx)))
    have hlt := mt hlt.mp (lt_asymm hgt)
    have hzero := mt hzero.mp hgt.ne'
    omega
  have hge : ∀ x ∈ here ++ above rank (op.update.rank rank) left, 0 ≤ statusrecCmp x op.key := by
    intro x hx
    rcases List.mem_append.mp hx with hx | hx
    · exact (heq x hx).ge
    · exact (habove x hx).le
  have hsplit : left = below rank (op.update.rank rank) left ++
      (here ++ above rank (op.update.rank rank) left) := by
    rwa [List.append_assoc] at hl
  have hsearch := @while_append _ (fun sr => decide (statusrecCmp sr op.key < 0))
    (below rank (op.update.rank rank) left) (here ++ above rank (op.update.rank rank) left)
    (fun x hx => decide_eq_true (hbelow x hx))
    (fun x hx => decide_eq_false (not_lt.mpr (hge x (List.mem_of_mem_head? hx))))
  have hbehind := (@while_append _ (fun sr => decide (statusrecCmp sr op.key ≤ 0))
    (below rank (op.update.rank rank) left ++ here) (above rank (op.update.rank rank) left)
    (fun x hx => by
      rcases List.mem_append.mp hx with hx | hx
      · exact decide_eq_true (hbelow x hx).le
      · exact decide_eq_true (heq x hx).le)
    (fun x hx => decide_eq_false (not_le.mpr (habove x (List.mem_of_mem_head? hx))))).2
  rw [← hsplit] at hsearch
  rw [← hl] at hbehind
  have hpassed : passed op.key left = _ := hsearch.1
  have hbehind : behind op.key left = _ := hbehind
  refine ⟨here, ?_, ?_, hpassed, hbehind, hpassed ▸ hbelow, ?_, ?_⟩
  · rw [hpassed, hbehind]
    exact hsplit
  · rw [hbehind]
    exact hsearch.2
  · rw [hbehind]
    exact fun x hx => hge x (List.mem_of_mem_head? hx)
  · rw [hbehind]
    -- the ranks of two records differ
    rcases here with - | ⟨x, here⟩
    · exact .inl ⟨rfl, fun y hy => (habove y (List.mem_of_mem_head? hy)).ne'⟩
    · refine .inr ⟨x, ?_, heq x (.head _), ?_⟩
      · rcases here with - | ⟨y, here⟩
        · rfl
        · rw [hsplit] at hsorted
          have hxy := List.rel_of_pairwise_cons (List.pairwise_append.mp
            (List.pairwise_append.mp hsorted).2.1).1 (.head _)
          rw [hhere x (.head _), hhere y (.tail _ (.head _))] at hxy
          exact absurd hxy (lt_irrefl _)
      · exact (file_of_rank ((hhere x (.head _)).trans hrank)).1

theorem merged_cons (left : List StatusRec) (op : Op) (ops : List Op) :
    merged left (op :: ops) = below rank (op.update.rank rank) left ++
      (op.update.added ++ merged (above rank (op.update.rank rank) left) ops) := by
  rw [merged, List.map_cons, updated, List.append_assoc]
  rfl

/-- A record that is found is cleared. -/
theorem Remains.clear {srs : List StatusRec} (h : Remains env st (sr :: srs))
    (hcur : st.current = some sr) : Remains env { st with current := none } srs := by
  simp only [Remains, hcur] at h
  obtain ⟨-, srs', heq, hreads⟩ := h
  cases heq
  exact hreads

/-- The search of a call. -/
theorem Stage.get (hm : Mergeable recs all) (hR : ForDirs env R)
    (hraw : ∀ sr l, HasFields env sr l → R sr l) (hQ : ∀ sr ∈ recs, Q sr → Writable env R sr)
    (h : Stage env R head recs all st done left (op :: ops)) (hpass : Passes Q op.key left) :
    ∃ st₁ got, statusGet env st (some op.name) false false = .ok (st₁, got) ∧
      Wrote R head st₁.toState (done ++ passed op.key left) ∧ st₁.dirty = st.dirty ∧
      (got = .absent ∧ left = passed op.key left ++ behind op.key left ∧
          Remains env st₁ (behind op.key left) ∨
        ∃ sr, got = .found sr ∧ ¬ofDir sr ∧ left = passed op.key left ++ sr :: behind op.key left ∧
          Remains env { st₁ with current := none } (behind op.key left)) := by
  have hop : op ∈ all := h.opsLeft.subset (.head _)
  obtain ⟨here, hp⟩ := hm.place h.recsLeft hop
  have hfirst : ∀ sr ∈ (passed op.key left).head?, Writable env R sr ∧ IsName sr.file ∧
      sr.mark.Fits (openAfter [] (done.map StatusRec.mark)) ∧
      Copies sr.mark.after (passed op.key left).tail := by
    intro sr hsr
    obtain ⟨tail, htail⟩ := List.head?_eq_some_iff.mp hsr
    have hleft := h.recsLeft
    rw [hp.split, htail, List.cons_append] at hleft
    have hmem : sr ∈ recs := hleft.subset (.head _)
    refine ⟨hQ sr hmem (hpass.1 sr hsr), hm.nested.marks.2 sr hmem, ?_, ?_⟩
    · have hwhole := hm.whole
      rw [← h.split, merged_cons, ← hp.passed, htail, List.cons_append] at hwhole
      exact hwhole.fits
    · have hk := hpass.2
      rw [htail, List.tail_cons] at hk ⊢
      exact copies_tail hm hleft hk
  have hremains := h.remains
  rw [hp.split] at hremains
  obtain ⟨⟨st₁, got⟩, hget, hwrote, hdirty⟩ :=
    h.wrote.statusGet hR hraw hremains hp.lt hp.ge hfirst
  obtain ⟨hrest, hgot⟩ := statusGet_reads h.remains hget
  have hsearched : searched (keyRec op.name false) left = here ++ behind op.key left := hp.searched
  rw [hsearched] at hrest hgot
  refine ⟨st₁, got, hget, hwrote, hdirty, ?_⟩
  rcases hp.found with ⟨rfl, hne⟩ | ⟨sr, rfl, hzero, hfile⟩
  · refine .inl ⟨?_, hp.split, hrest⟩
    rw [hgot, List.nil_append]
    rcases hb : behind op.key left with - | ⟨x, xs⟩
    · rfl
    · rw [hb] at hne
      exact if_neg (hne x rfl)
  · have hfound : got = .found sr := hgot.trans (if_pos hzero)
    have hmem : sr ∈ recs := h.recsLeft.subset (by rw [hp.split]; simp)
    refine .inr ⟨sr, hfound, hm.not_dir hop hmem hfile, hp.split, ?_⟩
    exact Remains.clear hrest (statusGet_current (hfound ▸ hget))

theorem Remains.frame (h : Remains env st recs) (wr : Option (List Byte)) (pc : Pathcomp.State)
    (dirty : Bool) : Remains env ⟨{ st.toState with wr, pc }, st.current, dirty⟩ recs := by
  obtain ⟨s, - | sr, d⟩ := st
  · exact Reads.frame h wr pc
  · obtain ⟨heof, srs, rfl, hreads⟩ := h
    exact ⟨heof, srs, rfl, hreads.frame wr pc⟩

/-- The record of `status_put` is written behind the others. -/
theorem Wrote.put (hR : ForDirs env R) (h : Wrote R head st.toState done)
    (hr : Remains env st left) (hsr : Writable env R sr) (hname : IsName sr.file)
    (hfit : sr.mark.Fits (openAfter [] (done.map StatusRec.mark))) :
    ∃ st', st.put env sr = .ok (st', true) ∧ Wrote R head st'.toState (done ++ [sr]) ∧
      Remains env st' left ∧ st'.dirty = true := by
  obtain ⟨s, hs, hwrote⟩ := h.statusWr hR hsr hname hfit
  obtain ⟨wr, pc, rfl⟩ := statusWr_frame hs
  refine ⟨_, ?_, hwrote, hr.frame wr pc true, rfl⟩
  simp only [Handle.put, hs, bind, Except.bind]
  rfl

/-- A call succeeds, and its place is passed by. -/
theorem Stage.step (hm : Mergeable recs all) (hR : ForDirs env R)
    (hraw : ∀ sr l, HasFields env sr l → R sr l) (hQ : ∀ sr ∈ recs, Q sr → Writable env R sr)
    (hput : ∀ sr, .put sr ∈ all → Writable env R sr)
    (h : Stage env R head recs all st done left (op :: ops)) (hpass : Passes Q op.key left) :
    ∃ st', op.run env st = .ok (st', true) ∧ Stage env R head recs all st'
      (done ++ (passed op.key left ++ op.update.added)) (behind op.key left) ops := by
  have hop : op ∈ all := h.opsLeft.subset (.head _)
  obtain ⟨here, hp⟩ := hm.place h.recsLeft hop
  obtain ⟨st₁, got, hget, hwrote, hdirty, hgot⟩ := h.get hm hR hraw hQ hpass
  have hsplit : done ++ (passed op.key left ++ op.update.added) ++ merged (behind op.key left) ops =
      merged recs all := by
    rw [← h.split, merged_cons, ← hp.passed, ← hp.behind]
    simp
  have hrecs : behind op.key left <:+ recs :=
    (List.IsSuffix.trans ⟨passed op.key left ++ here, by rw [List.append_assoc, ← hp.split]⟩
      h.recsLeft)
  have hops : ops <:+ all := (List.suffix_cons op ops).trans h.opsLeft
  cases op with
  | delete name =>
    have hadded : (Op.delete name).update.added = [] := rfl
    rw [hadded, List.append_nil] at hsplit ⊢
    simp only [Op.run, statusDelete]
    rw [show (Op.delete name).name = name from rfl] at hget
    rcases hgot with ⟨rfl, hleft, hr⟩ | ⟨sr, rfl, -, hleft, hr⟩
    · refine ⟨st₁, by simp only [hget, bind, Except.bind]; rfl,
        ⟨hwrote, hr, hrecs, hops, hsplit, fun hclean => ?_⟩⟩
      rw [List.append_assoc, ← hleft]
      exact h.clean (hdirty ▸ hclean)
    · exact ⟨{ st₁ with current := none, dirty := true },
        by simp only [hget, bind, Except.bind]; rfl,
        ⟨hwrote, hr, hrecs, hops, hsplit, nofun⟩⟩
  | put sr =>
    have hadded : (Op.put sr).update.added = [sr] := rfl
    rw [hadded, ← List.append_assoc] at hsplit ⊢
    have hfile := hm.files sr hop
    have hname : IsName sr.file := hm.names (.put sr) hop
    have hfit : sr.mark.Fits
        (openAfter [] ((done ++ passed (Op.put sr).key left).map StatusRec.mark)) := by
      have hwhole := hm.whole
      rw [← hsplit, List.append_assoc, List.singleton_append] at hwhole
      exact hwhole.fits
    have hkey : decide (sr.type = .dirup) = false := decide_eq_false fun hup => hfile (.inr hup)
    rw [show (Op.put sr).name = sr.file from rfl] at hget
    simp only [Op.run, statusPut, hkey]
    rcases hgot with ⟨rfl, hleft, hr⟩ | ⟨old, rfl, hold, hleft, hr⟩
    · obtain ⟨st', hst', hwrote, hr, hd⟩ := hwrote.put hR hr (hput sr hop) hname hfit
      exact ⟨st', by simp only [hget, bind, Except.bind, hst'],
        ⟨hwrote, hr, hrecs, hops, hsplit, fun hclean => by simp [hd] at hclean⟩⟩
    · obtain ⟨st', hst', hwrote, hr, hd⟩ :=
        @Wrote.put _ _ _ _ _ _ { st₁ with current := none } hR hwrote hr (hput sr hop) hname hfit
      have hdown : ¬old.type = .dirdown := fun ht => hold (.inl ht)
      exact ⟨st', by simp only [hget, bind, Except.bind, if_neg hdown, hst'],
        ⟨hwrote, hr, hrecs, hops, hsplit, fun hclean => by simp [hd] at hclean⟩⟩

theorem Stage.run (hm : Mergeable recs all) (hR : ForDirs env R)
    (hraw : ∀ sr l, HasFields env sr l → R sr l) (hQ : ∀ sr ∈ recs, Q sr → Writable env R sr)
    (hput : ∀ sr, .put sr ∈ all → Writable env R sr)
    (h : Stage env R head recs all st done left ops) (ho : Orderly env Q st left ops) :
    ∃ st' done' left', updates env st ops = .ok (st', true) ∧
      Stage env R head recs all st' done' left' [] ∧ (st'.dirty = true → Ends Q st' left') := by
  induction ops generalizing st done left with
  | nil => exact ⟨st, done, left, rfl, h, ho⟩
  | cons op ops ih =>
    obtain ⟨hpass, hrest⟩ := ho
    obtain ⟨st₁, hrun, hstage⟩ := h.step hm hR hraw hQ hput hpass
    obtain ⟨st', done', left', hups, hend⟩ := ih hstage (hrest st₁ hrun)
    refine ⟨st', done', left', ?_, hend⟩
    simp only [updates, hrun, bind, Except.bind]
    exact hups

/-- `status_close` behind the last call. -/
theorem Stage.close (hm : Mergeable recs all) (hR : ForDirs env R)
    (hraw : ∀ sr l, HasFields env sr l → R sr l) (hQ : ∀ sr ∈ recs, Q sr → Writable env R sr)
    (h : Stage env R head recs all st done left []) (hend : st.dirty = true → Ends Q st left) :
    statusClose env st = .ok .kept ∧ merged recs all = recs ∨
      ∃ text out, statusClose env st = .ok (.renamed (head ++ text)) ∧
        Fills R (merged recs all) (filled ((merged recs all).map StatusRec.mark)) text out := by
  have hsplit : done ++ left = merged recs all := h.split
  obtain ⟨text, out, hwr, -⟩ := h.wrote.text
  by_cases hdirty : st.dirty = true
  · obtain ⟨hcur, hnone⟩ := hend hdirty
    have hwhole := hm.whole
    rw [← hsplit] at hwhole ⊢
    have hfit {sr : StatusRec} {srs : List StatusRec} (hleft : left = sr :: srs) :
        sr.mark.Fits (openAfter [] (done.map StatusRec.mark)) := by
      rw [hleft] at hwhole
      exact hwhole.fits
    have hmem {sr : StatusRec} {srs : List StatusRec} (hleft : left = sr :: srs) : sr ∈ recs :=
      h.recsLeft.subset (by simp [hleft])
    have htail {sr : StatusRec} {srs : List StatusRec} (hleft : left = sr :: srs)
        (hk : ∀ x ∈ srs, Kept x) : Copies sr.mark.after srs := by
      have hsuffix := h.recsLeft
      rw [hleft, ← List.append_nil srs] at hsuffix
      exact copies_tail hm hsuffix hk
    refine .inr (h.wrote.closed hR hraw h.remains hdirty (fun sr hsr => ?_) fun hno => ?_)
    · obtain ⟨srs, hleft⟩ : ∃ srs, left = sr :: srs := by
        have hr := h.remains
        simp only [Remains, hsr] at hr
        obtain ⟨-, srs, hleft, -⟩ := hr
        exact ⟨srs, hleft⟩
      obtain ⟨hq, hk⟩ := hcur sr hsr
      rw [hleft, List.tail_cons] at hk ⊢
      exact ⟨hQ sr (hmem hleft) hq, hm.nested.marks.2 sr (hmem hleft), hfit hleft, htail hleft hk⟩
    · obtain ⟨hk, hplaced⟩ := hnone hno
      intro sr hsr
      obtain ⟨srs, hleft⟩ := List.head?_eq_some_iff.mp hsr
      rw [hleft, List.forall_mem_cons] at hk
      have hcopies := htail hleft hk.2
      rw [hleft, List.tail_cons]
      exact ⟨hk.1, hm.nested.marks.2 sr (hmem hleft), hplaced sr hsr, hfit hleft, hcopies⟩
  · refine .inl ⟨?_, ?_⟩
    · rw [statusClose, hwr]
      exact if_neg hdirty
    · rw [← hsplit]
      exact h.clean (by simpa using hdirty)

end

/-! ## The new file -/

/-- Parts of names that are apart in the beginning are apart. -/
theorem apart_of_prefix {s t m n : List Byte} (h : Apart m n) (hs : s <+: m) (ht : t <+: n) :
    Apart s t := by
  obtain ⟨u, rfl⟩ := hs
  obtain ⟨v, rfl⟩ := ht
  rintro p c s' d t' rfl rfl
  exact h p c (s' ++ u) d (t' ++ v) (by simp) (by simp)

section

variable {R : StatusRec → Option (List Byte) → Prop} {recs out : List StatusRec} {ops : List Op}
  {text : List Byte}

theorem forall₂_marks (h : ∀ sr ∈ recs, IsName sr.file) :
    List.Forall₂ Marks recs (recs.map StatusRec.mark) := by
  rw [List.forall₂_map_right_iff, List.forall₂_same]
  exact fun sr hsr => marks_mark (h sr hsr)

/-- Merged records, with the directories around them, are nested and sorted. -/
theorem Fills.wellFormed (hm : Mergeable recs ops)
    (h : Fills R (merged recs ops) (filled ((merged recs ops).map StatusRec.mark)) text out) :
    Nested [] (out.map StatusRec.mark) ∧ out.Pairwise fun a b => statusrecCmp a b < 0 := by
  have hwhole := hm.whole
  have hsorted := ranks_markRank.pairwise_filled hwhole.sorted_marks hwhole.node hwhole.low
  rw [← h.marks, List.pairwise_map] at hsorted
  refine ⟨h.marks ▸ nested_filled hwhole.node, hsorted.imp_of_mem fun {a b} ha hb hlt => ?_⟩
  -- the directories are parts of the names
  have hpart (r : StatusRec) (hr : r ∈ out) : ∃ n ∈ namesOf recs ops, r.file <+: n := by
    have hmark := List.mem_map_of_mem (f := StatusRec.mark) hr
    rw [h.marks] at hmark
    obtain ⟨m, hmem, hpre⟩ := mem_filled (mark_ne (h.names r hr)) hmark
    obtain ⟨sr, hsr, rfl⟩ := List.mem_map.mp hmem
    rw [node_mark, node_mark] at hpre
    obtain ⟨t, ht⟩ := hpre
    obtain ⟨hname, hin, -⟩ := hm.name_mem hsr
    refine ⟨sr.file, hname, ?_⟩
    rw [← (h.names r hr).pathOf.1, ← hin.pathOf.1, ← ht]
    exact joinPath_isPrefix _ t
  obtain ⟨m, hmem, hma⟩ := hpart a ha
  obtain ⟨n, hn, hnb⟩ := hpart b hb
  have hap := apart_of_prefix (hm.apart m hmem n hn) hma hnb
  have hna := h.names a ha
  have hnb := h.names b hb
  rw [rank_mark hna, rank_mark hnb] at hlt
  exact (statusrecCmp_lt_iff hap hna.plain.2 hnb.plain.2).mpr hlt

end

/-! ## An opened file -/

theorem nl_notMem_printInt (i : Int) : nl ∉ printInt i := by
  have hradix (n : Nat) : nl ∉ printRadix 10 n := by
    intro h
    obtain ⟨d, hd, heq⟩ := exists_digit (by decide) h
    have hspace := (digitByte_ne (d := d) (by omega)).1
    rw [← heq] at hspace
    cases hspace
  cases i with
  | ofNat n => exact hradix n
  | negSucc n =>
    rw [printInt, List.mem_cons, not_or]
    exact ⟨by decide, hradix _⟩

/-- The header of a file that is written is a line. -/
theorem header_line (scantime : Int) : ∃ w, protoPrintf (bytes "F %d %t\n".toList)
    [.int 5, .time scantime] = some (w ++ [nl]) ∧ nl ∉ w := by
  refine ⟨[70, 32] ++ printInt 5 ++ [32] ++ printInt scantime, ?_, ?_⟩
  · show some (70 :: 32 :: (printInt 5 ++ 32 :: (printInt scantime ++ [nl]))) = _
    simp
  · have h5 := nl_notMem_printInt 5
    have ht := nl_notMem_printInt scantime
    simp [h5, ht, show nl ≠ 70 by decide, show nl ≠ 32 by decide]

/-- The content of the file behind `status_close`. -/
def Closed.content (file : List Byte) : Closed → Option (List Byte)
  | .kept => some file
  | .renamed content => some content
  | .failed _ => none

section

variable {env : Env} {R : StatusRec → Option (List Byte) → Prop} {Q : StatusRec → Prop}
  {goal : Nat} {file : List Byte} {scantime : Int} {st : Handle} {recs : List StatusRec}
  {ops : List Op}

/-- A file that is opened for updating is at the beginning of a run. -/
theorem stage_opened (hfile : WellFormed env file recs)
    (hopen : statusOpen goal (some file) scantime = some st) (hscan : scantime ≠ -1) :
    ∃ w, nl ∉ w ∧ Stage env R (w ++ [nl]) recs ops st [] recs ops := by
  have hremains := remains_opened hfile.unread hopen
  obtain ⟨w, hprint, hw⟩ := header_line scantime
  obtain ⟨wr, dirty, rfl, hwr⟩ := statusOpen_eq hopen
  rw [if_neg hscan, hprint] at hwr
  subst hwr
  refine ⟨w, hw, ⟨⟨Pathcomp.atRest_new goal, [], [], ?_, ⟨.nil, rfl, rfl, by simp⟩⟩, hremains,
    List.suffix_refl _, List.suffix_refl _, rfl, fun _ => rfl⟩⟩
  rw [List.append_nil]

/-- The calls and `status_close` leave the file as it was, where the merge is the file, or
one with the merged records behind its header. -/
theorem session_fills (hm : Mergeable recs ops) (hR : ForDirs env R)
    (hraw : ∀ sr l, HasFields env sr l → R sr l) (hQ : ∀ sr ∈ recs, Q sr → Writable env R sr)
    (hput : ∀ sr, .put sr ∈ ops → Writable env R sr) (hfile : WellFormed env file recs)
    (hopen : statusOpen goal (some file) scantime = some st) (hscan : scantime ≠ -1)
    (ho : Orderly env Q st recs ops) :
    ∃ closed content, session env st ops = .ok closed ∧ closed.content file = some content ∧
      (content = file ∧ merged recs ops = recs ∨ ∃ out, Fills R (merged recs ops)
        (filled ((merged recs ops).map StatusRec.mark)) (behindLine nl content) out) := by
  obtain ⟨w, hw, hstage⟩ := @stage_opened env R goal file scantime st recs ops hfile hopen hscan
  obtain ⟨st', done, left, hups, hstage, hend⟩ := hstage.run hm hR hraw hQ hput ho
  have hsession : session env st ops = statusClose env st' := by
    simp only [session, hups, bind, Except.bind]
  rw [hsession]
  rcases hstage.close hm hR hraw hQ hend with ⟨hclose, hsame⟩ | ⟨text, out, hclose, hfills⟩
  · exact ⟨_, file, hclose, rfl, .inl ⟨rfl, hsame⟩⟩
  · refine ⟨_, _, hclose, rfl, .inr ⟨out, ?_⟩⟩
    rw [List.append_assoc, List.singleton_append, behindLine_append hw]
    exact hfills

end

/-! ## Well-formed files -/

/-- `status_rdraw` reads the file to its end, without an error; the records are sorted and
nested. -/
def ReadsWell (content : List Byte) : Prop :=
  let st := statusNew 0 (some (behindLine nl content))
  let (recs, st') := rdrawLoop st.turns st
  st'.error = none ∧ st'.eof = true ∧ recs.Pairwise (fun a b => statusrecCmp a b < 0) ∧
    NestedRecs recs

theorem LinesOf.length_le {R : StatusRec → Option (List Byte) → Prop} {text : List Byte}
    {srs : List StatusRec} (h : LinesOf R text srs) : srs.length ≤ text.length := by
  induction h with
  | nil => exact Nat.le_refl _
  | cons h _ ih =>
    obtain ⟨w, l, rfl, -⟩ := h
    simp only [List.length_append, List.length_cons]
    omega

theorem nestedRecs_raw {recs : List StatusRec} (h : NestedRecs recs) :
    NestedRecs (recs.map StatusRec.raw) := by
  obtain ⟨ms, hm, hn⟩ := h
  refine ⟨ms, ?_, hn⟩
  rw [List.forall₂_map_left_iff]
  exact hm.imp fun sr m h => by cases m <;> exact h

theorem pairwise_raw {recs : List StatusRec} (h : recs.Pairwise fun a b => statusrecCmp a b < 0) :
    (recs.map StatusRec.raw).Pairwise fun a b => statusrecCmp a b < 0 := by
  rw [List.pairwise_map]
  exact h

/-- A file with its fields is read by `status_rdraw`. -/
theorem Reads.rdrawLoop {env : Env} {st : State} {recs : List StatusRec} {turns : Nat}
    (h : Reads env st recs) (ht : st.left < turns) :
    (rdrawLoop turns st).1 = recs.map StatusRec.raw ∧ (rdrawLoop turns st).2.error = none ∧
      (rdrawLoop turns st).2.eof = true := by
  induction recs generalizing turns st with
  | nil =>
    obtain ⟨turns, rfl⟩ : ∃ n, turns = n + 1 := ⟨turns - 1, by omega⟩
    simp only [Status.rdrawLoop, h.rdraw_nil]
    exact ⟨rfl, h.error, trivial⟩
  | cons sr srs ih =>
    obtain ⟨turns, rfl⟩ : ∃ n, turns = n + 1 := ⟨turns - 1, by omega⟩
    obtain ⟨s, l, hdraw⟩ := h.draws
    have hleft := hdraw.left
    have hturns : s.left < turns := by omega
    obtain ⟨hrecs, hend⟩ := ih hdraw.next hturns
    simp only [Status.rdrawLoop, hdraw.raw, List.map_cons]
    exact ⟨congrArg (sr.raw :: ·) hrecs, hend⟩

theorem readsWell_of {content : List Byte} {recs : List StatusRec}
    (h : (rdrawLoop ((behindLine nl content).length + 1)
        (statusNew 0 (some (behindLine nl content)))).1 = recs.map StatusRec.raw ∧
      (rdrawLoop ((behindLine nl content).length + 1)
        (statusNew 0 (some (behindLine nl content)))).2.error = none ∧
      (rdrawLoop ((behindLine nl content).length + 1)
        (statusNew 0 (some (behindLine nl content)))).2.eof = true)
    (hsorted : recs.Pairwise fun a b => statusrecCmp a b < 0) (hn : NestedRecs recs) :
    ReadsWell content := by
  obtain ⟨hrecs, herror, heof⟩ := h
  refine ⟨herror, heof, ?_, ?_⟩
  · exact hrecs ▸ pairwise_raw hsorted
  · exact hrecs ▸ nestedRecs_raw hn

/-- What has been read of a file has its fields. -/
theorem Unread.supplied {env : Env} {prev : Option StatusRec} {depth : Nat} {rd : List Byte}
    {recs : List StatusRec} (h : Unread env prev depth rd recs) : ∀ sr ∈ recs, Supplied sr := by
  induction h with
  | nil => exact fun sr hsr => absurd hsr List.not_mem_nil
  | @cons _ _ _ l sr srs hne hline hcook hsorted hopen hrest ih =>
    have hcook : HasFields env sr l := hcook
    exact List.forall_mem_cons.mpr ⟨hcook.supplied fun r hr => (notMem_rest hline r hr).2, ih⟩

section

variable {env : Env} {goal : Nat} {file : List Byte} {scantime : Int} {st : Handle}
  {recs : List StatusRec} {ops : List Op}

/-- A run that is orderly leaves a file that is read to its end, sorted and nested. -/
theorem session_wellFormed (hfile : WellFormed env file recs) (hnested : NestedRecs recs)
    (hopen : statusOpen goal (some file) scantime = some st) (hscan : scantime ≠ -1)
    (horder : InOrder recs ops) (hputs : ∀ sr, .put sr ∈ ops → Supplied sr)
    (hap : AllApart recs ops) (ho : Orderly env (fun _ => True) st recs ops) :
    ∃ closed content, session env st ops = .ok closed ∧ closed.content file = some content ∧
      ReadsWell content := by
  have hm : Mergeable recs ops := ⟨horder, hfile.sorted, hnested, hap⟩
  obtain ⟨closed, content, hsession, hcontent, hresult⟩ := session_fills hm
    (forDirs_anyFields env) (fun _ _ _ => trivial)
    (fun sr hsr _ => (hfile.unread.supplied sr hsr).writable (hnested.marks.2 sr hsr))
    (fun sr hsr => (hputs sr hsr).writable (horder.names _ hsr)) hfile hopen hscan ho
  refine ⟨closed, content, hsession, hcontent, ?_⟩
  rcases hresult with ⟨rfl, -⟩ | ⟨out, hfills⟩
  · have hreads : Reads env (statusNew 0 (some (behindLine nl content))) recs :=
      ⟨rfl, .inr ⟨_, rfl, rfl, hfile.unread⟩⟩
    exact readsWell_of (hreads.rdrawLoop (Nat.lt_succ_self _)) hfile.sorted hnested
  · obtain ⟨hn, hsorted⟩ := hfills.wellFormed hm
    refine readsWell_of ?_ hsorted ⟨_, forall₂_marks hfills.names, hn⟩
    exact hfills.lines.rdrawLoop (d := []) (fun p hp => by cases hp) hsorted.isChain hn rfl rfl rfl
      rfl (Nat.lt_succ_of_le hfills.lines.length_le)

end

/-- A file with two files in it. -/
def twoFiles : List Byte := bytes "F 5 0\nV b 1#1#1\nV c 1#1#1\n".toList

/-- The record of one of them. -/
def fileRec (name : List Byte) : StatusRec :=
  { rawRec .filelive name with clientattr := decoded envOfNone (bytes "1#1#1".toList) }

/-- The file, opened for updating. -/
def openedFiles : Handle where
  toState := { statusNew 0 (some (behindLine nl twoFiles)) with
    wr := some (bytes "F 5 7\n".toList), linenum := 1 }
  current := none
  dirty := true

/-- A name of one byte. -/
def letter (c : Byte) (h : c ≠ 47 ∧ c ≠ 0) : Component :=
  ⟨[c], by simp, by simp [h.1.symm], by simp [h.2.symm]⟩

theorem wellFormed_twoFiles : WellFormed envOfNone twoFiles [fileRec [98], fileRec [99]] where
  header := rfl
  unread := .cons (by decide) rfl rfl rfl nofun (.cons (by decide) rfl rfl rfl nofun .nil)
  sorted := by decide

theorem nestedRecs_twoFiles : NestedRecs [fileRec [98], fileRec [99]] := by
  refine ⟨[.leaf [letter 98 (by decide)], .leaf [letter 99 (by decide)]],
    .cons ⟨by decide, rfl⟩ (.cons ⟨by decide, rfl⟩ .nil), ?_⟩
  exact @Nested.leaf _ [] _ _ (@Nested.leaf _ [] _ _ .nil)

theorem opened_twoFiles : statusOpen 0 (some twoFiles) 7 = some openedFiles := rfl

/-- A file in a new directory is put. -/
def putNew : Op := .put (liveFile [97, 47, 98])

/-- No call is for a name of a directory, or for one that `pathcmp` takes for another. -/
theorem inOrder_twoFiles {ops : List Op} (hops : ∀ op ∈ ops, op = putNew ∨ op = .delete [98])
    (hsorted : ops.Pairwise fun a b => pathcmp a.name b.name < 0) :
    InOrder [fileRec [98], fileRec [99]] ops ∧ AllApart [fileRec [98], fileRec [99]] ops := by
  have hname : ∀ op ∈ ops, op.name = [97, 47, 98] ∨ op.name = [98] := by
    intro op hop
    rcases hops op hop with rfl | rfl
    · exact .inl rfl
    · exact .inr rfl
  have hnames : ∀ n ∈ namesOf [fileRec [98], fileRec [99]] ops,
      n = [98] ∨ n = [99] ∨ n = [97, 47, 98] := by
    intro n hn
    rcases List.mem_append.mp hn with hn | hn
    · obtain ⟨sr, hsr, rfl⟩ := List.mem_map.mp hn
      have : sr = fileRec [98] ∨ sr = fileRec [99] := by simpa using hsr
      rcases this with rfl | rfl <;> simp [fileRec, rawRec]
    · obtain ⟨op, hop, rfl⟩ := List.mem_map.mp hn
      rcases hname op hop with h | h <;> simp [h]
  refine ⟨⟨?_, ?_, hsorted, ?_⟩, ?_⟩
  · intro sr hsr
    rcases hops _ hsr with h | h
    · cases h
      decide
    · cases h
  · intro op hop
    rcases hname op hop with h | h
    · exact ⟨[letter 97 (by decide), letter 98 (by decide)], by simp, h.symm⟩
    · exact ⟨[letter 98 (by decide)], by simp, h.symm⟩
  · rintro name hfile (⟨sr, hsr, hdir, -⟩ | ⟨n, hn, t, heq⟩)
    · have : sr = fileRec [98] ∨ sr = fileRec [99] := by simpa using hsr
      rcases this with rfl | rfl <;> exact absurd hdir (by decide)
    · have hmem : name ∈ namesOf [fileRec [98], fileRec [99]] ops := by
        rcases hfile with ⟨sr, hsr, -, rfl⟩ | ⟨op, hop, rfl⟩
        · exact mem_namesOf_left hsr
        · exact mem_namesOf_right hop
      rcases hnames n hn with rfl | rfl | rfl <;> rcases hnames name hmem with rfl | rfl | rfl <;>
        simp at heq
  · intro m hm n hn
    have hone {n : List Byte} (hn : n = [98] ∨ n = [99] ∨ n = [97, 47, 98]) : 1 ∉ n := by
      rcases hn with rfl | rfl | rfl <;> decide
    exact apart_of_notMem (hone (hnames m hm)) (hone (hnames n hn))

theorem supplied_liveFile (name : List Byte) : Supplied (liveFile name) where
  client := fun _ _ => rfl
  server := fun h => absurd h (by simp [liveFile, rawRec])
  rev := fun h => absurd h (by simp [liveFile, rawRec])
  strings := by simp [liveFile, rawRec]

theorem kept_fileRec {name : List Byte} (h : name ≠ []) : Kept (fileRec name) :=
  ⟨h, fun ht => absurd ht (by simp [fileRec, rawRec])⟩

/-- The file is put, in a directory of its own. -/
theorem session_wellFormed_putNew :
    ∃ closed content, session envOfNone openedFiles [putNew] = .ok closed ∧
      closed.content twoFiles = some content ∧ ReadsWell content := by
  obtain ⟨horder, hap⟩ := @inOrder_twoFiles [putNew] (by simp) (List.pairwise_singleton ..)
  refine session_wellFormed wellFormed_twoFiles nestedRecs_twoFiles opened_twoFiles (by decide)
    horder (fun sr hsr => ?_) hap ⟨⟨fun _ _ => trivial, ?_⟩, fun st hrun _ =>
      ⟨fun sr _ => ⟨trivial, ?_⟩, fun hno => ?_⟩⟩
  · cases List.mem_singleton.mp hsr
    exact supplied_liveFile _
  · -- nothing is passed by
    exact fun sr hsr => absurd hsr List.not_mem_nil
  · intro x hx
    obtain rfl : x = fileRec [99] := List.mem_singleton.mp hx
    exact kept_fileRec (by simp)
  · -- the first of the two is kept
    have hcur : some (some (fileRec [98])) = some st.current :=
      congrArg (fun r => r.toOption.map fun p => p.1.current) hrun
    rw [hno] at hcur
    cases hcur

/-- With the first of the two deleted behind it, the file is left with the path compressor
in the new directory. -/
theorem not_session_wellFormed :
    ¬ ∀ (env : Env) (goal : Nat) (file : List Byte) (scantime : Int) (st : Handle)
        (recs : List StatusRec) (ops : List Op), WellFormed env file recs → NestedRecs recs →
        statusOpen goal (some file) scantime = some st → scantime ≠ -1 → InOrder recs ops →
        (∀ sr, .put sr ∈ ops → Supplied sr) →
        ∃ closed content, session env st ops = .ok closed ∧ closed.content file = some content ∧
          ReadsWell content := by
  intro h
  obtain ⟨horder, -⟩ := @inOrder_twoFiles [putNew, .delete [98]] (by simp) (by decide)
  obtain ⟨closed, content, hsession, -⟩ := h envOfNone 0 twoFiles 7 openedFiles _ _
    wellFormed_twoFiles nestedRecs_twoFiles rfl (by decide) horder (fun sr hsr => by
      rcases List.mem_cons.mp hsr with hsr | hsr
      · cases hsr
        exact supplied_liveFile _
      · cases List.mem_singleton.mp hsr)
  have herror : session envOfNone openedFiles [putNew, .delete [98]] = .error .assertion := rfl
  rw [herror] at hsession
  cases hsession

section

variable {env : Env} {goal : Nat} {file : List Byte} {scantime : Int} {st : Handle}
  {recs : List StatusRec} {ops : List Op}

/-! ## Merged files -/

end


end Csup.Status
