import Csup.Framework.Updates
import Csup.Status.Lookup
import Csup.Status.Written

/-!
# Updates of a status file

A run of `status_put` and `status_delete` of files, in the order of their names, and
`status_close`. The records that a search passes by are written, the first with its
fields and the others as they are; `status_close` writes the record that is kept and
copies the others (`Orderly`).

* `Wrote.statusGet`, `Wrote.closed`: what a search and `status_close` write;
* `session_fills`: what is written in a run.
-/

namespace Csup.Status

open Csup.Framework
open Csup.Pathcomp (AtRest)

variable {env : Env} {R : StatusRec → Option (List Byte) → Prop}

/-! ## Copies -/

/-- Records that can be copied one after the other: there is nothing to walk between them. -/
structure Copies (d : List Component) (srs : List StatusRec) : Prop where
  kept : ∀ sr ∈ srs, Kept sr
  names : ∀ sr ∈ srs, IsName sr.file
  inLine : InLine d (srs.map StatusRec.mark)

section

variable {head : List Byte} {st st' : State} {done recs srs : List StatusRec} {sr : StatusRec}
  {d : List Component} {pc : Pathcomp.State}

theorem placed_of_before (hpc : AtRest pc d) (hname : IsName sr.file) (hd : sr.mark.before = d) :
    Placed pc sr := by
  obtain ⟨hfile, hne⟩ := hname.pathOf
  obtain ⟨e, c, he⟩ := (List.eq_nil_or_concat' (pathOf sr.file)).resolve_left hne
  rw [he] at hfile
  unfold StatusRec.mark at hd
  by_cases hup : sr.type = .dirup
  · rw [hup] at hd
    obtain rfl : pathOf sr.file = d := hd
    rw [he] at hpc
    exact placed_of_atRest_dirup hpc hfile.symm hup
  · obtain rfl : (pathOf sr.file).dropLast = d := by
      split at hd
      · exact hd
      · next ht => exact absurd ht hup
      · exact hd
    rw [he, List.dropLast_concat] at hpc
    exact placed_of_atRest hpc hfile.symm hup

theorem Wrote.frame (h : Wrote R head st srs) (hwr : st'.wr = st.wr) (hpc : st'.pc = st.pc) :
    Wrote R head st' srs :=
  ⟨hpc ▸ h.pc, hwr ▸ h.text⟩

theorem statusRdraw_line {l : Option (List Byte)} {raw : StatusRec}
    (h : statusRdraw st = (st', some (raw, l))) :
    ∃ rd, lineRec (cline (lineOf nl rd)) = some (raw.type, raw.file, l) := by
  obtain ⟨rd, -, hline, -⟩ := statusRdraw_some h
  exact ⟨rd, hline⟩

/-- A record that is placed is copied. -/
theorem Wrote.copy {l : Option (List Byte)} (h : Wrote R head st done)
    (hraw : ∀ sr l, HasFields env sr l → R sr l) (hdraw : Draws env st sr srs st' l)
    (hk : Kept sr) (hname : IsName sr.file) (hplaced : Placed st.pc sr)
    (hfit : sr.mark.Fits (openAfter [] (done.map StatusRec.mark))) :
    ∃ s, Status.statusWrraw st' sr.raw l = .ok s ∧ Wrote R head s (done ++ [sr]) ∧ Reads env s srs ∧
      s.left < st.left := by
  obtain ⟨rd, hline⟩ : ∃ rd, lineRec (cline (lineOf nl rd)) = some (sr.type, sr.file, l) :=
    @statusRdraw_line st st' l sr.raw hdraw.raw
  have hwrote : Wrote R head st' done := h.frame hdraw.wr hdraw.pc
  have hcook : HasFields env sr l := hdraw.cook
  obtain ⟨s, hs, hwrote⟩ := hwrote.statusWrraw hline hcook (hraw sr l hcook) hk hname
    (by rwa [hdraw.pc]) hfit
  obtain ⟨wr, pc, rfl⟩ := statusWrraw_frame hs
  exact ⟨_, hs, hwrote, hdraw.next.frame wr pc, hdraw.left⟩

/-- The first of records that can be copied. -/
theorem Copies.first (h : Copies d (sr :: srs)) (hpc : AtRest pc d) :
    Placed pc sr ∧ sr.mark.Fits d ∧ Copies sr.mark.after srs := by
  have hname := h.names sr (.head _)
  obtain ⟨hd, hline⟩ := h.inLine
  exact ⟨placed_of_before hpc hname hd, Mark.fits_of_before (mark_ne hname) hd,
    fun x hx => h.kept x (.tail _ hx), fun x hx => h.names x (.tail _ hx), hline⟩

/-- The first record is placed, and the others can be copied behind it. -/
def Lined (st : State) (d : List Component) (recs : List StatusRec) : Prop :=
  ∀ sr ∈ recs.head?, Kept sr ∧ IsName sr.file ∧ Placed st.pc sr ∧ sr.mark.Fits d ∧
    Copies sr.mark.after recs.tail

theorem Copies.lined (h : Copies d recs) (hpc : AtRest st.pc d) : Lined st d recs := by
  cases recs with
  | nil => simp [Lined]
  | cons sr srs =>
    rintro x hx
    cases hx
    exact ⟨h.kept sr (.head _), h.names sr (.head _), h.first hpc⟩

/-- `status_close` copies the rest. -/
theorem Wrote.copyLoop {turns : Nat} (hraw : ∀ sr l, HasFields env sr l → R sr l)
    (h : Wrote R head st done) (hr : Reads env st recs) (ht : st.left < turns)
    (hlined : Lined st (openAfter [] (done.map StatusRec.mark)) recs) :
    ∃ s, copyLoop turns st = .ok s ∧ s.error = none ∧ Wrote R head s (done ++ recs) := by
  induction recs generalizing turns st done with
  | nil =>
    obtain ⟨turns, rfl⟩ : ∃ n, turns = n + 1 := ⟨turns - 1, by omega⟩
    refine ⟨{ st with eof := true }, by rw [Status.copyLoop, hr.rdraw_nil], hr.error, ?_⟩
    rw [List.append_nil]
    exact h.frame rfl rfl
  | cons sr srs ih =>
    obtain ⟨turns, rfl⟩ : ∃ n, turns = n + 1 := ⟨turns - 1, by omega⟩
    obtain ⟨s, l, hdraw⟩ := hr.draws
    obtain ⟨hk, hname, hplaced, hfit, hrest⟩ := hlined sr rfl
    obtain ⟨s', hwr, hwrote, hreads, hleft⟩ := h.copy hraw hdraw hk hname hplaced hfit
    have hopen : openAfter [] ((done ++ [sr]).map StatusRec.mark) = sr.mark.after := by
      rw [List.map_append, List.map_singleton, openAfter_concat]
    have hturns : s'.left < turns := by omega
    have hlined := Copies.lined (hopen ▸ hrest) hwrote.pc
    obtain ⟨s'', hloop, herror, hwrote⟩ := ih hwrote hreads hturns hlined
    refine ⟨s'', ?_, herror, by simpa using hwrote⟩
    simp only [Status.copyLoop, hdraw.raw, hwr, bind, Except.bind]
    exact hloop

/-- The loop of a search copies what it passes by. -/
theorem Wrote.getLoop {key : StatusRec} {turns : Nat} {st : Handle} {passed rest : List StatusRec}
    (hraw : ∀ sr l, HasFields env sr l → R sr l) (h : Wrote R head st.toState done)
    (hr : Reads env st.toState (passed ++ rest)) (ht : st.left < turns)
    (hlt : ∀ sr ∈ passed, statusrecCmp sr key < 0)
    (hge : ∀ sr ∈ rest.head?, 0 ≤ statusrecCmp sr key)
    (hcopy : Copies (openAfter [] (done.map StatusRec.mark)) passed) :
    ∃ r, getLoop env key false turns st = .ok r ∧ Wrote R head r.1.toState (done ++ passed) ∧
      r.1.dirty = st.dirty := by
  induction passed generalizing turns st done with
  | nil =>
    obtain ⟨turns, rfl⟩ : ∃ n, turns = n + 1 := ⟨turns - 1, by omega⟩
    rw [List.append_nil]
    cases rest with
    | nil =>
      simp only [Status.getLoop, Reads.rdraw_nil hr, Handle.noRecord]
      exact ⟨_, rfl, h.frame rfl rfl, rfl⟩
    | cons sr srs =>
      obtain ⟨s, l, hdraw⟩ := Reads.draws hr
      simp only [Status.getLoop, hdraw.raw, statusrecCmp_raw, if_pos (hge sr rfl), hdraw.cook]
      exact ⟨_, rfl, h.frame hdraw.wr hdraw.pc, rfl⟩
  | cons sr passed ih =>
    obtain ⟨turns, rfl⟩ : ∃ n, turns = n + 1 := ⟨turns - 1, by omega⟩
    obtain ⟨s, l, hdraw⟩ := Reads.draws hr
    obtain ⟨hplaced, hfit, hrest⟩ := hcopy.first h.pc
    obtain ⟨s', hwr, hwrote, hreads, hleft⟩ :=
      h.copy hraw hdraw (hcopy.kept sr (.head _)) (hcopy.names sr (.head _)) hplaced hfit
    have hopen : openAfter [] ((done ++ [sr]).map StatusRec.mark) = sr.mark.after := by
      rw [List.map_append, List.map_singleton, openAfter_concat]
    have hcmp := hlt sr (.head _)
    have hturns : s'.left < turns := by omega
    obtain ⟨r, hloop, hwrote, hdirty⟩ := @ih _ turns { st with toState := s' } hwrote hreads hturns
      (fun x hx => hlt x (.tail _ hx)) (hopen ▸ hrest)
    refine ⟨r, ?_, by simpa using hwrote, hdirty⟩
    simp only [Status.getLoop, hdraw.raw, statusrecCmp_raw,
      if_neg (show ¬0 ≤ statusrecCmp sr key by omega),
      Bool.false_eq_true, if_false, hwr, bind, Except.bind]
    exact hloop

/-- A search writes what it passes by. -/
theorem Wrote.statusGet {st : Handle} {passed rest : List StatusRec} {name : List Byte}
    (hR : ForDirs env R) (hraw : ∀ sr l, HasFields env sr l → R sr l)
    (h : Wrote R head st.toState done) (hr : Remains env st (passed ++ rest))
    (hlt : ∀ sr ∈ passed, statusrecCmp sr (keyRec name false) < 0)
    (hge : ∀ sr ∈ rest.head?, 0 ≤ statusrecCmp sr (keyRec name false))
    (hfirst : ∀ sr ∈ passed.head?, Writable env R sr ∧ IsName sr.file ∧
      sr.mark.Fits (openAfter [] (done.map StatusRec.mark)) ∧ Copies sr.mark.after passed.tail) :
    ∃ r, statusGet env st (some name) false false = .ok r ∧
      Wrote R head r.1.toState (done ++ passed) ∧ r.1.dirty = st.dirty := by
  by_cases heof : st.eof = true
  · obtain ⟨rfl, rfl⟩ := List.append_eq_nil_iff.mp (hr.of_eof heof)
    rw [Status.statusGet, if_pos heof, List.append_nil]
    exact ⟨_, rfl, h, rfl⟩
  rw [Status.statusGet, if_neg heof, hr.error, Option.isSome_none, if_neg (by decide)]
  cases passed with
  | nil =>
    rw [List.append_nil]
    cases rest with
    | nil =>
      obtain ⟨hnext, -⟩ := Remains.next_nil hr
      simp only [hnext]
      exact ⟨_, rfl, h.frame rfl rfl, rfl⟩
    | cons sr srs =>
      obtain ⟨s, hnext, -, -, hwr, hpc⟩ := Remains.next_cons hr
      have hcmp := hge sr rfl
      simp only [hnext]
      rw [if_neg (by omega)]
      exact ⟨_, rfl, h.frame hwr hpc, rfl⟩
  | cons sr passed =>
    obtain ⟨s, hnext, hreads, -, hwr, hpc⟩ := Remains.next_cons hr
    obtain ⟨hwritable, hname, hfit, hcopy⟩ := hfirst sr rfl
    have hsome : s.wr.isSome = true := by
      obtain ⟨text, out, htext, -⟩ := h.text
      rw [hwr, htext]
      rfl
    obtain ⟨s', hs', hwrote⟩ := (h.frame hwr hpc).statusWr hR hwritable hname hfit
    obtain ⟨wr, pc, rfl⟩ := statusWr_frame hs'
    have hopen : openAfter [] ((done ++ [sr]).map StatusRec.mark) = sr.mark.after := by
      rw [List.map_append, List.map_singleton, openAfter_concat]
    obtain ⟨r, hloop, hwrote, hdirty⟩ := @Wrote.getLoop _ _ _ _ (keyRec name false) _
      ⟨{ s with wr, pc }, none, st.dirty⟩ passed rest hraw hwrote (hreads.frame wr pc)
      (Nat.lt_succ_self _) (fun x hx => hlt x (.tail _ hx)) hge (hopen ▸ hcopy)
    refine ⟨r, ?_, by simpa using hwrote, hdirty⟩
    simp only [hnext, if_pos (hlt sr (.head _)), hsome, true_and, if_true, hs', bind, Except.bind]
    exact hloop

/-- The directories that are still open are closed. -/
theorem Wrote.finish (hR : ForDirs env R) (h : Wrote R head st srs) :
    ∃ events pc ups out, Pathcomp.drain (st.pc.curlen + 1) (Pathcomp.pathcompFinish st.pc) [] =
        .ok (events, pc, []) ∧ closeDirs env events = .ok ups ∧
      Fills R [] (walkMarks (openAfter [] (srs.map StatusRec.mark)) []) ups out := by
  obtain ⟨pc, hdrain⟩ := Pathcomp.finish_drain h.pc
  generalize openAfter [] (srs.map StatusRec.mark) = d at hdrain
  have hmoves : moves d [] = ups [] d.reverse := moves_above [] d
  have hups : ∀ ev ∈ (moves d []).map Pathcomp.event, ev.1 = .dirUp := by
    intro ev hev
    obtain ⟨m, hm, rfl⟩ := List.mem_map.mp hev
    rw [hmoves] at hm
    cases m with
    | up u => rfl
    | down u => exact absurd hm (down_notMem_ups _ _ _)
  obtain ⟨text, out, hdirs, hlines, hout⟩ := @dirLines_walk env R hR (moves d [])
    (fun m hm => node_walkMarks (List.mem_map_of_mem (f := Move.mark) hm)) none nofun
  exact ⟨_, pc, text, out, hdrain, (closeDirs_eq hups).trans hdirs, hout.fills hlines⟩

/-- `status_close` writes the record that is kept, and copies the others. -/
theorem Wrote.closed {st : Handle} {left : List StatusRec} (hR : ForDirs env R)
    (hraw : ∀ sr l, HasFields env sr l → R sr l) (h : Wrote R head st.toState done)
    (hr : Remains env st left) (hdirty : st.dirty = true)
    (hcur : ∀ sr, st.current = some sr → Writable env R sr ∧ IsName sr.file ∧
      sr.mark.Fits (openAfter [] (done.map StatusRec.mark)) ∧ Copies sr.mark.after left.tail)
    (hnone : st.current = none →
      Lined st.toState (openAfter [] (done.map StatusRec.mark)) left) :
    ∃ text out, statusClose env st = .ok (.renamed (head ++ text)) ∧
      Fills R (done ++ left) (filled ((done ++ left).map StatusRec.mark)) text out := by
  -- what is left is copied behind the record that is kept
  obtain ⟨s, s', hs, hcopied, herror, hwrote⟩ : ∃ s s',
      st.current.elim (.ok st.toState) (Status.statusWr env st.toState) = .ok s ∧
      Status.copyLoop s.turns s = .ok s' ∧ s'.error = none ∧ Wrote R head s' (done ++ left) := by
    rcases hc : st.current with - | sr
    · have hreads : Reads env st.toState left := by simpa [Remains, hc] using hr
      obtain ⟨s', hcopied⟩ := h.copyLoop hraw hreads (Nat.lt_succ_self _) (hnone hc)
      exact ⟨_, s', rfl, hcopied⟩
    · obtain ⟨srs, rfl, hreads⟩ : ∃ srs, left = sr :: srs ∧ Reads env st.toState srs := by
        have := hr
        simp only [Remains, hc] at this
        exact this.2
      obtain ⟨hwritable, hname, hfit, hcopy⟩ := hcur sr hc
      obtain ⟨s, hs, hwrote⟩ := h.statusWr hR hwritable hname hfit
      obtain ⟨wr, pc, rfl⟩ := statusWr_frame hs
      have hopen : openAfter [] ((done ++ [sr]).map StatusRec.mark) = sr.mark.after := by
        rw [List.map_append, List.map_singleton, openAfter_concat]
      obtain ⟨s', hcopied, herror, hwrote⟩ := hwrote.copyLoop hraw (hreads.frame wr pc)
        (Nat.lt_succ_self _) (Copies.lined (hopen ▸ hcopy) hwrote.pc)
      exact ⟨_, s', hs, hcopied, herror, by simpa using hwrote⟩
  obtain ⟨events, pc, ups, out', hdrain, hclose, hfills⟩ := hwrote.finish hR
  obtain ⟨text, out, hwr, htext⟩ := hwrote.text
  obtain ⟨text', out₀, hwr', -⟩ := h.text
  refine ⟨text ++ ups, out ++ out', ?_, ?_⟩
  · have hcontent : s'.wr.getD [] ++ ups = head ++ (text ++ ups) := by
      rw [hwr, Option.getD_some, List.append_assoc]
    rw [statusClose, hwr']
    rcases hc : st.current with - | sr <;> rw [hc] at hs
    · cases hs
      simp only [hdirty, if_true, bind, Except.bind, hcopied, herror, hdrain, hclose, hcontent]
      rfl
    · rw [Option.elim_some] at hs
      simp only [hdirty, if_true, bind, Except.bind, hs, hcopied, herror, hdrain, hclose, hcontent]
      rfl
  · have hall := htext.append hfills
    rwa [List.append_nil] at hall

end

end Csup.Status
