import Csup.Status.Cooked
import Csup.Status.Lookup

/-!
# A file in the place of a directory

`status_put` of a file whose name is that of a directory finds the record that opens the
directory. It searches on for the one that closes it with a key that `statusrec_cmp`
makes equal to nothing, and it does so for two of the four types of files; for the
others the directory stays.

* `Writes`: what has been written is lines, and the path compressor is at rest;
* `mem_of_line`: the records of a file have one for each of its lines;
* `not_replaced`: no directory is replaced.
-/

namespace Csup.Status

open Csup.Framework
open Csup.Proto
open Csup.Pathcomp (Event AtRest targetDir)

/-! ## Lines -/

/-- Nothing, or lines with a newline at the end. -/
def WholeLines (s : List Byte) : Prop := s = [] ∨ ∃ u, s = u ++ [nl]

theorem WholeLines.append {s t : List Byte} (hs : WholeLines s) (ht : WholeLines t) :
    WholeLines (s ++ t) := by
  rcases ht with rfl | ⟨u, rfl⟩
  · rwa [List.append_nil]
  · exact .inr ⟨s ++ u, (List.append_assoc ..).symm⟩

/-- A format that ends with a newline, which is no conversion. -/
theorem protoPrintf_wholeLines {fmt : List Byte} {args : List Arg} {out : List Byte}
    (hlast : fmt.getLast? = some nl) (hconv : ¬[37, nl] <:+ fmt)
    (h : protoPrintf fmt args = some out) : ∃ u, out = u ++ [nl] := by
  induction fmt, args using protoPrintf.induct generalizing out with
  | case1 args => cases hlast
  | case2 args => cases hlast
  | case3 c args hc =>
    obtain rfl : c = nl := by simpa using hlast
    rw [protoPrintf, if_neg hc] at h
    cases h
    exact ⟨[], rfl⟩
  | case4 d fmt args hconvd =>
    rw [protoPrintf, if_pos rfl, hconvd] at h
    cases h
  | case5 d fmt args o args' hconvd ih =>
    rw [protoPrintf, if_pos rfl, hconvd] at h
    obtain ⟨rest, hrest, rfl⟩ := Option.map_eq_some_iff.mp h
    rcases fmt with - | ⟨e, fmt⟩
    · obtain rfl : d = nl := by simpa using hlast
      exact absurd (List.suffix_refl _) hconv
    · obtain ⟨u, rfl⟩ := ih (by simpa using hlast)
        (fun hs => hconv (hs.trans (List.suffix_append [37, d] _))) hrest
      exact ⟨o ++ u, (List.append_assoc ..).symm⟩
  | case6 c d fmt args hc ih =>
    rw [protoPrintf, if_neg hc] at h
    obtain ⟨rest, hrest, rfl⟩ := Option.map_eq_some_iff.mp h
    obtain ⟨u, rfl⟩ := ih (by simpa using hlast)
      (fun hs => hconv (hs.trans (List.suffix_cons c _))) hrest
    exact ⟨c :: u, rfl⟩

theorem printf_wholeLines {fmt : List Char} {args : List (Option Arg)} {out : List Byte}
    (hlast : (bytes fmt).getLast? = some nl) (hconv : ¬[37, nl] <:+ bytes fmt)
    (h : printf fmt args = .ok out) : WholeLines out := by
  rw [printf] at h
  split at h
  · cases h
  · split at h
    · cases h
    · next hout =>
      cases h
      exact .inr (protoPrintf_wholeLines hlast hconv hout)

theorem dirLines_wholeLines {env : Env} {clientattr : Option (Option Attrs.Fattr)}
    {events : List Event} {out : List Byte} (h : dirLines env clientattr events = .ok out) :
    WholeLines out := by
  induction events generalizing clientattr out with
  | nil =>
    cases h
    exact .inl rfl
  | cons ev events ih =>
    rcases ev with ⟨_ | _ | _, name⟩
    · obtain ⟨line, hline, h⟩ := of_bind_ok h
      obtain ⟨rest, hrest, h⟩ := of_bind_ok h
      cases h
      exact (printf_wholeLines (by decide) (by decide) hline).append (ih hrest)
    · exact ih h
    · obtain ⟨line, hline, h⟩ := of_bind_ok h
      obtain ⟨rest, hrest, h⟩ := of_bind_ok h
      cases h
      exact (printf_wholeLines (by decide) (by decide) hline).append (ih hrest)

theorem recordLine_wholeLines {env : Env} {sr : StatusRec} {out : List Byte}
    (h : recordLine env sr = .ok out) : WholeLines out := by
  unfold recordLine at h
  cases ht : sr.type <;> rw [ht] at h
  case dirdown | dirup =>
    cases h
    exact .inl rfl
  all_goals exact printf_wholeLines (by decide) (by decide) h

/-! ## What is written -/

/-- What has been written ends with a line, and the path compressor is between two puts. -/
structure Writes (st : State) : Prop where
  wr : ∃ u, st.wr = some (u ++ [nl])
  pc : ∃ d, AtRest st.pc d

/-- The name is a path. -/
def IsPath (sr : StatusRec) : Prop := ∃ path, sr.file = joinPath path

theorem Writes.add {st : State} (h : Writes st) {pc : Pathcomp.State} {d : List Component}
    (hpc : AtRest pc d) {out : List Byte} (hout : WholeLines out) :
    Writes ({ st with pc }.add out) := by
  obtain ⟨u, hu⟩ := h.wr
  refine ⟨?_, d, hpc⟩
  simp only [State.add, hu, Option.map_some, Option.some.injEq]
  exact ((WholeLines.append (.inr ⟨u, rfl⟩) hout).resolve_left (by simp))

/-- A record is written as lines, and its directory is left open. -/
theorem Writes.statusWr {env : Env} {st st' : State} {sr : StatusRec} {path : List Component}
    (h : Writes st) (hfile : sr.file = joinPath path) (hok : statusWr env st sr = .ok st') :
    Writes st' ∧ AtRest st'.pc (targetDir (pcType sr.type) path) := by
  obtain ⟨⟨events, pc⟩, hput, hok⟩ := of_bind_ok hok
  obtain ⟨dirs, hdirs, hok⟩ := of_bind_ok hok
  obtain ⟨line, hline, hok⟩ := of_bind_ok hok
  cases hok
  obtain ⟨d, hd⟩ := h.pc
  obtain ⟨pc', hput', hrest⟩ := putRecord_eq hd hfile
  obtain ⟨-, rfl⟩ := Prod.mk.inj (Except.ok.inj (hput'.symm.trans hput))
  exact ⟨h.add hrest ((dirLines_wholeLines hdirs).append (recordLine_wholeLines hline)), hrest⟩

theorem Writes.statusWrraw {st st' : State} {sr : StatusRec} {l : Option (List Byte)}
    (h : Writes st) (hpath : IsPath sr) (hok : statusWrraw st sr l = .ok st') : Writes st' := by
  obtain ⟨path, hfile⟩ := hpath
  obtain ⟨u, hu⟩ := h.wr
  have hsome : ¬st.wr.isNone = true := by simp [hu]
  simp only [Status.statusWrraw, if_neg hsome] at hok
  obtain ⟨⟨events, pc⟩, hput, hok⟩ := of_bind_ok hok
  obtain ⟨d, hd⟩ := h.pc
  obtain ⟨pc', hput', hrest⟩ := putRecord_eq hd hfile
  obtain ⟨rfl, rfl⟩ := Prod.mk.inj (Except.ok.inj (hput'.symm.trans hput))
  dsimp only at hok
  split at hok
  · split at hok <;> obtain ⟨out, hout, hok⟩ := of_bind_ok hok <;> cases hok <;>
      exact h.add hrest (printf_wholeLines (by decide) (by decide) hout)
  · cases hok

theorem Writes.getLoop {env : Env} {key : StatusRec} {deleteto : Bool} {turns : Nat}
    {st st' : Handle} {recs : List StatusRec} {got : Got} (h : Writes st.toState)
    (hr : Reads env st.toState recs) (hpaths : ∀ sr ∈ recs, statusrecCmp sr key < 0 → IsPath sr)
    (hok : getLoop env key deleteto turns st = .ok (st', got)) : Writes st'.toState := by
  induction turns generalizing st recs with
  | zero =>
    cases hok
    exact h
  | succ turns ih =>
    cases recs with
    | nil =>
      simp only [Status.getLoop, hr.rdraw_nil] at hok
      cases hok
      exact ⟨h.wr, h.pc⟩
    | cons sr srs =>
      obtain ⟨s, l, hdraw⟩ := hr.draws
      have hs : Writes s := ⟨hdraw.wr ▸ h.wr, hdraw.pc ▸ h.pc⟩
      have hrest := fun x hx => hpaths x (List.mem_cons_of_mem _ hx)
      simp only [Status.getLoop, hdraw.raw, statusrecCmp_raw, hdraw.cook] at hok
      split at hok
      · cases hok
        exact ⟨hs.wr, hs.pc⟩
      · next hcmp =>
        split at hok
        · exact @ih { st with toState := s } srs hs hdraw.next hrest hok
        · obtain ⟨s', hwr, hok⟩ := of_bind_ok hok
          have hs' := hs.statusWrraw (hpaths sr (.head _) (by omega)) hwr
          obtain ⟨wr, pc, rfl⟩ := statusWrraw_frame hwr
          exact @ih { st with toState := _ } srs hs' (hdraw.next.frame wr pc) hrest hok

theorem Writes.statusGet {env : Env} {st st' : Handle} {recs : List StatusRec} {name : List Byte}
    {isdirup deleteto : Bool} {got : Got} (h : Writes st.toState) (hr : Remains env st recs)
    (hpaths : ∀ sr ∈ recs, statusrecCmp sr (keyRec name isdirup) < 0 → IsPath sr)
    (hok : statusGet env st (some name) isdirup deleteto = .ok (st', got)) :
    Writes st'.toState := by
  unfold Status.statusGet at hok
  split at hok
  · cases hok
    exact h
  simp only [hr.error, Option.isSome_none, Bool.false_eq_true, if_false] at hok
  cases recs with
  | nil =>
    obtain ⟨hnext, -⟩ := hr.next_nil
    simp only [hnext] at hok
    cases hok
    exact ⟨h.wr, h.pc⟩
  | cons sr srs =>
    obtain ⟨s, hnext, hrest, -, hswr, hspc⟩ := hr.next_cons
    have hs : Writes s := ⟨hswr ▸ h.wr, hspc ▸ h.pc⟩
    have hpaths' := fun x hx => hpaths x (List.mem_cons_of_mem _ hx)
    simp only [hnext] at hok
    split at hok
    · next hcmp =>
      split at hok <;> obtain ⟨s', hwr, hok⟩ := of_bind_ok hok
      · obtain ⟨path, hfile⟩ := hpaths sr (.head _) hcmp
        have hs' := (hs.statusWr hfile hwr).1
        obtain ⟨wr, pc, rfl⟩ := statusWr_frame hwr
        exact @Writes.getLoop _ _ _ _ ⟨_, none, st.dirty⟩ _ srs _ hs' (hrest.frame wr pc) hpaths' hok
      · cases hwr
        exact @Writes.getLoop _ _ _ _ ⟨_, none, st.dirty⟩ _ srs _ hs hrest hpaths' hok
    · cases hok
      exact ⟨hs.wr, hs.pc⟩

/-! ## The lines of a file -/

/-- The first of whole lines. -/
theorem WholeLines.cases {s : List Byte} (h : WholeLines s) :
    s = [] ∨ ∃ w q, nl ∉ w ∧ s = w ++ nl :: q ∧ WholeLines q := by
  rcases h with rfl | ⟨u, rfl⟩
  · exact .inl rfl
  · obtain ⟨w, q, heq, hw, -⟩ := exists_first_line u []
    refine .inr ⟨w, q, hw, heq, ?_⟩
    rcases List.eq_nil_or_concat' q with rfl | ⟨q, b, rfl⟩
    · exact .inl rfl
    · have hb : [nl] = [b] := by
        rw [← List.cons_append, ← List.append_assoc] at heq
        exact (List.append_inj' heq rfl).2
      exact .inr ⟨q, by rw [hb]⟩

/-- A line behind whole lines is read as a record. -/
theorem mem_of_line {env : Env} {prev : Option StatusRec} {depth : Nat} {rd : List Byte}
    {recs : List StatusRec} (h : Unread env prev depth rd recs) {s w q : List Byte}
    (hs : WholeLines s) (hw : nl ∉ w) (hrd : rd = s ++ (w ++ nl :: q)) :
    ∃ sr ∈ recs, ∃ l, lineRec (cline (w ++ [nl])) = some (sr.type, sr.file, l) := by
  induction h generalizing s with
  | nil => simp at hrd
  | @cons _ _ _ l sr srs _ hline _ _ _ _ ih =>
    subst hrd
    rcases hs.cases with rfl | ⟨w', q', hw', rfl, hq'⟩
    · rw [List.nil_append, lineOf_append hw] at hline
      exact ⟨sr, .head _, l, hline⟩
    · obtain ⟨x, hx, hrec⟩ := ih hq' (by
        rw [List.append_assoc, List.cons_append, behindLine_append hw'])
      exact ⟨x, .tail _ hx, hrec⟩

/-- The line of a directory that is opened. -/
theorem lineRec_dirdown {file : List Byte} (h : Plain file) :
    lineRec (cline ((68 :: 32 :: protoEscape file) ++ [nl])) = some (.dirdown, file, none) := by
  have h0 : 0 ∉ 68 :: 32 :: protoEscape file := by
    simp [zero_notMem_protoEscape h.2]
  rw [cline_append_nl h0]
  show lineRec (cmdOf .dirdown :: 32 :: protoEscape file) = _
  rw [lineRec_cmdOf, protoGetAscii_last (protoEscape_ne_nil h.1)
    (notMem_protoEscape file (.inl rfl)), protoUnescape_protoEscape]

/-- A file with the line of a directory has the record of the directory. -/
theorem mem_dirdown {env : Env} {u q file : List Byte} {recs : List StatusRec} (hfile : Plain file)
    (h : Unread env none 0 (behindLine nl ((u ++ [nl]) ++ (recordText env (rawRec .dirdown file) ++ q)))
      recs) : ∃ sr ∈ recs, sr.type = .dirdown ∧ sr.file = file := by
  have htext : recordText env (rawRec .dirdown file) ++ q =
      (68 :: 32 :: protoEscape file) ++ nl :: q := by
    simp [recordText, textLine, fieldsOf, rawRec, cmdOf]
  have hw : nl ∉ 68 :: 32 :: protoEscape file := by
    have := notMem_protoEscape file (b := nl) (by simp)
    simp [this, show nl ≠ 68 by decide, show nl ≠ 32 by decide]
  obtain ⟨w, q', hw', heq, hq'⟩ := (WholeLines.cases (.inr ⟨u, rfl⟩)).resolve_left
    (show u ++ [nl] ≠ [] by simp)
  rw [heq, List.append_assoc, List.cons_append, behindLine_append hw', htext] at h
  obtain ⟨sr, hsr, l, hrec⟩ := mem_of_line h hq' hw rfl
  rw [lineRec_dirdown hfile] at hrec
  obtain ⟨ht, hf, -⟩ : .dirdown = sr.type ∧ file = sr.file ∧ none = l := by simpa using hrec
  exact ⟨sr, hsr, ht.symm, hf.symm⟩

/-! ## Copying the rest -/

theorem statusRdraw_wr (st : State) : (statusRdraw st).1.wr = st.wr := by
  unfold statusRdraw
  split
  · rfl
  · split
    · rfl
    · split
      · split <;> rfl
      · dsimp only
        split
        · rfl
        · split
          · rfl
          · split
            · rfl
            · split <;> rfl

theorem statusWrraw_wr {st st' : State} {sr : StatusRec} {l : Option (List Byte)} {w : List Byte}
    (hw : st.wr = some w) (h : statusWrraw st sr l = .ok st') : ∃ out, st'.wr = some (w ++ out) := by
  have hsome : ¬st.wr.isNone = true := by simp [hw]
  simp only [statusWrraw, if_neg hsome] at h
  obtain ⟨⟨events, pc⟩, -, h⟩ := of_bind_ok h
  dsimp only at h
  split at h
  · split at h <;> obtain ⟨out, -, h⟩ := of_bind_ok h <;> cases h <;>
      exact ⟨out, by simp [State.add, hw]⟩
  · cases h

theorem copyLoop_wr {turns : Nat} {st st' : State} {w : List Byte} (hw : st.wr = some w)
    (h : copyLoop turns st = .ok st') : ∃ out, st'.wr = some (w ++ out) := by
  induction turns generalizing st w with
  | zero =>
    cases h
    exact ⟨[], by simpa using hw⟩
  | succ turns ih =>
    have hrd := statusRdraw_wr st
    rw [copyLoop] at h
    split at h
    · next hraw =>
      cases h
      rw [hraw] at hrd
      exact ⟨[], by simpa using hrd.trans hw⟩
    · next hraw =>
      obtain ⟨s, hwr, h⟩ := of_bind_ok h
      rw [hraw] at hrd
      obtain ⟨out, hout⟩ := statusWrraw_wr (hrd.trans hw) hwr
      obtain ⟨rest, hrest⟩ := ih hout h
      exact ⟨out ++ rest, by rw [hrest, List.append_assoc]⟩

/-- A new file has the record that is kept, and then what is copied. -/
theorem statusClose_renamed {env : Env} {st : Handle} {sr : StatusRec} {content : List Byte}
    (hcur : st.current = some sr) (h : statusClose env st = .ok (.renamed content)) :
    ∃ s s' ups, statusWr env st.toState sr = .ok s ∧ copyLoop s.turns s = .ok s' ∧
      content = s'.wr.getD [] ++ ups := by
  unfold statusClose at h
  split at h
  · cases h
  · split at h
    · rw [hcur] at h
      obtain ⟨s, hs, h⟩ := of_bind_ok h
      obtain ⟨s', hs', h⟩ := of_bind_ok h
      split at h
      · cases h
      · split at h
        · cases h
        · obtain ⟨ups, -, h⟩ := of_bind_ok h
          cases h
          exact ⟨s, s', ups, hs, hs', rfl⟩
    · cases h

/-! ## The put of a file over a directory -/

/-- The directory is ahead in the file that is read: what opens it, what is in it, and
what closes it. -/
structure AtPlace (env : Env) (st : Handle) (path : List Component)
    (pre inner post : List StatusRec) (up : StatusRec) : Prop where
  remains : Remains env st (pre ++ rawRec .dirdown (joinPath path) :: (inner ++ up :: post))
  sorted : (pre ++ rawRec .dirdown (joinPath path) :: (inner ++ up :: post)).Pairwise
    fun a b => statusrecCmp a b < 0
  ne : path ≠ []
  up_type : up.type = .dirup
  up_file : up.file = joinPath path
  inside : ∀ sr ∈ inner, ∃ r, sr.file = joinPath path ++ 47 :: r
  names : ∀ sr ∈ pre, IsPath sr
  writes : Writes st.toState

/-- The put and the close leave a file that is read, that is sorted, and that has the
record and the others, but nothing of a directory with its name. -/
def Replaced (env : Env) (st : Handle) (sr : StatusRec) (others : List StatusRec) : Prop :=
  ∃ st' content recs, statusPut env st sr = .ok (st', true) ∧
    statusClose env st' = .ok (.renamed content) ∧
    Unread env none 0 (behindLine nl content) recs ∧
    recs.Pairwise (fun a b => statusrecCmp a b < 0) ∧ sr ∈ recs ∧
    (∀ r ∈ recs, r.file = sr.file → ¬ofDir r) ∧
    (∀ r ∈ recs, ∀ t, r.file ≠ sr.file ++ 47 :: t) ∧ ∀ r ∈ others, r ∈ recs

theorem searched_append {key : StatusRec} {pre rest : List StatusRec}
    (h : ∀ sr ∈ pre, statusrecCmp sr key < 0) : searched key (pre ++ rest) = searched key rest :=
  List.dropWhile_append_of_pos fun sr hsr => decide_eq_true (h sr hsr)

/-- The key of a file is compared as the record that opens a directory of its name. -/
theorem statusrecCmp_key (sr : StatusRec) (name : List Byte) :
    statusrecCmp sr (keyRec name false) = statusrecCmp sr (rawRec .dirdown name) :=
  statusrecCmp_congr ⟨rfl, .rfl⟩ ⟨rfl, by simp [keyRec, rawRec]⟩

section Place

variable {env : Env} {st : Handle} {path : List Component} {pre inner post : List StatusRec}
  {up : StatusRec}

/-- The search for the file stops at the directory. -/
theorem AtPlace.down_key (h : AtPlace env st path pre inner post up) :
    searched (keyRec (joinPath path) false)
        (pre ++ rawRec .dirdown (joinPath path) :: (inner ++ up :: post)) =
      rawRec .dirdown (joinPath path) :: (inner ++ up :: post) := by
  have hpre : ∀ sr ∈ pre, statusrecCmp sr (keyRec (joinPath path) false) < 0 := by
    intro sr hsr
    rw [statusrecCmp_key]
    exact (List.pairwise_append.mp h.sorted).2.2 sr hsr _ (List.mem_cons_self ..)
  have hcmp : statusrecCmp (rawRec .dirdown (joinPath path)) (keyRec (joinPath path) false) = 0 :=
    statusrecCmp_same rfl
  rw [searched_append hpre, searched_cons, if_neg (by omega)]

/-- What is copied has names that are paths. -/
theorem AtPlace.paths (h : AtPlace env st path pre inner post up) :
    ∀ sr ∈ pre ++ rawRec .dirdown (joinPath path) :: (inner ++ up :: post),
      statusrecCmp sr (keyRec (joinPath path) false) < 0 → IsPath sr := by
  intro sr hsr hcmp
  rcases List.mem_append.mp hsr with hsr | hsr
  · exact h.names sr hsr
  · rcases List.mem_cons.mp hsr with rfl | hsr
    · exact ⟨path, rfl⟩
    · have hgt := statusrecCmp_pos
        (List.rel_of_pairwise_cons (List.pairwise_append.mp h.sorted).2.1 hsr)
      rw [statusrecCmp_key] at hcmp
      omega

/-- The first search of a put. -/
theorem AtPlace.found (h : AtPlace env st path pre inner post up) {st' : Handle} {got : Got}
    (hget : statusGet env st (some (joinPath path)) false false = .ok (st', got)) :
    got = .found (rawRec .dirdown (joinPath path)) ∧
      st'.current = some (rawRec .dirdown (joinPath path)) ∧
      Remains env st' (rawRec .dirdown (joinPath path) :: (inner ++ up :: post)) ∧
      Writes st'.toState := by
  have hcmp : statusrecCmp (rawRec .dirdown (joinPath path)) (keyRec (joinPath path) false) = 0 :=
    statusrecCmp_same rfl
  obtain ⟨hrest, rfl⟩ := statusGet_reads h.remains hget
  rw [h.down_key] at hrest
  rw [h.down_key, answer, if_pos hcmp] at hget ⊢
  exact ⟨rfl, statusGet_current hget, hrest, h.writes.statusGet h.remains h.paths hget⟩

/-- The search for the end of the directory goes past everything in it. -/
theorem AtPlace.up_key (h : AtPlace env st path pre inner post up) :
    searched (keyRec (joinPath path) true)
        (rawRec .dirdown (joinPath path) :: (inner ++ up :: post)) = up :: post ∧
      statusrecCmp up (keyRec (joinPath path) true) = 1 := by
  have hdown : statusrecCmp (rawRec .dirdown (joinPath path)) (keyRec (joinPath path) true) = -1 :=
    statusrecCmp_same rfl
  have hup : statusrecCmp up (keyRec (joinPath path) true) = 1 := by
    rw [statusrecCmp_same h.up_file, if_pos h.up_type]
  have hinner : ∀ sr ∈ inner, statusrecCmp sr (keyRec (joinPath path) true) < 0 := by
    intro sr hsr
    obtain ⟨r, hr⟩ := h.inside sr hsr
    rw [statusrecCmp_above (show sr.file = (keyRec (joinPath path) true).file ++ 47 :: r from hr),
      if_pos ⟨rfl, rfl⟩]
    decide
  refine ⟨?_, hup⟩
  rw [searched_cons, if_pos (by omega), searched_append hinner, searched_cons, if_neg (by omega)]

/-- The put of a file finds the directory. -/
theorem AtPlace.put_eq (h : AtPlace env st path pre inner post up) {sr : StatusRec}
    (hfile : sr.file = joinPath path) (ht : ¬ofDir sr) {r : Handle × Bool}
    (hput : statusPut env st sr = .ok r) :
    ∃ st₁, st₁.current = some (rawRec .dirdown (joinPath path)) ∧
      Remains env st₁ (rawRec .dirdown (joinPath path) :: (inner ++ up :: post)) ∧
      Writes st₁.toState ∧
      (if sr.type = .checkoutlive ∨ sr.type = .checkoutdead then do
        match ← statusGet env st₁ (some (joinPath path)) true true with
        | (st, .failed) => return (st, false)
        | (_, .absent) => throw .assertion
        | (st, .found _) => st.put env sr
      else st₁.put env sr) = .ok r := by
  have hkey : decide (sr.type = .dirup) = false := decide_eq_false fun hup => ht (.inr hup)
  rw [statusPut, hfile, hkey] at hput
  obtain ⟨⟨st₁, got⟩, hget, hput⟩ := of_bind_ok hput
  obtain ⟨rfl, hcur, hrest, hwrites⟩ := h.found hget
  dsimp only at hput
  have hdown : (rawRec .dirdown (joinPath path)).type = .dirdown := rfl
  rw [if_pos hdown] at hput
  exact ⟨st₁, hcur, hrest, hwrites, hput⟩

/-- The second search returns 0, and the assertion behind it fails. -/
theorem AtPlace.assertion (h : AtPlace env st path pre inner post up) {sr : StatusRec}
    (hfile : sr.file = joinPath path) (ht : sr.type = .checkoutlive ∨ sr.type = .checkoutdead)
    (r : Handle × Bool) : statusPut env st sr ≠ .ok r := by
  intro hput
  have hdir : ¬ofDir sr := by
    rcases ht with ht | ht <;> simp [ofDir, ht]
  obtain ⟨st₁, -, hrest, -, hput⟩ := h.put_eq hfile hdir hput
  rw [if_pos ht] at hput
  obtain ⟨⟨st₂, got⟩, hget, hput⟩ := of_bind_ok hput
  obtain ⟨-, rfl⟩ := statusGet_reads hrest hget
  rw [h.up_key.1, answer, if_neg (by rw [h.up_key.2]; decide)] at hput
  cases hput

/-- The directory is still there. -/
theorem AtPlace.stays (h : AtPlace env st path pre inner post up) {sr : StatusRec}
    (hfile : sr.file = joinPath path) (ht : sr.type = .filelive ∨ sr.type = .filedead)
    {st' : Handle} {content : List Byte} {recs : List StatusRec}
    (hput : statusPut env st sr = .ok (st', true))
    (hclose : statusClose env st' = .ok (.renamed content))
    (hunread : Unread env none 0 (behindLine nl content) recs) :
    ∃ r ∈ recs, r.type = .dirdown ∧ r.file = joinPath path := by
  have hplain : Plain (joinPath path) := ⟨joinPath_ne_nil h.ne, zero_notMem_joinPath path⟩
  have hdir : ¬ofDir sr ∧ ¬(sr.type = .checkoutlive ∨ sr.type = .checkoutdead) := by
    rcases ht with ht | ht <;> simp [ofDir, ht]
  obtain ⟨st₁, hcur, -, hwrites, hput⟩ := h.put_eq hfile hdir.1 hput
  rw [if_neg hdir.2] at hput
  -- the file is written, and then the directory, which has been kept
  obtain ⟨s, hwr, hput⟩ := of_bind_ok hput
  cases hput
  obtain ⟨⟨⟨u, hu⟩, -⟩, hrest⟩ := hwrites.statusWr hfile hwr
  have htarget : targetDir (pcType sr.type) path = path.dropLast := by
    rcases ht with ht | ht <;> rw [ht] <;> rfl
  rw [htarget] at hrest
  have hown : (rawRec .dirdown (joinPath path)).file = joinPath (path.dropLast ++ [path.getLast h.ne]) := by
    rw [List.dropLast_append_getLast]
    rfl
  obtain ⟨pc, hdown⟩ := @statusWr_eq env _ _ (.dirdown hplain)
    (placed_of_atRest hrest hown (by simp))
  obtain ⟨s₁, s₂, ups, hs₁, hs₂, rfl⟩ := @statusClose_renamed env ⟨s, st₁.current, true⟩ _ _ hcur hclose
  obtain rfl := Except.ok.inj (hdown.symm.trans hs₁)
  obtain ⟨out, hout⟩ := copyLoop_wr (w := (u ++ [nl]) ++ recordText env (rawRec .dirdown (joinPath path)))
    (by simp [State.add, hu, rawRec]) hs₂
  rw [hout, Option.getD_some, List.append_assoc, List.append_assoc] at hunread
  exact mem_dirdown hplain hunread

end Place

/-- No directory is replaced by a file: the put fails an assertion, or the directory stays. -/
theorem not_replaced {env : Env} {st : Handle} {path : List Component}
    {pre inner post : List StatusRec} {up sr : StatusRec}
    (h : AtPlace env st path pre inner post up) (hfile : sr.file = joinPath path)
    (htype : ¬ofDir sr) : ¬Replaced env st sr (pre ++ post) := by
  rintro ⟨st', content, recs, hput, hclose, hunread, -, -, hdir, -, -⟩
  have hcases : (sr.type = .checkoutlive ∨ sr.type = .checkoutdead) ∨
      sr.type = .filelive ∨ sr.type = .filedead := by
    cases ht : sr.type <;> simp_all [ofDir]
  rcases hcases with ht | ht
  · exact h.assertion hfile ht _ hput
  · obtain ⟨r, hr, hdown, hname⟩ := h.stays hfile ht hput hclose hunread
    exact hdir r hr (hname.trans hfile.symm) (.inl hdown)

/-! ## An opened file -/

theorem writes_opened {goal : Nat} {file : List Byte} {scantime : Int} {st : Handle}
    (hopen : statusOpen goal (some file) scantime = some st) (hscan : scantime ≠ -1) :
    Writes st.toState := by
  obtain ⟨wr, dirty, rfl, hwr⟩ := statusOpen_eq hopen
  rw [if_neg hscan] at hwr
  obtain ⟨head, hhead⟩ : ∃ head,
      protoPrintf (bytes "F %d %t\n".toList) [.int 5, .time scantime] = some head := ⟨_, rfl⟩
  obtain ⟨u, rfl⟩ := protoPrintf_wholeLines (by decide) (by decide) hhead
  exact ⟨⟨u, hwr.symm.trans hhead⟩, [], Pathcomp.atRest_new goal⟩

/-- A directory of a file that is opened for updating is ahead. -/
theorem atPlace_opened {env : Env} {goal : Nat} {file : List Byte} {scantime : Int} {st : Handle}
    {path : List Component} {pre inner post : List StatusRec} {up : StatusRec}
    (hfile : WellFormed env file
      (pre ++ rawRec .dirdown (joinPath path) :: (inner ++ up :: post)))
    (hopen : statusOpen goal (some file) scantime = some st) (hscan : scantime ≠ -1)
    (hne : path ≠ []) (hup : up.type = .dirup ∧ up.file = joinPath path)
    (hinner : ∀ sr ∈ inner, ∃ r, sr.file = joinPath path ++ 47 :: r)
    (hpre : ∀ sr ∈ pre, IsPath sr) : AtPlace env st path pre inner post up :=
  ⟨remains_opened hfile.unread hopen, hfile.sorted, hne, hup.1, hup.2, hinner, hpre,
    writes_opened hopen hscan⟩

/-- The file with the empty directory, opened for updating. -/
def updatedDir : Handle := ⟨{ openedDir.toState with wr := some (bytes "F 5 7\n".toList) }, none, true⟩

/-- The name of the directory. -/
def dirName : Component := ⟨[97], by decide, by decide, by decide⟩

theorem atPlace_updatedDir : AtPlace envOfNone updatedDir [dirName] [] [] [] dirUp :=
  @atPlace_opened envOfNone 0 emptyDir 7 updatedDir [dirName] [] [] [] dirUp wellFormed_emptyDir rfl
    (by decide) (by decide) ⟨rfl, rfl⟩ (by simp) (by simp)

/-- It is not replaced by a live file. -/
theorem not_replaced_emptyDir :
    ¬Replaced envOfNone updatedDir (liveFile [97]) ([] ++ []) :=
  not_replaced atPlace_updatedDir rfl (by simp [ofDir, liveFile, rawRec])

theorem not_replaced_liveFile :
    ¬ ∀ (env : Env) (st : Handle) (path : List Component) (pre inner post : List StatusRec)
        (up sr : StatusRec), AtPlace env st path pre inner post up → sr.file = joinPath path →
        ¬ofDir sr → Replaced env st sr (pre ++ post) := by
  intro h
  obtain ⟨st', content, recs, hput, hclose, hunread, -, -, hdir, -, -⟩ :=
    h envOfNone updatedDir _ _ _ _ _ (liveFile [97]) atPlace_updatedDir rfl
      (by simp [ofDir, liveFile, rawRec])
  obtain ⟨r, hr, hdown, hname⟩ := atPlace_updatedDir.stays rfl (.inl rfl) hput hclose hunread
  exact hdir r hr hname (.inl hdown)

end Csup.Status
