import Csup.Proto.Tokens
import Csup.Status.Raw

/-!
# Lookups in a status file: `status.c`

`status_open`, `status_get`, `status_put`, `status_delete` and `status_close`. A search
reads forward: the record that it stops at is kept (`current`) for the next one, and
what it passes by is copied.

* `Unread`, `Reads`: the records that a status file still has;
* `statusGet_reads`: a search stops at the first record that is not less than its key.
-/

namespace Csup.Status

open Csup.Framework
open Csup.Proto

/-- `struct status` with what the lookups look at. -/
structure Handle extends State where
  current : Option StatusRec
  dirty : Bool

/-! ## `status_open` -/

/-- `status_new`; the goal of the path compressor is not initialized. -/
def statusNew (goal : Nat) (rd : Option (List Byte)) : State where
  rd := rd
  wr := none
  pc := Pathcomp.pathcompNew goal
  previous := none
  eof := false
  linenum := 0
  depth := 0
  error := none

/-- `status_fromrd`, with the time of the last scan; `none` where the header is bad. -/
def statusFromrd (goal : Nat) (file : List Byte) : Option (Int × State) := do
  let (line, rd) ← streamGetln file
  let (id, line) := protoGetAscii (some line)
  let (ver, line) := protoGetInt 10 line
  let ver ← ver
  let (scantime, line) := protoGetTime line
  let scantime ← scantime
  if line = none ∧ id = some (bytes "F".toList) ∧ ver = 5 then
    some (scantime, { statusNew goal (some rd) with linenum := 1 })
  else none

/-- `status_fromnull` -/
def statusFromnull (goal : Nat) : Int × State := (-1, { statusNew goal none with eof := true })

/-- `status_open` of a file, or of none; the file that is written can be created. -/
def statusOpen (goal : Nat) (file : Option (List Byte)) (scantime : Int) : Option Handle := do
  let (t, st) ← match file with
    | none => some (statusFromnull goal)
    | some file => statusFromrd goal file
  if scantime = -1 then return { st with current := none, dirty := false }
  let head ← protoPrintf (bytes "F %d %t\n".toList) [.int 5, .time scantime]
  return { st with wr := some head, current := none, dirty := scantime ≠ t }

/-! ## `status_get` -/

/-- What `status_get` returns: -1, 0, or 1 and a record. -/
inductive Got
  | failed | absent
  | found (sr : StatusRec)

/-- There is no record to return. -/
def Handle.noRecord (st : Handle) : Handle × Got :=
  (st, if st.error.isSome then .failed else .absent)

/-- The key of a search. -/
def keyRec (name : List Byte) (isdirup : Bool) : StatusRec :=
  rawRec (if isdirup then .dirup else .checkoutlive) name

/-- The record that was kept, or the next one. -/
def Handle.next (env : Env) (st : Handle) : Handle × Option StatusRec :=
  match st.current with
  | some sr => ({ st with current := none }, some sr)
  | none =>
    let (s, sr) := statusRd env st.toState
    ({ st with toState := s }, sr)

/-- The loop of `status_get`, which ends before the turns do when there are more of them
than bytes to read. -/
def getLoop (env : Env) (key : StatusRec) (deleteto : Bool) :
    Nat → Handle → Except Fault (Handle × Got)
  | 0, st => .ok (st, .failed)
  | turns + 1, st =>
    match statusRdraw st.toState with
    | (s, none) => .ok ({ st with toState := s } : Handle).noRecord
    | (s, some (sr, line)) =>
      let st : Handle := { st with toState := s }
      let c := statusrecCmp sr key
      if 0 ≤ c then
        match statusrecCook env sr line with
        | none => .ok ({ st with error := some .parse }, .failed)
        | some sr => .ok ({ st with previous := some sr, current := some sr },
            if c = 0 then .found sr else .absent)
      else if deleteto then getLoop env key deleteto turns st
      else do
        let s ← statusWrraw st.toState sr line
        getLoop env key deleteto turns { st with toState := s }

/-- The bytes that are still to be read. -/
def State.left (st : State) : Nat := (st.rd.getD []).length

/-- More turns than a loop needs. -/
def State.turns (st : State) : Nat := st.left + 1

/-- `status_get` -/
def statusGet (env : Env) (st : Handle) (name : Option (List Byte)) (isdirup deleteto : Bool) :
    Except Fault (Handle × Got) :=
  if st.eof then .ok (st, .absent)
  else if st.error.isSome then .ok (st, .failed)
  else
    match name with
    | none =>
      match statusRd env st.toState with
      | (s, none) => .ok ({ st with toState := s } : Handle).noRecord
      | (s, some sr) => .ok ({ st with toState := s }, .found sr)
    | some name =>
      match st.next env with
      | (st, none) => .ok st.noRecord
      | (st, some sr) =>
        let key := keyRec name isdirup
        let c := statusrecCmp sr key
        if c < 0 then do
          let s ← if st.wr.isSome ∧ deleteto = false then statusWr env st.toState sr
            else .ok st.toState
          getLoop env key deleteto s.turns { st with toState := s }
        else .ok ({ st with current := some sr }, if c = 0 then .found sr else .absent)

/-! ## `status_put` and `status_delete` -/

/-- The record of `status_put` is written. -/
def Handle.put (env : Env) (st : Handle) (sr : StatusRec) : Except Fault (Handle × Bool) := do
  let s ← statusWr env st.toState sr
  return ({ st with toState := s, dirty := true }, true)

/-- `status_put`, and whether it returns 0. -/
def statusPut (env : Env) (st : Handle) (sr : StatusRec) : Except Fault (Handle × Bool) := do
  match ← statusGet env st (some sr.file) (sr.type = .dirup) false with
  | (st, .failed) => return (st, false)
  | (st, .absent) => st.put env sr
  | (st, .found old) =>
    if old.type = .dirdown then
      if sr.type = .checkoutlive ∨ sr.type = .checkoutdead then
        match ← statusGet env st (some sr.file) true true with
        | (st, .failed) => return (st, false)
        | (_, .absent) => throw .assertion
        | (st, .found _) => st.put env sr
      else st.put env sr
    else ({ st with current := none } : Handle).put env sr

/-- `status_delete`, and whether it returns 0. -/
def statusDelete (env : Env) (st : Handle) (name : List Byte) (isdirup : Bool) :
    Except Fault (Handle × Bool) := do
  match ← statusGet env st (some name) isdirup false with
  | (st, .failed) => return (st, false)
  | (st, .absent) => return (st, true)
  | (st, .found _) => return ({ st with current := none, dirty := true }, true)

/-! ## `status_close` -/

/-- The rest of the file is copied. -/
def copyLoop : Nat → State → Except Fault State
  | 0, st => .ok { st with error := some .trunc }
  | turns + 1, st =>
    match statusRdraw st with
    | (st, none) => .ok st
    | (st, some (sr, line)) => do
      let st ← statusWrraw st sr line
      copyLoop turns st

/-- The directories that are still open are closed. -/
def closeDirs (env : Env) : List Pathcomp.Event → Except Fault (List Byte)
  | [] => .ok []
  | (type, name) :: events =>
    if type = .dirUp then do
      let line ← printf "U %s %a\n".toList [some (.str name), attrArg env (some fattrBogus)]
      let rest ← closeDirs env events
      return line ++ rest
    else .error .assertion

/-- What `status_close` leaves: the file as it was, a new file, or an error. -/
inductive Closed
  | kept
  | renamed (content : List Byte)
  | failed (err : StatusErr)
  deriving DecidableEq

/-- `status_close`; the file is renamed without an error. -/
def statusClose (env : Env) (st : Handle) : Except Fault Closed :=
  match st.wr with
  | none => .ok .kept
  | some _ =>
    if st.dirty then do
      let s ← match st.current with
        | some sr => statusWr env st.toState sr
        | none => .ok st.toState
      let s ← copyLoop s.turns s
      match s.error with
      | some err => return .failed err
      | none =>
        match Pathcomp.drain (s.pc.curlen + 1) (Pathcomp.pathcompFinish s.pc) [] with
        | .error f => throw (.pathcomp f)
        | .ok (events, _, _) =>
          let ups ← closeDirs env events
          return .renamed (s.wr.getD [] ++ ups)
    else .ok .kept

/-! ## The records of a file -/

/-- The type and the name of a record, by which records are compared. -/
def StatusRec.raw (sr : StatusRec) : StatusRec := rawRec sr.type sr.file

/-- The lines `rd` are the records `recs`, which are read behind `prev` with `depth`
directories open. -/
inductive Unread (env : Env) : Option StatusRec → Nat → List Byte → List StatusRec → Prop
  | nil {prev : Option StatusRec} : Unread env prev 0 [] []
  | cons {prev : Option StatusRec} {depth : Nat} {rd : List Byte} {l : Option (List Byte)}
      {sr : StatusRec} {srs : List StatusRec} (hne : rd ≠ [])
      (hline : lineRec (cline (lineOf nl rd)) = some (sr.type, sr.file, l))
      (hcook : statusrecCook env sr.raw l = some sr)
      (hsorted : prev.any (fun p => 0 ≤ statusrecCmp p sr) = false)
      (hopen : sr.type = .dirup → depth ≠ 0)
      (hrest : Unread env (some sr.raw) (depthAfter sr.type depth) (behindLine nl rd) srs) :
      Unread env prev depth rd (sr :: srs)

/-- The records that are still to be read. -/
structure Reads (env : Env) (st : State) (recs : List StatusRec) : Prop where
  error : st.error = none
  unread : st.eof = true ∧ recs = [] ∨
    ∃ rd, st.rd = some rd ∧ st.eof = false ∧ Unread env (st.previous.map StatusRec.raw) st.depth rd recs

theorem Reads.frame {env : Env} {st : State} {recs : List StatusRec} (h : Reads env st recs)
    (wr : Option (List Byte)) (pc : Pathcomp.State) : Reads env { st with wr, pc } recs :=
  ⟨h.error, h.unread⟩

theorem Reads.rdraw_nil {env : Env} {st : State} (h : Reads env st []) :
    statusRdraw st = ({ st with eof := true }, none) := by
  rcases h.unread with ⟨heof, -⟩ | ⟨rd, hrd, heof, hunread⟩
  · rw [statusRdraw]
    split
    · rw [← heof]
    · rw [if_pos heof, ← heof]
  · generalize hd : st.depth = depth at hunread
    cases hunread
    rw [statusRdraw, hrd]
    simp [heof, streamGetln, hd]

theorem length_behindLine_lt {rd : List Byte} (hne : rd ≠ []) :
    (behindLine nl rd).length < rd.length := by
  have hsplit := isText_splitLines nl rd
  rcases hs : splitLines nl rd with - | ⟨l, ls⟩
  · have := flatten_splitLines nl rd
    rw [hs] at this
    exact absurd this.symm hne
  · have hlast : LastLine nl l := hsplit.lastLine l (by simp [hs])
    have hlen := congrArg List.length (flatten_splitLines nl rd)
    rw [hs, List.flatten_cons, List.length_append] at hlen
    rw [behindLine, hs, List.tail_cons]
    have := List.length_pos_iff.mpr hlast.1
    omega

/-- The next record is read, up to its fields. -/
structure Draws (env : Env) (st : State) (sr : StatusRec) (srs : List StatusRec) (st' : State)
    (l : Option (List Byte)) : Prop where
  raw : statusRdraw st = (st', some (sr.raw, l))
  cook : statusrecCook env sr.raw l = some sr
  wr : st'.wr = st.wr
  pc : st'.pc = st.pc
  eof : st'.eof = false
  left : st'.left < st.left
  next : Reads env st' srs
  cooked : Reads env { st' with previous := some sr } srs

theorem Reads.draws {env : Env} {st : State} {sr : StatusRec} {srs : List StatusRec}
    (h : Reads env st (sr :: srs)) : ∃ st' l, Draws env st sr srs st' l := by
  rcases h.unread with ⟨-, hnil⟩ | ⟨rd, hrd, heof, hunread⟩
  · cases hnil
  · generalize hd : st.depth = depth at hunread
    cases hunread with
    | @cons _ _ _ l _ _ hne hline hcook hsorted hopen hrest =>
      rw [Option.any_map] at hsorted
      have htakes : Takes st (rawRec sr.type sr.file) := ⟨heof, hsorted, hd ▸ hopen⟩
      refine ⟨_, l, statusRdraw_of hrd hne hline htakes, hcook, rfl, rfl, heof, ?_,
        ⟨h.error, .inr ⟨_, rfl, heof, hd ▸ hrest⟩⟩, ⟨h.error, .inr ⟨_, rfl, heof, hd ▸ hrest⟩⟩⟩
      simp only [State.left, hrd, Option.getD_some]
      exact length_behindLine_lt hne

theorem Reads.rd_nil {env : Env} {st : State} (h : Reads env st []) :
    statusRd env st = ({ st with eof := true }, none) := by
  rw [statusRd, h.rdraw_nil]

theorem Draws.rd {env : Env} {st st' : State} {sr : StatusRec} {srs : List StatusRec}
    {l : Option (List Byte)} (h : Draws env st sr srs st' l) :
    statusRd env st = ({ st' with previous := some sr }, some sr) := by
  simp only [statusRd, h.raw, h.cook]

/-! ## What writing leaves alone -/

theorem of_bind_ok {ε α β : Type} {x : Except ε α} {f : α → Except ε β} {b : β}
    (h : (x >>= f) = .ok b) : ∃ a, x = .ok a ∧ f a = .ok b := by
  rcases x with e | a
  · cases h
  · exact ⟨a, rfl, h⟩

theorem statusWr_frame {env : Env} {st st' : State} {sr : StatusRec}
    (h : statusWr env st sr = .ok st') : ∃ wr pc, st' = { st with wr, pc } := by
  obtain ⟨⟨events, pc⟩, -, h⟩ := of_bind_ok h
  obtain ⟨dirs, -, h⟩ := of_bind_ok h
  obtain ⟨line, -, h⟩ := of_bind_ok h
  cases h
  exact ⟨_, _, rfl⟩

theorem statusWrraw_frame {st st' : State} {sr : StatusRec} {l : Option (List Byte)}
    (h : statusWrraw st sr l = .ok st') : ∃ wr pc, st' = { st with wr, pc } := by
  unfold statusWrraw at h
  split at h
  · cases h
    exact ⟨_, _, rfl⟩
  · obtain ⟨⟨events, pc⟩, -, h⟩ := of_bind_ok h
    dsimp only at h
    split at h
    · split at h <;> obtain ⟨out, -, h⟩ := of_bind_ok h <;> cases h <;> exact ⟨_, _, rfl⟩
    · cases h

/-! ## A search -/

/-- The answer to a search that stops in front of `recs`. -/
def answer (key : StatusRec) : List StatusRec → Got
  | [] => .absent
  | sr :: _ => if statusrecCmp sr key = 0 then .found sr else .absent

/-- The records from the first on that is not less than the key. -/
def searched (key : StatusRec) (recs : List StatusRec) : List StatusRec :=
  recs.dropWhile fun sr => statusrecCmp sr key < 0

/-- The records that are left, with the one that is kept. -/
def Remains (env : Env) (st : Handle) (recs : List StatusRec) : Prop :=
  match st.current with
  | none => Reads env st.toState recs
  | some sr => st.eof = false ∧ ∃ srs, recs = sr :: srs ∧ Reads env st.toState srs

theorem statusrecCmp_raw (a b : StatusRec) : statusrecCmp a.raw b = statusrecCmp a b := rfl

theorem searched_cons {key sr : StatusRec} {srs : List StatusRec} :
    searched key (sr :: srs) =
      if statusrecCmp sr key < 0 then searched key srs else sr :: srs := by
  simp only [searched, List.dropWhile_cons, decide_eq_true_eq]

theorem getLoop_reads {env : Env} {key : StatusRec} {deleteto : Bool} {turns : Nat} {st : Handle}
    {recs : List StatusRec} (hr : Reads env st.toState recs) (hc : st.current = none)
    (ht : st.left < turns) {st' : Handle} {got : Got}
    (hok : getLoop env key deleteto turns st = .ok (st', got)) :
    Remains env st' (searched key recs) ∧ got = answer key (searched key recs) := by
  induction turns generalizing st recs with
  | zero => omega
  | succ turns ih =>
    cases recs with
    | nil =>
      simp only [getLoop, hr.rdraw_nil, Handle.noRecord, hr.error] at hok
      cases hok
      refine ⟨?_, rfl⟩
      show Remains env _ []
      simp only [Remains, hc]
      exact ⟨rfl, .inl ⟨rfl, rfl⟩⟩
    | cons sr srs =>
      obtain ⟨s, l, hdraw⟩ := hr.draws
      simp only [getLoop, hdraw.raw, statusrecCmp_raw, hdraw.cook] at hok
      rw [searched_cons]
      have hleft := hdraw.left
      by_cases hcmp : statusrecCmp sr key < 0
      · rw [if_neg (by omega)] at hok
        rw [if_pos hcmp]
        have hturns : s.left < turns := by omega
        split at hok
        · refine ih ?_ ?_ ?_ hok
          exacts [hdraw.next, hc, hturns]
        · obtain ⟨s', hwr, hok⟩ := of_bind_ok hok
          obtain ⟨wr, pc, rfl⟩ := statusWrraw_frame hwr
          refine ih ?_ ?_ ?_ hok
          exacts [hdraw.next.frame wr pc, hc, hturns]
      · rw [if_pos (by omega)] at hok
        rw [if_neg hcmp]
        cases hok
        exact ⟨⟨hdraw.eof, srs, rfl, hdraw.cooked⟩, rfl⟩

theorem Remains.error {env : Env} {st : Handle} {recs : List StatusRec}
    (h : Remains env st recs) : st.error = none := by
  obtain ⟨s, - | sr, dirty⟩ := st
  · exact Reads.error h
  · obtain ⟨-, srs, -, h⟩ := h
    exact Reads.error h

theorem Remains.of_eof {env : Env} {st : Handle} {recs : List StatusRec}
    (h : Remains env st recs) (heof : st.eof = true) : recs = [] := by
  obtain ⟨s, - | sr, dirty⟩ := st
  · rcases Reads.unread h with ⟨-, hnil⟩ | ⟨rd, -, hno, -⟩
    · exact hnil
    · exact absurd (heof.symm.trans hno) (by decide)
  · exact absurd (heof.symm.trans h.1) (by decide)

/-- No record is left. -/
theorem Remains.next_nil {env : Env} {st : Handle} (h : Remains env st []) :
    st.next env = ({ st with eof := true }, none) ∧ Remains env { st with eof := true } [] := by
  obtain ⟨s, - | sr, dirty⟩ := st
  · have hs : Reads env s [] := h
    simp only [Handle.next, hs.rd_nil]
    exact ⟨trivial, hs.error, .inl ⟨rfl, rfl⟩⟩
  · obtain ⟨-, srs, hnil, -⟩ := h
    cases hnil

/-- The next record, as a search takes it. -/
theorem Remains.next_cons {env : Env} {st : Handle} {sr : StatusRec} {srs : List StatusRec}
    (h : Remains env st (sr :: srs)) :
    ∃ s : State, st.next env = ({ st with toState := s, current := none }, some sr) ∧
      Reads env s srs ∧ s.eof = false ∧ s.wr = st.wr ∧ s.pc = st.pc := by
  obtain ⟨s, - | sr', dirty⟩ := st
  · obtain ⟨s', l, hdraw⟩ := Reads.draws h
    simp only [Handle.next, hdraw.rd]
    exact ⟨_, rfl, hdraw.cooked, hdraw.eof, hdraw.wr, hdraw.pc⟩
  · obtain ⟨heof, srs', heq, h⟩ := h
    cases heq
    exact ⟨s, rfl, h, heof, rfl, rfl⟩

/-- A search stops in front of the first record that is not less than its key. -/
theorem statusGet_reads {env : Env} {st st' : Handle} {recs : List StatusRec} {name : List Byte}
    {isdirup deleteto : Bool} {got : Got} (h : Remains env st recs)
    (hok : statusGet env st (some name) isdirup deleteto = .ok (st', got)) :
    Remains env st' (searched (keyRec name isdirup) recs) ∧
      got = answer (keyRec name isdirup) (searched (keyRec name isdirup) recs) := by
  unfold statusGet at hok
  split at hok
  · next heof =>
    cases hok
    obtain rfl := h.of_eof heof
    exact ⟨h, rfl⟩
  simp only [h.error, Option.isSome_none, Bool.false_eq_true, if_false] at hok
  cases recs with
  | nil =>
    obtain ⟨hnext, hrest⟩ := h.next_nil
    simp only [hnext, Handle.noRecord, h.error, Option.isSome_none, Bool.false_eq_true, if_false]
      at hok
    cases hok
    have herr := h.error
    rcases st with ⟨⟨_, _, _, _, _, _, _, error⟩, _, _⟩
    obtain rfl : error = none := herr
    exact ⟨hrest, rfl⟩
  | cons sr srs =>
    obtain ⟨s, hnext, hrest, heof, -, -⟩ := h.next_cons
    simp only [hnext] at hok
    rw [searched_cons]
    split at hok
    · next hcmp =>
      rw [if_pos hcmp]
      split at hok <;> obtain ⟨s', hwr, hok⟩ := of_bind_ok hok
      · obtain ⟨wr, pc, rfl⟩ := statusWr_frame hwr
        refine getLoop_reads ?_ ?_ ?_ hok
        exacts [hrest.frame wr pc, rfl, Nat.lt_succ_self _]
      · cases hwr
        refine getLoop_reads ?_ ?_ ?_ hok
        exacts [hrest, rfl, Nat.lt_succ_self _]
    · next hcmp =>
      rw [if_neg hcmp]
      cases hok
      exact ⟨⟨heof, srs, rfl, hrest⟩, rfl⟩

/-- What is found is kept. -/
theorem getLoop_current {env : Env} {key sr : StatusRec} {deleteto : Bool} {turns : Nat}
    {st st' : Handle} (hok : getLoop env key deleteto turns st = .ok (st', .found sr)) :
    st'.current = some sr := by
  induction turns generalizing st with
  | zero => cases hok
  | succ turns ih =>
    rw [getLoop] at hok
    split at hok
    · simp only [Handle.noRecord] at hok
      split at hok <;> cases hok
    · dsimp only at hok
      split at hok
      · split at hok
        · cases hok
        · split at hok <;> cases hok
          rfl
      · split at hok
        · exact ih hok
        · obtain ⟨s, -, hok⟩ := of_bind_ok hok
          exact ih hok

theorem statusGet_current {env : Env} {st st' : Handle} {sr : StatusRec} {name : List Byte}
    {isdirup deleteto : Bool}
    (hok : statusGet env st (some name) isdirup deleteto = .ok (st', .found sr)) :
    st'.current = some sr := by
  unfold statusGet at hok
  split at hok
  · cases hok
  split at hok
  · cases hok
  dsimp only at hok
  split at hok
  · simp only [Handle.noRecord] at hok
    split at hok <;> cases hok
  · split at hok
    · split at hok <;> obtain ⟨s, -, hok⟩ := of_bind_ok hok <;> exact getLoop_current hok
    · split at hok <;> cases hok
      rfl

/-! ## Searches that fail no assertion -/

theorem getLoop_isOk {env : Env} {key : StatusRec} {deleteto : Bool} {turns : Nat} {st : Handle}
    {recs : List StatusRec} (hr : Reads env st.toState recs)
    (h : deleteto = true ∨ st.wr = none) : ∃ r, getLoop env key deleteto turns st = .ok r := by
  induction turns generalizing st recs with
  | zero => exact ⟨_, rfl⟩
  | succ turns ih =>
    cases recs with
    | nil =>
      simp only [getLoop, hr.rdraw_nil]
      exact ⟨_, rfl⟩
    | cons sr srs =>
      obtain ⟨s, l, hdraw⟩ := hr.draws
      simp only [getLoop, hdraw.raw, statusrecCmp_raw, hdraw.cook]
      split
      · exact ⟨_, rfl⟩
      · split
        · next hdel => exact ih hdraw.next (.inl hdel)
        · next hdel =>
          have hwr : s.wr = none := hdraw.wr.trans (h.resolve_left hdel)
          have hraw : statusWrraw s sr.raw l = .ok s := by
            rw [statusWrraw, hwr]
            rfl
          rw [hraw]
          exact ih hdraw.next (.inr hwr)

theorem statusGet_isOk {env : Env} {st : Handle} {recs : List StatusRec} {name : List Byte}
    {isdirup deleteto : Bool} (h : Remains env st recs)
    (hwr : deleteto = true ∨ st.wr = none) :
    ∃ r, statusGet env st (some name) isdirup deleteto = .ok r := by
  unfold statusGet
  split
  · exact ⟨_, rfl⟩
  simp only [h.error, Option.isSome_none, Bool.false_eq_true, if_false]
  cases recs with
  | nil =>
    obtain ⟨hnext, -⟩ := h.next_nil
    simp only [hnext]
    exact ⟨_, rfl⟩
  | cons sr srs =>
    obtain ⟨s, hnext, hrest, -, hswr, -⟩ := h.next_cons
    simp only [hnext]
    split
    · have hno : ¬(s.wr.isSome = true ∧ deleteto = false) := by
        rw [hswr]
        rcases hwr with rfl | hwr
        · simp
        · simp [hwr]
      rw [if_neg hno]
      exact @getLoop_isOk _ _ _ _ { st with toState := s, current := none } _ hrest
        (hwr.imp id hswr.trans)
    · exact ⟨_, rfl⟩

end Csup.Status
