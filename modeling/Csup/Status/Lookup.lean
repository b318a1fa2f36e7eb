import Csup.Status.Get
import Csup.Status.Order

/-!
# Searches in order

A status file is opened for reading and searched for keys that ascend (`lookups`). A
search finds what `statusrec_cmp` makes equal to its key. That is never a record that
closes a directory, and it is a record with another name where `pathcmp` takes the two
names for the same.

* `lookups_eq`: what the searches return;
* `lookups_complete`: which searches are complete.
-/

namespace Csup.Status

open Csup.Framework
open Csup.Proto

/-- A call of `status_get` with a name. -/
structure Call where
  name : List Byte
  isdirup : Bool
  deleteto : Bool

def Call.key (c : Call) : StatusRec := keyRec c.name c.isdirup

/-- Calls one after the other. -/
def lookups (env : Env) : Handle → List Call → Except Fault (List Got)
  | _, [] => .ok []
  | st, c :: calls => do
    let (st, got) ← statusGet env st (some c.name) c.isdirup c.deleteto
    let gots ← lookups env st calls
    return got :: gots

/-- A file that is read to its end and that is sorted throughout. -/
structure WellFormed (env : Env) (file : List Byte) (recs : List StatusRec) : Prop where
  header : (statusFromrd 0 file).isSome
  unread : Unread env none 0 (behindLine nl file) recs
  sorted : recs.Pairwise fun a b => statusrecCmp a b < 0

/-- The keys of the calls do not decrease. -/
def Ascends (calls : List Call) : Prop :=
  calls.Pairwise fun a b => a.key = b.key ∨ statusrecCmp a.key b.key ≤ 0

/-! ## What a search should return -/

/-- The record that a call is for. -/
def Call.Names (c : Call) (sr : StatusRec) : Prop :=
  sr.file = c.name ∧ (sr.type = .dirup ↔ c.isdirup = true)

/-- The right answer in a file. -/
def Answers (recs : List StatusRec) (c : Call) : Got → Prop
  | .failed => False
  | .absent => ∀ sr ∈ recs, ¬c.Names sr
  | .found sr => sr ∈ recs ∧ c.Names sr

/-- Every call returns the right answer. -/
def Complete (env : Env) (st : Handle) (recs : List StatusRec) (calls : List Call) : Prop :=
  ∃ gots, lookups env st calls = .ok gots ∧ List.Forall₂ (Answers recs) calls gots

/-- The call is for a record that closes a directory, and the file has it. -/
def Call.NamesUp (recs : List StatusRec) (c : Call) : Prop :=
  c.isdirup = true ∧ ∃ sr ∈ recs, c.Names sr

/-- The name of a record is another one that `pathcmp` takes for that of the call. -/
def Call.Confuses (recs : List StatusRec) (c : Call) : Prop :=
  ∃ sr ∈ recs, sr.file ≠ c.name ∧ pathcmp sr.file c.name = 0

/-! ## What it returns -/

/-- The answers of searches, each from where the one before has stopped. -/
def answers : List StatusRec → List Call → List Got
  | _, [] => []
  | recs, c :: calls => answer c.key (searched c.key recs) :: answers (searched c.key recs) calls

theorem getLoop_wr {env : Env} {key : StatusRec} {deleteto : Bool} {turns : Nat} {st st' : Handle}
    {recs : List StatusRec} {got : Got} (hr : Reads env st.toState recs) (hwr : st.wr = none)
    (hok : getLoop env key deleteto turns st = .ok (st', got)) : st'.wr = none := by
  induction turns generalizing st recs with
  | zero =>
    cases hok
    exact hwr
  | succ turns ih =>
    cases recs with
    | nil =>
      simp only [getLoop, hr.rdraw_nil] at hok
      cases hok
      exact hwr
    | cons sr srs =>
      obtain ⟨s, l, hdraw⟩ := hr.draws
      have hs : s.wr = none := hdraw.wr.trans hwr
      simp only [getLoop, hdraw.raw, statusrecCmp_raw, hdraw.cook] at hok
      split at hok
      · cases hok
        exact hs
      · split at hok
        · exact @ih { st with toState := s } srs hdraw.next hs hok
        · have hraw : statusWrraw s sr.raw l = .ok s := by
            rw [statusWrraw, hs]
            rfl
          rw [hraw] at hok
          exact @ih { st with toState := s } srs hdraw.next hs hok

theorem statusGet_wr {env : Env} {st st' : Handle} {recs : List StatusRec} {name : List Byte}
    {isdirup deleteto : Bool} {got : Got} (h : Remains env st recs) (hwr : st.wr = none)
    (hok : statusGet env st (some name) isdirup deleteto = .ok (st', got)) : st'.wr = none := by
  unfold statusGet at hok
  split at hok
  · cases hok
    exact hwr
  simp only [h.error, Option.isSome_none, Bool.false_eq_true, if_false] at hok
  cases recs with
  | nil =>
    obtain ⟨hnext, -⟩ := h.next_nil
    simp only [hnext] at hok
    cases hok
    exact hwr
  | cons sr srs =>
    obtain ⟨s, hnext, hrest, -, hswr, -⟩ := h.next_cons
    have hs : s.wr = none := hswr.trans hwr
    simp only [hnext, hs, Option.isSome_none, Bool.false_eq_true, false_and, if_false] at hok
    split at hok
    · exact @getLoop_wr _ _ _ _ { st with toState := s, current := none } _ srs _ hrest hs hok
    · cases hok
      exact hs

theorem lookups_eq {env : Env} {st : Handle} {recs : List StatusRec} (h : Remains env st recs)
    (hwr : st.wr = none) (calls : List Call) : lookups env st calls = .ok (answers recs calls) := by
  induction calls generalizing st recs with
  | nil => rfl
  | cons c calls ih =>
    obtain ⟨⟨st', got⟩, hok⟩ := @statusGet_isOk _ _ _ c.name c.isdirup c.deleteto h (.inr hwr)
    obtain ⟨hrest, rfl⟩ := statusGet_reads h hok
    simp only [lookups, hok, bind, Except.bind, ih hrest (statusGet_wr h hwr hok)]
    rfl

/-! ## Which answers are right -/

section Right

variable {recs done left : List StatusRec} {c : Call} {calls : List Call} {sr : StatusRec}

/-- What a call finds is never the end of a directory, if it is what the call names. -/
theorem not_names_up (hcmp : statusrecCmp sr c.key = 0) (hn : c.Names sr) : c.isdirup = false := by
  have hup := (type_of_cmp_eq_zero hcmp hn.1).1
  simpa [hn.2] using hup

theorem names_of_cmp (hcmp : statusrecCmp sr c.key = 0) (hfile : sr.file = c.name) : c.Names sr := by
  obtain ⟨hsr, hkey⟩ := type_of_cmp_eq_zero hcmp hfile
  refine ⟨hfile, iff_of_false hsr fun hup => hkey ?_⟩
  simp [Call.key, keyRec, rawRec, hup]

/-- The record of a call is compared as the key is. -/
theorem Call.Names.cmp (hn : c.Names sr) (x : StatusRec) :
    statusrecCmp x sr = statusrecCmp x c.key ∧ statusrecCmp sr x = statusrecCmp c.key x := by
  have hkey : sr.file = c.key.file ∧ (sr.type = .dirup ↔ c.key.type = .dirup) := by
    refine ⟨hn.1, hn.2.trans ?_⟩
    cases hup : c.isdirup <;> simp [Call.key, keyRec, rawRec, hup]
  exact ⟨statusrecCmp_congr ⟨rfl, .rfl⟩ hkey, statusrecCmp_congr hkey ⟨rfl, .rfl⟩⟩

theorem Call.Names.cmp_key (hn : c.Names sr) (hup : c.isdirup = false) :
    statusrecCmp sr c.key = 0 := by
  rw [← (hn.cmp sr).1]
  exact statusrecCmp_self (by simp [hn.2, hup])

/-- A search for the end of a directory that the file has goes wrong. -/
theorem not_namesUp_of_answers (h : List.Forall₂ (Answers recs) calls (answers left calls)) :
    ∀ c ∈ calls, ¬c.NamesUp recs := by
  induction calls generalizing left with
  | nil => simp
  | cons c calls ih =>
    obtain ⟨hgot, hrest⟩ := List.forall₂_cons.mp h
    refine List.forall_mem_cons.mpr ⟨?_, ih hrest⟩
    rintro ⟨hup, sr, hmem, hn⟩
    rcases hs : searched c.key left with - | ⟨x, xs⟩ <;> rw [hs, answer] at hgot
    · exact hgot sr hmem hn
    · split at hgot
      · next hcmp => exact absurd (not_names_up hcmp hgot.2) (by simp [hup])
      · exact hgot sr hmem hn

/-- What is passed by is less than the key. -/
theorem searched_split (key : StatusRec) (left : List StatusRec) :
    ∃ passed, left = passed ++ searched key left ∧ (∀ sr ∈ passed, statusrecCmp sr key < 0) ∧
      ∀ sr ∈ (searched key left).head?, 0 ≤ statusrecCmp sr key := by
  refine ⟨left.takeWhile fun sr => statusrecCmp sr key < 0, (List.takeWhile_append_dropWhile).symm,
    fun sr hsr => by simpa using List.mem_takeWhile_imp hsr, fun sr hsr => ?_⟩
  have hhead := List.head?_dropWhile_not (fun sr => decide (statusrecCmp sr key < 0)) left
  rw [searched] at hsr
  simp only [Option.mem_def.mp hsr, decide_eq_false_iff_not] at hhead
  omega

/-- The answer of a search that has passed by nothing that it is for. -/
theorem answers_answer (hsorted : recs.Pairwise fun a b => statusrecCmp a b < 0)
    (hrecs : recs = done ++ searched c.key left) (hdone : ∀ sr ∈ done, ¬c.Names sr)
    (hhead : ∀ sr ∈ (searched c.key left).head?, 0 ≤ statusrecCmp sr c.key)
    (hup : ¬c.NamesUp recs) (hconf : ¬c.Confuses recs) :
    Answers recs c (answer c.key (searched c.key left)) := by
  rcases hs : searched c.key left with - | ⟨x, xs⟩
  · intro sr hsr
    rw [hrecs, hs, List.append_nil] at hsr
    exact hdone sr hsr
  · rw [hs] at hrecs hhead
    have hx : x ∈ recs := by simp [hrecs]
    have hge := hhead x rfl
    rw [answer]
    split
    · next hcmp =>
      have hfile : x.file = c.name := by
        by_contra hne
        exact hconf ⟨x, hx, hne, (of_cmp_eq_zero hcmp).2.2⟩
      exact ⟨hx, names_of_cmp hcmp hfile⟩
    · next hcmp =>
      intro sr hsr hn
      have hno : c.isdirup = false := by
        rw [← Bool.not_eq_true]
        exact fun h => hup ⟨h, sr, hsr, hn⟩
      rw [hrecs] at hsr hsorted
      rcases List.mem_append.mp hsr with hmem | hmem
      · exact hdone sr hmem hn
      · rcases List.mem_cons.mp hmem with rfl | hmem
        · exact hcmp (hn.cmp_key hno)
        · have hlt := List.rel_of_pairwise_cons (List.pairwise_append.mp hsorted).2.1 hmem
          rw [(hn.cmp x).1] at hlt
          omega

/-- Searches for ascending keys that confuse no names, none for the end of a directory. -/
theorem answers_right (hsorted : recs.Pairwise fun a b => statusrecCmp a b < 0)
    (hrecs : recs = done ++ left)
    (hdone : ∀ sr ∈ done, ∃ k, statusrecCmp sr k < 0 ∧
      ∀ c ∈ calls, k = c.key ∨ statusrecCmp k c.key ≤ 0)
    (hasc : Ascends calls) (hcalls : ∀ c ∈ calls, ¬c.NamesUp recs ∧ ¬c.Confuses recs) :
    List.Forall₂ (Answers recs) calls (answers left calls) := by
  induction calls generalizing done left with
  | nil => exact .nil
  | cons c calls ih =>
    obtain ⟨hup, hconf⟩ := hcalls c (List.mem_cons_self ..)
    obtain ⟨hc, hasc⟩ := List.pairwise_cons.mp hasc
    obtain ⟨passed, hleft, hpassed, hhead⟩ := searched_split c.key left
    have hrecs' : recs = (done ++ passed) ++ searched c.key left := by
      rw [List.append_assoc, ← hleft, hrecs]
    -- a record that has been passed by is less than a key that is not greater than this one
    have hbehind : ∀ sr ∈ done ++ passed, ∃ k, statusrecCmp sr k < 0 ∧
        ∀ c' ∈ c :: calls, k = c'.key ∨ statusrecCmp k c'.key ≤ 0 := by
      intro sr hsr
      rcases List.mem_append.mp hsr with hsr | hsr
      · exact hdone sr hsr
      · exact ⟨c.key, hpassed sr hsr, List.forall_mem_cons.mpr ⟨.inl rfl, hc⟩⟩
    have hno : ∀ sr ∈ done ++ passed, ¬c.Names sr := by
      intro sr hsr hn
      have hdown : c.isdirup = false := by
        rw [← Bool.not_eq_true]
        exact fun h => hup ⟨h, sr, by rw [hrecs']; exact List.mem_append_left _ hsr, hn⟩
      obtain ⟨k, hlt, hk⟩ := hbehind sr hsr
      have hgt := statusrecCmp_pos hlt
      rw [(hn.cmp k).1] at hgt
      rcases hk c (List.mem_cons_self ..) with rfl | hle
      · rw [hn.cmp_key hdown] at hlt
        omega
      · omega
    refine .cons (answers_answer hsorted hrecs' hno hhead hup hconf) (ih hrecs' ?_ hasc ?_)
    · intro sr hsr
      obtain ⟨k, hlt, hk⟩ := hbehind sr hsr
      exact ⟨k, hlt, fun c' hc' => hk c' (List.mem_cons_of_mem _ hc')⟩
    · exact fun c' hc' => hcalls c' (List.mem_cons_of_mem _ hc')

end Right

/-! ## Complete searches -/

theorem statusFromrd_eq {goal : Nat} {file : List Byte} {t : Int} {st : State}
    (h : statusFromrd goal file = some (t, st)) :
    st = { statusNew goal (some (behindLine nl file)) with linenum := 1 } := by
  simp only [statusFromrd, streamGetln] at h
  split at h
  · cases h
  · simp only [Option.bind_eq_bind, Option.bind_some, Option.bind_eq_some_iff] at h
    obtain ⟨ver, -, scantime, -, h⟩ := h
    split at h <;> cases h
    rfl

/-- What `status_open` makes of a file. -/
theorem statusOpen_eq {goal : Nat} {file : List Byte} {scantime : Int} {st : Handle}
    (h : statusOpen goal (some file) scantime = some st) :
    ∃ wr dirty, st = ⟨{ statusNew goal (some (behindLine nl file)) with wr, linenum := 1 }, none, dirty⟩ ∧
      (if scantime = -1 then none
        else protoPrintf (bytes "F %d %t\n".toList) [.int 5, .time scantime]) = wr := by
  simp only [statusOpen, Option.bind_eq_bind, Option.bind_eq_some_iff] at h
  obtain ⟨⟨t, s⟩, hrd, h⟩ := h
  obtain rfl := statusFromrd_eq hrd
  split at h
  · next hscan =>
    cases h
    exact ⟨none, false, rfl, if_pos hscan⟩
  · next hscan =>
    obtain ⟨head, hhead, h⟩ := Option.bind_eq_some_iff.mp h
    cases h
    exact ⟨some head, _, rfl, (if_neg hscan).trans hhead⟩

/-- A file is read from behind its header. -/
theorem remains_opened {env : Env} {file : List Byte} {recs : List StatusRec} {goal : Nat}
    {scantime : Int} {st : Handle} (hunread : Unread env none 0 (behindLine nl file) recs)
    (hopen : statusOpen goal (some file) scantime = some st) : Remains env st recs := by
  obtain ⟨wr, dirty, rfl, -⟩ := statusOpen_eq hopen
  exact ⟨rfl, .inr ⟨_, rfl, rfl, hunread⟩⟩

/-- Nothing is written where the file is opened for reading. -/
theorem wr_opened {goal : Nat} {file : List Byte} {st : Handle}
    (hopen : statusOpen goal (some file) (-1) = some st) : st.wr = none := by
  obtain ⟨wr, dirty, rfl, rfl⟩ := statusOpen_eq hopen
  rfl

theorem not_namesUp_of_complete {env : Env} {st : Handle} {recs : List StatusRec} {calls : List Call}
    (h : Remains env st recs ∧ st.wr = none) (hc : Complete env st recs calls) :
    ∀ c ∈ calls, ¬c.NamesUp recs := by
  obtain ⟨gots, hok, hright⟩ := hc
  rw [lookups_eq h.1 h.2 calls] at hok
  cases hok
  exact not_namesUp_of_answers hright

/-- Searches of a file for ascending keys return what they should where none of them is
for the end of a directory of the file, and no key has a name that `pathcmp` takes for
another one of the file. Any search for the end of a directory of the file goes wrong. -/
theorem lookups_complete {env : Env} {file : List Byte} {recs : List StatusRec} {goal : Nat}
    {st : Handle} {calls : List Call} (hfile : WellFormed env file recs)
    (hopen : statusOpen goal (some file) (-1) = some st) (hasc : Ascends calls) :
    ((∀ c ∈ calls, ¬c.NamesUp recs ∧ ¬c.Confuses recs) → Complete env st recs calls) ∧
      (Complete env st recs calls → ∀ c ∈ calls, ¬c.NamesUp recs) := by
  have hst := And.intro (remains_opened hfile.unread hopen) (wr_opened hopen)
  refine ⟨fun hcalls => ?_, not_namesUp_of_complete hst⟩
  exact ⟨_, lookups_eq hst.1 hst.2 calls,
    @answers_right recs [] recs calls hfile.sorted rfl (by simp) hasc hcalls⟩

/-- A file with an empty directory in it. -/
def emptyDir : List Byte := bytes "F 5 0\nD a\nU a 1#1#2\n".toList

/-- The records of the directory. -/
def dirDown : StatusRec := rawRec .dirdown [97]

def dirUp : StatusRec :=
  { rawRec .dirup [97] with clientattr := decoded envOfNone (bytes "1#1#2".toList) }

/-- The file, opened for reading. -/
def openedDir : Handle where
  toState := { statusNew 0 (some (behindLine nl emptyDir)) with linenum := 1 }
  current := none
  dirty := false

theorem wellFormed_emptyDir : WellFormed envOfNone emptyDir [dirDown, dirUp] where
  header := rfl
  unread := .cons (by decide) rfl rfl rfl nofun (.cons (by decide) rfl rfl rfl (by decide) .nil)
  sorted := by decide

/-- The directory is found, twice. -/
theorem lookups_complete_dirDown :
    Complete envOfNone openedDir [dirDown, dirUp] [⟨[97], false, false⟩, ⟨[97], false, false⟩] := by
  refine (@lookups_complete envOfNone emptyDir _ 0 openedDir _ wellFormed_emptyDir rfl ?_).1 ?_
  · simp [Ascends]
  · intro c hc
    obtain rfl : c = ⟨[97], false, false⟩ := by simpa using hc
    refine ⟨fun h => absurd h.1 (by decide), ?_⟩
    rintro ⟨sr, hsr, hne, -⟩
    have : sr = dirDown ∨ sr = dirUp := by simpa using hsr
    rcases this with rfl | rfl <;> exact hne rfl

/-- The end of the directory is not. -/
theorem not_lookups_complete :
    ¬ ∀ (env : Env) (file : List Byte) (recs : List StatusRec) (goal : Nat) (st : Handle)
        (calls : List Call), WellFormed env file recs → statusOpen goal (some file) (-1) = some st →
        Ascends calls → Complete env st recs calls := by
  intro h
  have hc := h envOfNone emptyDir _ 0 openedDir [⟨[97], true, false⟩] wellFormed_emptyDir rfl
    (List.pairwise_singleton ..)
  have hst : Remains envOfNone openedDir _ :=
    @remains_opened _ emptyDir _ 0 (-1) _ wellFormed_emptyDir.unread rfl
  exact not_namesUp_of_complete ⟨hst, rfl⟩ hc _ (List.mem_cons_self ..)
    ⟨rfl, dirUp, by simp, rfl, by decide⟩

end Csup.Status
