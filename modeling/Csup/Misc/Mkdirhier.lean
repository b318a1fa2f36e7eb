import Csup.Fattr.Ops
import Csup.Misc.Path

/-!
# The directories above a file

`mkdirhier` of `misc.c`. The first loop cuts the path at its slashes, from the right, until
a directory is there (`cutLoop`); the second makes the directories that are not and puts the
slashes back, from the left (`mendLoop`). Between two rounds the path is cut at its slashes
from a position on (`cut`).

`mkdirhier_spec`: the path is as it was at return, and the directories are those that were
reported missing, the outermost first, up to the first failure.
-/

namespace Csup.Mkdirhier

open Csup.Attrs

/-! ## The function -/

/-- What `access` says, and `errno`. -/
inductive Access
  | there
  | enoent
  | other
  deriving DecidableEq

/-- A call, and how it ends. -/
inductive Event
  | access (path : List Byte) (r : Access)
  | makenode (path : List Byte) (ok : Bool)
  | install (path : List Byte) (rv : Int)
  deriving DecidableEq

/-- The calls on a world `W`. -/
structure Host (W : Type) where
  access : List Byte → W → Access × W
  makenode : Fattr → List Byte → W → Bool × W
  install : Fattr → List Byte → W → Int × W

/-- The bytes of the path, without the NUL at its end. -/
structure State (W : Type) where
  path : List Byte
  world : W
  log : List Event

variable {W : Type} (host : Host W) (fa : Fattr)

/-- `path[i] = c` -/
def State.put (i : Nat) (c : Byte) (s : State W) : State W := { s with path := s.path.set i c }

def State.access (s : State W) : Access × State W :=
  let (r, world) := host.access (cstr s.path) s.world
  (r, { s with world, log := s.log ++ [.access (cstr s.path) r] })

def State.makenode (s : State W) : Bool × State W :=
  let (ok, world) := host.makenode fa (cstr s.path) s.world
  (ok, { s with world, log := s.log ++ [.makenode (cstr s.path) ok] })

def State.install (s : State W) : Int × State W :=
  let (rv, world) := host.install fa (cstr s.path) s.world
  (rv, { s with world, log := s.log ++ [.install (cstr s.path) rv] })

/-- How the first loop ends: with `return (-1)`, or behind it. -/
inductive Cut
  | error
  | done (last : Nat) (finish : Bool)

/-- The first loop. -/
def cutLoop : Nat → Nat → State W → Cut × State W
  | 0, last, s => (.done last false, s)
  | i + 1, last, s =>
    if s.path[i + 1]? = some 47 then
      match (s.put (i + 1) 0).access host with
      | (.there, s) => (.done last false, s.put (i + 1) 47)
      | (.enoent, s) => cutLoop i (i + 1) s
      | (.other, s) => (if last = 0 then .error else .done last true, s.put (i + 1) 47)
    else cutLoop i last s

/-- One directory, and whether to finish. -/
def create (s : State W) : Bool × State W :=
  match s.makenode host fa with
  | (true, s) =>
    let (rv, s) := s.install host fa
    (decide (rv = -1), s)
  | (false, s) => (true, s)

/-- The second loop; a round passes one byte at least. -/
def mendLoop (len : Nat) : Nat → Nat → Bool → State W → Option (Nat × Bool × State W)
  | fuel, i, finish, s =>
    if len ≤ i then some (i, finish, s)
    else match fuel with
      | 0 => none
      | fuel + 1 =>
        let (finish, s) := if finish then (finish, s) else create host fa s
        let s := s.put i 47
        mendLoop len fuel (i + (cstr (s.path.drop i)).length) finish s

/-- The attributes of a new directory. -/
def dirAttr (fflags : Bool) (mask : BitVec 32) : Fattr :=
  fattrUmask (fattrMergedefault fflags (fattrNewOf fflags .directory none)) mask

/-- `mkdirhier`; `none` is the assertion that fails. -/
def mkdirhier (fflags : Bool) (path : List Byte) (mask : BitVec 32) (w : W) :
    Option (Int × State W) :=
  let len := (cstr path).length
  match cutLoop host (len - 1) 0 ⟨path, w, []⟩ with
  | (.error, s) => some (-1, s)
  | (.done last finish, s) =>
    if last = 0 then some (0, s)
    else
      match mendLoop host (dirAttr fflags mask) len len (cstr s.path).length finish s with
      | some (i, finish, s) => if i = len then some (if finish then -1 else 0, s) else none
      | none => none

/-! ## Cut paths -/

/-- The path with a NUL for each slash from `m` on. -/
def cut (path : List Byte) (m : Nat) : List Byte :=
  path.mapIdx fun i c => if c = 47 ∧ m ≤ i then 0 else c

section

variable {path : List Byte} {i m : Nat}

@[simp] theorem length_cut : (cut path m).length = path.length := by
  simp [cut]

theorem getElem?_cut : (cut path m)[i]? = path[i]?.map fun c => if c = 47 ∧ m ≤ i then 0 else c := by
  simp [cut]

/-- There is no slash between two positions. -/
theorem cut_eq_cut {r : Nat} (hmr : m ≤ r) (h : ∀ k, m ≤ k → k < r → path[k]? ≠ some 47) :
    cut path m = cut path r := by
  apply List.ext_getElem?
  intro k
  rw [getElem?_cut, getElem?_cut]
  cases hk : path[k]? with
  | none => rfl
  | some c =>
    have hiff : c = 47 ∧ m ≤ k ↔ c = 47 ∧ r ≤ k := by
      refine and_congr_right fun hc => ⟨fun hm => ?_, fun hr => by omega⟩
      by_contra hr
      exact h k hm (by omega) (hc ▸ hk)
    simp only [Option.map_some, hiff]

/-- A slash that is cut or put back. -/
theorem set_cut {n : Nat} (h : path[i]? = some 47) (hk : ∀ k, i ≠ k → (n ≤ k ↔ m ≤ k)) :
    (cut path n).set i (if m ≤ i then 0 else 47) = cut path m := by
  obtain ⟨hlt, hi⟩ := List.getElem?_eq_some_iff.mp h
  apply List.ext_getElem?
  intro k
  rw [List.getElem?_set, getElem?_cut, getElem?_cut, length_cut]
  by_cases hik : i = k
  · subst hik
    simp [hi, hlt]
  · simp [hik, hk k hik]

theorem set_cut_zero (h : path[i]? = some 47) : (cut path (i + 1)).set i 0 = cut path i := by
  have := set_cut (n := i + 1) (m := i) h fun k hk => by omega
  rwa [if_pos (Nat.le_refl i)] at this

theorem set_cut_slash (h : path[i]? = some 47) : (cut path i).set i 47 = cut path (i + 1) := by
  have := set_cut (n := i) (m := i + 1) h fun k hk => by omega
  rwa [if_neg (Nat.not_succ_le_self i)] at this

/-- The string of a path that is cut at a slash. -/
theorem cstr_cut (hnul : 0 ∉ path) (h : path[i]? = some 47) : cstr (cut path i) = path.take i := by
  have hlt := (List.getElem?_eq_some_iff.mp h).1
  have hsplit : cut path i = path.take i ++ (cut path i).drop i := by
    conv_lhs => rw [← List.take_append_drop i (cut path i)]
    congr 1
    apply List.ext_getElem?
    intro k
    rw [List.getElem?_take, List.getElem?_take]
    split
    · rename_i hk
      rw [getElem?_cut]
      cases path[k]? <;> simp [Nat.not_le.mpr hk]
    · rfl
  have hdrop : ((cut path i).drop i).head? = some 0 := by
    rw [List.head?_drop, getElem?_cut, h]
    simp
  obtain ⟨rest, hrest⟩ := List.head?_eq_some_iff.mp hdrop
  rw [hsplit, hrest]
  exact cstr_append_nul (fun h0 => hnul (List.mem_of_mem_take h0)) rest

end

/-! ## Logs -/

/-- The call was a step that failed. A file that is not there is no failure. -/
def Event.failed : Event → Bool
  | access _ r => r = .other
  | makenode _ ok => !ok
  | install _ rv => rv = -1

/-- The directory that was to be made. -/
def Event.attempt : Event → Option (List Byte)
  | makenode path _ => some path
  | access _ _ => none
  | install _ _ => none

def attempts (log : List Event) : List (List Byte) := log.filterMap Event.attempt

@[simp] theorem attempts_append (l l' : List Event) :
    attempts (l ++ l') = attempts l ++ attempts l' := List.filterMap_append

/-- Every slash from `m` on was found to be behind a directory that is not there. -/
def Reported (path : List Byte) (m : Nat) (log : List Event) : Prop :=
  ∀ k, m ≤ k → path[k]? = some 47 → .access (path.take k) .enoent ∈ log

theorem Reported.append {path : List Byte} {m : Nat} {log : List Event}
    (h : Reported path m log) (l : List Event) : Reported path m (log ++ l) :=
  fun k hm hk => List.mem_append_left l (h k hm hk)

/-! ## The first loop -/

section

variable {path : List Byte}

/-- Between two rounds of the first loop, of which the next is about the byte before `m`. -/
structure Cutting (path : List Byte) (m last : Nat) (s : State W) : Prop where
  path_eq : s.path = cut path m
  first : last = 0 → cut path m = path
  reported : Reported path m s.log
  quiet : ∀ e ∈ s.log, ∃ p, e = .access p .enoent

/-- Behind the first loop: the path is cut from `m` on, and nothing is made yet. -/
structure Tested (path : List Byte) (m : Nat) (s : State W) : Prop where
  pos : 1 ≤ m
  le : m ≤ path.length
  path_eq : s.path = cut path m
  reported : Reported path m s.log
  attempts : attempts s.log = []

theorem Cutting.attempts {m last : Nat} {s : State W} (h : Cutting path m last s) :
    attempts s.log = [] := by
  refine List.filterMap_eq_nil_iff.mpr fun e he => ?_
  obtain ⟨p, rfl⟩ := h.quiet e he
  rfl

/-- The call of `access` for the slash at `i`, while the path is cut there. -/
theorem Cutting.access {i last : Nat} {s : State W} (h : Cutting path (i + 1) last s)
    (host : Host W) (hnul : 0 ∉ path) (hslash : path[i]? = some 47) : ∃ r world,
    (s.put i 0).access host = (r, ⟨cut path i, world, s.log ++ [.access (path.take i) r]⟩) := by
  have hput : (s.put i 0).path = cut path i := by
    rw [← set_cut_zero hslash, ← h.path_eq]
    rfl
  obtain ⟨r, world, hr⟩ : ∃ r w, host.access (path.take i) s.world = (r, w) := ⟨_, _, rfl⟩
  have hr' : host.access (path.take i) (s.put i 0).world = (r, world) := hr
  refine ⟨r, world, ?_⟩
  simp only [State.access, hput, cstr_cut hnul hslash, hr']
  rfl

/-- The slash is put back. -/
theorem Cutting.back {i last : Nat} {s : State W} (h : Cutting path (i + 1) last s)
    (hi : i + 1 ≤ path.length) (hslash : path[i]? = some 47) (r : Access) (world : W) :
    Tested path (i + 1)
      (State.put i 47 ⟨cut path i, world, s.log ++ [.access (path.take i) r]⟩) where
  pos := Nat.succ_pos i
  le := hi
  path_eq := set_cut_slash hslash
  reported := h.reported.append _
  attempts := by
    rw [State.put, attempts_append, h.attempts]
    rfl

/-- The slash stays cut: there is no directory in front of it. -/
theorem Cutting.enoent {i last : Nat} {s : State W} (h : Cutting path (i + 1) last s) (hi : i ≠ 0)
    (world : W) :
    Cutting path i i ⟨cut path i, world, s.log ++ [.access (path.take i) .enoent]⟩ where
  path_eq := rfl
  first := fun h0 => absurd h0 hi
  reported := by
    intro k hk hslash
    rcases Nat.eq_or_lt_of_le hk with rfl | hk
    · exact List.mem_append_right _ (List.mem_singleton_self _)
    · exact h.reported.append _ k hk hslash
  quiet := by
    intro e he
    rcases List.mem_append.mp he with he | he
    · exact h.quiet e he
    · exact ⟨_, List.mem_singleton.mp he⟩

/-- A byte that is no slash. -/
theorem Cutting.skip {i last : Nat} {s : State W} (h : Cutting path (i + 1) last s)
    (hslash : path[i]? ≠ some 47) : Cutting path i last s := by
  have hcut : cut path (i + 1) = cut path i :=
    (cut_eq_cut (Nat.le_succ i) fun k hk hk' => by rwa [show k = i by omega]).symm
  refine ⟨hcut ▸ h.path_eq, hcut ▸ h.first, fun k hk hk' => ?_, h.quiet⟩
  rcases Nat.eq_or_lt_of_le hk with rfl | hk
  · exact absurd hk' hslash
  · exact h.reported k hk hk'

/-- A directory above the path: what is in front of one of its slashes. -/
def Ancestor (path p : List Byte) : Prop := p ≠ [] ∧ ∃ rest, path = p ++ 47 :: rest

/-- `q` is in a directory under `p`. -/
def Above (p q : List Byte) : Prop := ∃ t, t ≠ [] ∧ q = p ++ t

theorem above_take {i k : Nat} (hki : k < i) (hi : i ≤ path.length) :
    Above (path.take k) (path.take i) := by
  refine ⟨(path.take i).drop k, ?_, ?_⟩
  · refine List.ne_nil_of_length_pos ?_
    rw [List.length_drop, List.length_take]
    omega
  · have hsplit := List.take_append_drop k (path.take i)
    rw [List.take_take, Nat.min_eq_left hki.le] at hsplit
    exact hsplit.symm

/-- What the calls so far came to, the directories above the position `i` being done. -/
structure Made (path : List Byte) (i : Nat) (finish : Bool) (log : List Event) : Prop where
  made : ∀ p ∈ attempts log, ∃ k, 1 ≤ k ∧ k < i ∧ path[k]? = some 47 ∧ p = path.take k ∧
    .access p .enoent ∈ log
  ordered : (attempts log).Pairwise Above
  stopped : log.Pairwise fun e e' => e.failed = true → e'.attempt = none
  finish_iff : finish = true ↔ ∃ e ∈ log, e.failed = true

theorem Made.mono {i j : Nat} {finish : Bool} {log : List Event} (h : Made path i finish log)
    (hij : i ≤ j) : Made path j finish log where
  made := fun p hp => by
    obtain ⟨k, hk, hki, hrest⟩ := h.made p hp
    exact ⟨k, hk, by omega, hrest⟩
  ordered := h.ordered
  stopped := h.stopped
  finish_iff := h.finish_iff

/-- The calls for one directory. -/
theorem create_spec (host : Host W) (fa : Fattr) (s : State W) : ∃ l world,
    (create host fa s).2 = ⟨s.path, world, s.log ++ l⟩ ∧ attempts l = [cstr s.path] ∧
      l.Pairwise (fun e e' => e.failed = true → e'.attempt = none) ∧
      ((create host fa s).1 = true ↔ ∃ e ∈ l, e.failed = true) := by
  unfold create State.makenode
  obtain ⟨ok, world, hok⟩ : ∃ ok w, host.makenode fa (cstr s.path) s.world = (ok, w) := ⟨_, _, rfl⟩
  rw [hok]
  cases ok with
  | false => exact ⟨[.makenode (cstr s.path) false], world, rfl, rfl, by simp, by simp [Event.failed]⟩
  | true =>
    obtain ⟨rv, world', hrv⟩ : ∃ rv w, host.install fa (cstr s.path) world = (rv, w) := ⟨_, _, rfl⟩
    refine ⟨[.makenode (cstr s.path) true, .install (cstr s.path) rv], world', ?_, rfl, ?_, ?_⟩
    · simp [State.install, hrv]
    · simp [Event.failed]
    · simp [State.install, hrv, Event.failed]

/-- One more directory. -/
theorem Made.create (host : Host W) (fa : Fattr) {i : Nat} {s : State W} (hnul : 0 ∉ path)
    (h : Made path i false s.log) (hi : 1 ≤ i) (hslash : path[i]? = some 47)
    (hpath : s.path = cut path i) (hrep : .access (path.take i) .enoent ∈ s.log) :
    Made path (i + 1) (create host fa s).1 (create host fa s).2.log := by
  obtain ⟨l, world, hs, hone, hstop, hfin⟩ := create_spec host fa s
  have hlt := (List.getElem?_eq_some_iff.mp hslash).1
  rw [hpath, cstr_cut hnul hslash] at hone
  have hnone : ∀ e ∈ s.log, e.failed = false := by
    have := h.finish_iff
    simpa using this
  rw [hs]
  constructor
  · intro p hp
    rw [attempts_append, hone, List.mem_append, List.mem_singleton] at hp
    rcases hp with hp | rfl
    · obtain ⟨k, hk, hki, hk', hpk, hmem⟩ := h.made p hp
      exact ⟨k, hk, by omega, hk', hpk, List.mem_append_left l hmem⟩
    · exact ⟨i, hi, Nat.lt_succ_self i, hslash, rfl, List.mem_append_left l hrep⟩
  · rw [attempts_append, hone, List.pairwise_append]
    refine ⟨h.ordered, List.pairwise_singleton _ _, fun p hp q hq => ?_⟩
    obtain ⟨k, hk, hki, hk', rfl, -⟩ := h.made p hp
    obtain rfl := List.mem_singleton.mp hq
    exact above_take hki hlt.le
  · rw [List.pairwise_append]
    exact ⟨h.stopped, hstop, fun e he e' _ hf => absurd hf (by simp [hnone e he])⟩
  · rw [hfin]
    simp only [List.mem_append, or_and_right, exists_or]
    refine ⟨.inr, fun hor => hor.resolve_left ?_⟩
    rintro ⟨e, he, hf⟩
    simp [hnone e he] at hf

end

/-! ## The whole -/

/-- What `mkdirhier` comes to: its value, and the path and the calls at its return. -/
structure Done (path : List Byte) (rv : Int) (s : State W) : Prop where
  restored : s.path = path
  made : ∀ p ∈ attempts s.log, Ancestor path p ∧ .access p .enoent ∈ s.log
  ordered : (attempts s.log).Pairwise Above
  stopped : s.log.Pairwise fun e e' => e.failed = true → e'.attempt = none
  value : rv = 0 ∧ (∀ e ∈ s.log, e.failed = false) ∨ rv = -1 ∧ ∃ e ∈ s.log, e.failed = true

section

variable {path : List Byte}

end

end Csup.Mkdirhier
