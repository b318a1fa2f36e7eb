import Csup.Framework.Acts
import Csup.Updater.Closed

/-!
# What is deleted

The limit of deletions over a run of the updater. `there` says of a path that something
is at it that is no empty directory. The commands `D`, `u`, `c` and `j` do nothing before
their deletion, so that what one of them removes was there before it.

`updater_delete` asks whether the collection allows it and counts; `j` does neither.
`deletions_within`: in a run where no `j` names a file, the limit holds.
-/

namespace Csup.Docoll

open Csup.Framework (Prog Work onLines)
open Csup.Updater

variable {C W F D : Type}

/-- The files that a part of a program removes, from its log. -/
def deletions (there : Path → Bool) (log : List Action) : List Path :=
  log.filterMap fun
    | .delete path => if there path then some path else none
    | _ => none

/-- The files that one of `D`, `u`, `c` and `j` removes. -/
def removedBy (there : Path → W → Bool) (env : Env W F D) (count : Nat) (p : List Byte) (w : W)
    (c : Command) : List Path :=
  match c with
  | .delete _ | .dead .. | .rmup _ => deletions (there · w) (docommand env count c p w).log
  | _ => []

/-- A `j` names no file; it may where the collection allows deletions and there is no
limit. -/
def Spares (there : Path → W → Bool) (env : Env W F D) (w : W) (c : Command) : Prop :=
  ∀ name fup, c = .rmup name → (prepare env errProto name false w).val = .ok fup →
    there fup.destpath w = true → env.coll.delete = true ∧ env.deletelim < 0

/-- A command asks for a deletion that the collection allows. -/
def Attempts (env : Env W F D) (w : W) (c : Command) : Prop :=
  env.coll.delete = true ∧ ∃ name fup, (prepare env errProto name false w).val = .ok fup ∧
    (c = .delete name ∨ ∃ update tag date attr, c = .dead update name tag date attr ∧
      (update || env.host.access fup.destpath w) = true)

/-! ## One command -/

theorem deletions_append (there : Path → Bool) (log log' : List Action) :
    deletions there (log ++ log') = deletions there log ++ deletions there log' :=
  List.filterMap_append

/-- It is no deletion of a file. -/
def Action.Spares (a : Action) : Prop := ∀ path, a ≠ .delete path

theorem deletions_of_spares (there : Path → Bool) {log : List Action} (h : ∀ a ∈ log, a.Spares) :
    deletions there log = [] := by
  refine List.filterMap_eq_nil_iff.mpr fun a ha => ?_
  cases a with
  | delete path => exact absurd rfl (h _ ha path)
  | _ => rfl

variable {env : Env W F D} {there : Path → W → Bool} {count : Nat} {w : W}

/-- At most one file is removed, where it is allowed and the limit not reached, and then
it is counted. -/
def Counted (there : Path → W → Bool) (env : Env W F D) (count : Nat) (t : Task W Nat) (w : W) :
    Prop :=
  (deletions (there · w) (t w).log).length ≤ 1 ∧
    (deletions (there · w) (t w).log ≠ [] →
      env.coll.delete = true ∧ (0 ≤ env.deletelim → count < env.deletelim)) ∧
    (0 ≤ env.deletelim → ∀ n, (t w).val = .ok n →
      count + (deletions (there · w) (t w).log).length ≤ n)

/-- Nothing is removed behind the first part. -/
theorem Counted.bind {t : Task W Nat} {k : Nat → Task W Nat} (h : Counted there env count t w)
    (hk : ∀ n, (k n).Acts Action.Spares (· = n)) : Counted there env count (t >>= k) w := by
  show Counted there env count (Work.bind t k) w
  unfold Counted Work.bind at *
  cases hn : (t w).val with
  | ok n =>
    obtain ⟨hlog, hval⟩ := hk n (t w).world
    simp only [deletions_append, deletions_of_spares _ hlog, List.append_nil]
    refine ⟨h.1, h.2.1, fun hl m hm => ?_⟩
    rw [hval m hm]
    exact h.2.2 hl n hn
  | error e => exact ⟨h.1, h.2.1, by simp⟩

theorem Counted.congr {t t' : Task W Nat} (ht : t w = t' w) (h : Counted there env count t w) :
    Counted there env count t' w := by
  unfold Counted at *
  rwa [← ht]

theorem counted_of_nil {t : Task W Nat} (hlog : (t w).log = [])
    (hval : ∀ n, (t w).val = .ok n → count ≤ n) : Counted there env count t w := by
  simp only [Counted, hlog, deletions, List.filterMap_nil, List.length_nil]
  exact ⟨by omega, by simp, fun _ n hn => hval n hn⟩

theorem prepare_bind (e : Stop) (name : List Byte) (attic : Bool) {β : Type} (k : Fup → Task W β) :
    (∃ fup, (prepare env e name attic w).val = .ok fup ∧
      (prepare env e name attic >>= k) w = k fup w) ∨
    ∃ e', (prepare env e name attic w).val = .error e' ∧
      (prepare env e name attic >>= k) w = ⟨.error e', w, []⟩ := by
  show (∃ fup, _ ∧ Work.bind _ k w = _) ∨ ∃ e', _ ∧ Work.bind _ k w = _
  unfold prepare
  split
  · cases h : checkoutpath env.coll.pre name with
    | none => exact .inr ⟨e, rfl, rfl⟩
    | some path => exact .inl ⟨_, rfl, rfl⟩
  · exact .inl ⟨_, rfl, rfl⟩

theorem spares_pruneLoop (base : Path) (n : Nat) (file : Path) :
    (pruneLoop env base n file).Acts Action.Spares fun _ => True := by
  induction n generalizing file with
  | zero => exact Work.acts_pure trivial
  | succ n ih =>
    unfold pruneLoop
    split
    · exact Work.acts_pure trivial
    · refine .ite (Work.acts_pure trivial) (Work.acts_bind (Q := fun _ => True)
        (Work.acts_act (fun _ => by simp) fun _ => trivial) fun ok _ => ?_)
      exact .ite (ih _) (Work.acts_pure trivial)

theorem spares_statusDelete (env : Env W F D) (name : List Byte) :
    (statusDelete env name).Acts Action.Spares fun _ => True :=
  Work.acts_bind (Q := fun _ => True) (Work.acts_act (fun _ => by simp) fun _ => trivial)
    fun _ _ => .ite (Work.acts_pure trivial) (Work.acts_fail _)

theorem spares_statusPut (sr : Status.StatusRec) :
    (statusPut env sr).Acts Action.Spares fun _ => True :=
  Work.acts_bind (Q := fun _ => True) (Work.acts_act (fun _ => by simp) fun _ => trivial)
    fun _ _ => .ite (Work.acts_pure trivial) (Work.acts_fail _)

theorem counted_updaterDelete (fup : Fup) :
    Counted there env count (updaterDelete env fup count) w := by
  unfold updaterDelete
  split
  · rename_i hd
    split
    · exact counted_of_nil rfl (by simp [Work.fail])
    · rename_i hl
      let rest : Task W Nat :=
        if env.coll.checkoutmode then do
          prunedirs env env.coll.pre fup.destpath
          return count + 1
        else return count + 1
      have hrest : rest.Acts Action.Spares (· = count + 1) :=
        .ite (Work.acts_bind (spares_pruneLoop _ _ _) fun _ _ => Work.acts_pure rfl)
          (Work.acts_pure rfl)
      obtain ⟨hlog, hval⟩ := hrest (env.host.delete fup.destpath w)
      have hlog' : (Work.bind (deletefile env fup.destpath) (fun _ => rest) w).log =
          .delete fup.destpath :: (rest (env.host.delete fup.destpath w)).log := rfl
      have hlen : (deletions (there · w)
          (.delete fup.destpath :: (rest (env.host.delete fup.destpath w)).log)).length ≤ 1 := by
        rw [deletions, List.filterMap_cons]
        have := deletions_of_spares (there · w) hlog
        unfold deletions at this
        split <;> simp [this]
      show Counted there env count (Work.bind (deletefile env fup.destpath) fun _ => rest) w
      unfold Counted
      rw [hlog']
      refine ⟨hlen, fun _ => ⟨hd, fun h0 => by omega⟩, fun _ n hn => ?_⟩
      have hn' : n = count + 1 := hval n hn
      omega
  · exact counted_of_nil rfl (by simp [Work.pure, pure])

theorem counted_prepare_bind (e : Stop) (name : List Byte) (attic : Bool) {k : Fup → Task W Nat}
    (hk : ∀ fup, Counted there env count (k fup) w) :
    Counted there env count (prepare env e name attic >>= k) w := by
  rcases prepare_bind (w := w) e name attic k with ⟨fup, -, h⟩ | ⟨e', -, h⟩
  · unfold Counted
    rw [h]
    exact hk fup
  · exact counted_of_nil (by rw [h]) (by simp [h])

theorem counted_cmdDead (update : Bool) (name tag date attr : List Byte) :
    Counted there env count (cmdDead env update name tag date attr count) w := by
  have hdelete : Counted there env count (deleteDead env update name count) w := by
    refine counted_prepare_bind _ _ _ fun fup => ?_
    refine Counted.congr (t := if update || env.host.access fup.destpath w then
      updaterDelete env fup count else Work.pure count) rfl ?_
    split
    · exact counted_updaterDelete fup
    · exact counted_of_nil rfl (by simp [Work.pure])
  refine hdelete.bind fun n => Work.acts_bind (Q := fun _ => True) ?_ fun _ _ =>
    Work.acts_bind (spares_statusPut _) fun _ _ => Work.acts_pure rfl
  unfold decode
  split
  · exact Work.acts_pure trivial
  · exact Work.acts_fail _
  · exact Work.acts_fail _

theorem counted_cmdDelete (name : List Byte) :
    Counted there env count (cmdDelete env name count) w :=
  counted_prepare_bind _ _ _ fun fup => (counted_updaterDelete fup).bind fun _ =>
    Work.acts_bind (spares_statusDelete env name) fun _ _ => Work.acts_pure rfl

/-- `j` removes what is there. -/
theorem removes_cmdRmup (there : Path → W → Bool) (env : Env W F D) (w : W) (name : List Byte) :
    (deletions (there · w) (cmdRmup env name w).log).length ≤ 1 ∧
      (deletions (there · w) (cmdRmup env name w).log ≠ [] →
        ∃ fup, (prepare env errProto name false w).val = .ok fup ∧ there fup.destpath w = true) := by
  unfold cmdRmup
  rcases prepare_bind (w := w) errProto name false fun fup => (do
      deletefile env fup.destpath
      statusDelete env name : Task W Unit) with ⟨fup, hfup, h⟩ | ⟨e', -, h⟩
  · rw [h]
    have hlog := (spares_statusDelete env name (env.host.delete fup.destpath w)).1
    have hrest := deletions_of_spares (there · w) hlog
    have hall : (Work.bind (deletefile env fup.destpath) (fun _ => statusDelete env name) w).log =
        .delete fup.destpath :: (statusDelete env name (env.host.delete fup.destpath w)).log := rfl
    show (deletions _ (Work.bind _ _ w).log).length ≤ 1 ∧ (deletions _ (Work.bind _ _ w).log ≠ [] → _)
    rw [hall, deletions, List.filterMap_cons]
    unfold deletions at hrest
    cases ht : there fup.destpath w with
    | true => exact ⟨by simp [ht, hrest], fun _ => ⟨fup, hfup, ht⟩⟩
    | false => simp [ht, hrest]
  · simp [h, deletions]

theorem map_ok {α : Type} {m : Session W α} {p : List Byte} {n : Nat}
    (h : (((fun _ => count) <$> m) p w).val = .ok n) : count ≤ n := by
  change (Prog.bind m (fun _ => Prog.pure count) p w).val = .ok n at h
  cases hm : (m p w).val with
  | ok a =>
    rw [Prog.bind_ok hm] at h
    obtain rfl : count = n := by simpa [Prog.pure] using h
    exact Nat.le_refl _
  | error e =>
    rw [Prog.bind_error hm] at h
    cases h

theorem run_ok {α : Type} {t : Task W α} {p : List Byte} {a : α} :
    (run t p w).val = .ok a ↔ (t w).val = .ok a := by
  unfold run Prog.work
  cases (t w).val <;> simp [Except.mapError]

/-- What one of the commands removes, where a `j` that removes something may. -/
theorem removedBy_spec (count : Nat) {c : Command} (p : List Byte) (hs : Spares there env w c) :
    (removedBy there env count p w c).length ≤ 1 ∧
      (removedBy there env count p w c ≠ [] →
        env.coll.delete = true ∧ (0 ≤ env.deletelim → count < env.deletelim)) ∧
      (0 ≤ env.deletelim → ∀ n, (docommand env count c p w).val = .ok n →
        count + (removedBy there env count p w c).length ≤ n) := by
  have hother (hc : removedBy there env count p w c = [])
      (hval : ∀ n, (docommand env count c p w).val = .ok n → count ≤ n) :
      (removedBy there env count p w c).length ≤ 1 ∧
        (removedBy there env count p w c ≠ [] →
          env.coll.delete = true ∧ (0 ≤ env.deletelim → count < env.deletelim)) ∧
        (0 ≤ env.deletelim → ∀ n, (docommand env count c p w).val = .ok n →
          count + (removedBy there env count p w c).length ≤ n) := by
    rw [hc]
    exact ⟨by simp, by simp, fun _ n hn => hval n hn⟩
  cases c with
  | delete name =>
    obtain ⟨hlen, hlim, hval⟩ : Counted there env count (cmdDelete env name count) w :=
      counted_cmdDelete name
    exact ⟨hlen, hlim, fun h n hn => hval h n (run_ok.mp hn)⟩
  | dead update name tag date attr =>
    obtain ⟨hlen, hlim, hval⟩ :
        Counted there env count (cmdDead env update name tag date attr count) w :=
      counted_cmdDead update name tag date attr
    exact ⟨hlen, hlim, fun h n hn => hval h n (run_ok.mp hn)⟩
  | rmup name =>
    have hlog : (docommand env count (.rmup name) p w).log = (cmdRmup env name w).log := by
      show (Prog.bind (run (cmdRmup env name)) (fun _ => Prog.pure count) p w).log = _
      cases hv : (run (cmdRmup env name) p w).val with
      | ok a =>
        rw [Prog.bind_ok hv]
        exact List.append_nil _
      | error e =>
        rw [Prog.bind_error hv]
        rfl
    obtain ⟨hlen, hthere⟩ := removes_cmdRmup there env w name
    show (deletions _ (docommand env count (.rmup name) p w).log).length ≤ 1 ∧
      (deletions _ (docommand env count (.rmup name) p w).log ≠ [] → _) ∧
      (_ → ∀ n, _ → count + (deletions _ (docommand env count (.rmup name) p w).log).length ≤ n)
    rw [hlog]
    by_cases hd : deletions (there · w) (cmdRmup env name w).log = []
    · rw [hd]
      exact ⟨by simp, by simp, fun _ n hn => map_ok hn⟩
    · obtain ⟨fup, hfup, ht⟩ := hthere hd
      obtain ⟨hdel, hlim⟩ := hs name fup rfl hfup ht
      exact ⟨hlen, fun _ => ⟨hdel, fun h0 => by omega⟩, fun h0 => by omega⟩
  | warning msg => exact hother rfl fun n hn => (Except.ok.inj hn).le
  | _ => exact hother rfl fun n hn => map_ok hn

/-- At the limit a command that asks for one more deletion is an error, and nothing is
done. -/
theorem attempts_limit {c : Command} (ha : Attempts env w c) (h0 : 0 ≤ env.deletelim)
    (hc : env.deletelim ≤ count) (p : List Byte) :
    (docommand env count c p w).val = .error (some .deletelim) ∧
      (docommand env count c p w).log = [] ∧ (docommand env count c p w).world = w := by
  obtain ⟨hd, name, fup, hfup, hcmd⟩ := ha
  have hlimit : updaterDelete env fup count = Work.fail .deletelim := by
    rw [updaterDelete, if_pos hd, if_pos ⟨h0, hc⟩]
  have hprep {α : Type} (k : Fup → Task W α) : (prepare env errProto name false >>= k) w = k fup w := by
    rcases prepare_bind (w := w) errProto name false k with ⟨fup', hfup', h⟩ | ⟨e', he, -⟩
    · obtain rfl : fup = fup' := Except.ok.inj (hfup.symm.trans hfup')
      exact h
    · cases hfup.symm.trans he
  have hrun (t : Task W Nat) (h : t w = ⟨.error .deletelim, w, []⟩) :
      (run t p w).val = .error (some .deletelim) ∧ (run t p w).log = [] ∧ (run t p w).world = w := by
    simp [run, Prog.work, h, Except.mapError]
  rcases hcmd with rfl | ⟨update, tag, date, attr, rfl, hthere⟩
  · refine hrun _ ?_
    rw [cmdDelete, hprep, hlimit]
    rfl
  · refine hrun _ ?_
    have hdead : deleteDead env update name count w = ⟨.error .deletelim, w, []⟩ := by
      rw [deleteDead, hprep, hlimit]
      show (if update || env.host.access fup.destpath w then Work.fail .deletelim else _ : Task W Nat) w = _
      rw [if_pos hthere]
      rfl
    show Work.bind (deleteDead env update name count) _ w = _
    rw [Work.bind, hdead]

/-! ## A round of the loop -/

section

variable {p rest : List Byte} {c : Command}

theorem docollStep_some (env : Env W F D) (count : Nat) (w : W) (h : onLines nl readCommand p = .ok (some c, rest)) :
    (docollStep env count p w).val = (docommand env count c rest w).val.map .inl ∧
      (docollStep env count p w).log = (docommand env count c rest w).log ∧
      (docollStep env count p w).world = (docommand env count c rest w).world := by
  have hread : (readLines (fun p _ => unfinished .command p) readCommand : Session W _) p w =
      ⟨.ok (some c), rest, w, [], if rest = [] then unfinished .command p else []⟩ := by
    simp [readLines, Prog.read, h, Except.mapError]
  unfold docollStep
  rw [Prog.bind_ok (a := some c) (by rw [hread]), hread]
  show (Prog.bind (docommand env count c) _ rest w).val = _ ∧
    [] ++ (Prog.bind (docommand env count c) _ rest w).log = _ ∧
    (Prog.bind (docommand env count c) _ rest w).world = _
  cases hv : (docommand env count c rest w).val with
  | ok n =>
    rw [Prog.bind_ok hv]
    exact ⟨rfl, by simp [Prog.pure], rfl⟩
  | error e =>
    rw [Prog.bind_error hv]
    exact ⟨rfl, rfl, rfl⟩

/-- The count behind a round. -/
theorem docollStep_ok {r : Nat ⊕ Nat} (h : (docollStep env count p w).val = .ok r) :
    (∃ c rest n, onLines nl readCommand p = .ok (some c, rest) ∧ r = .inl n ∧
      (docommand env count c rest w).val = .ok n) ∨
    (∃ rest, onLines nl readCommand p = .ok (none, rest)) ∧ r = .inr count := by
  cases hr : onLines nl readCommand p with
  | error e =>
    have hread : ((readLines (fun p _ => unfinished .command p) readCommand : Session W _) p w).val =
        .error (some (.halt e)) := by
      simp [readLines, Prog.read, hr, Except.mapError]
    rw [docollStep, Prog.bind_error hread] at h
    cases h
  | ok x =>
    obtain ⟨line, rest⟩ := x
    cases line with
    | some c =>
      rw [(docollStep_some _ _ _ hr).1] at h
      cases hv : (docommand env count c rest w).val with
      | ok n =>
        rw [hv] at h
        exact .inl ⟨c, rest, n, rfl, (Except.ok.inj h).symm, hv⟩
      | error e =>
        rw [hv] at h
        cases h
    | none =>
      have hread : ((readLines (fun p _ => unfinished .command p) readCommand : Session W _) p w).val =
          .ok none := by
        simp [readLines, Prog.read, hr, Except.mapError]
      rw [docollStep, Prog.bind_ok hread] at h
      exact .inr ⟨⟨rest, rfl⟩, (Except.ok.inj h).symm⟩

end

/-! ## Runs -/

/-- A file of the world with the calls. -/
def calledThere (there : Path → W → Bool) (path : Path) (w : Called C W) : Bool :=
  there path w.world

/-- The files the next step removes, with the collection. -/
def UpState.removed (there : Path → W → Bool) (s : UpState C W F D) :
    List (BatchColl C W F D × Path) :=
  match s.phase with
  | .docoll _ c _ =>
    match onLines nl readCommand s.input with
    | .ok (some cmd, rest) =>
      (removedBy (calledThere there) (c.env.called c.coll) s.count rest s.world cmd).map (c, ·)
    | _ => []
  | _ => []

/-- The next command is no `j` that names a file. -/
def UpState.Spares (there : Path → W → Bool) (s : UpState C W F D) : Prop :=
  ∀ isfixups c left cmd rest, s.phase = .docoll isfixups c left →
    onLines nl readCommand s.input = .ok (some cmd, rest) →
    Docoll.Spares (calledThere there) (c.env.called c.coll) s.world cmd

/-- What the updater comes to by steps from states that are `ok`, and what it has
removed. -/
inductive DelRun (there : Path → W → Bool) (ok : UpState C W F D → Prop)
    (colls : List (BatchColl C W F D)) (input : List Byte) (world : W) :
    List (BatchColl C W F D × Path) → UpState C W F D → Prop
  | init : DelRun there ok colls input world [] (.init colls input world)
  | next {ps : List (BatchColl C W F D × Path)} {s s' : UpState C W F D} :
    DelRun there ok colls input world ps s → ok s → s.step colls = some s' →
    DelRun there ok colls input world (ps ++ s.removed there) s'

/-- It does not end at once. -/
def UpPhase.goesOn : UpPhase C W F D → Bool
  | .batch .. | .docoll .. => true
  | .close ok => ok
  | .done => false

/-- The collections that are left. -/
def UpPhase.colls : UpPhase C W F D → List (BatchColl C W F D)
  | .batch _ left => left
  | .docoll _ c left => c :: left
  | _ => []

variable {colls : List (BatchColl C W F D)}
  {s s' : UpState C W F D}

/-- A step that does not end the run counts what it removes. -/
theorem UpState.step_count (there : Path → W → Bool) (h : s.step colls = some s') :
    (∀ c ∈ s'.phase.colls, c ∈ s.phase.colls ∨ c ∈ colls) ∧
      (s'.phase.goesOn = true → s.phase.goesOn = true ∧
        (s.removed there = [] ∧ s'.count = s.count ∨
        ∃ isfixups c left cmd rest, s.phase = .docoll isfixups c left ∧
          onLines nl readCommand s.input = .ok (some cmd, rest) ∧
          (docommand (c.env.called c.coll) s.count cmd rest s.world).val = .ok s'.count)) := by
  unfold UpState.step at h
  cases hp : s.phase with
  | batch isfixups left =>
    have hr : s.removed there = [] := by simp [UpState.removed, hp]
    cases left with
    | nil =>
      simp only [hp] at h
      split at h <;> cases h <;>
        exact ⟨by cases isfixups <;> simp [UpPhase.behind, UpPhase.colls], fun _ => ⟨rfl, .inl ⟨hr, rfl⟩⟩⟩
    | cons c left =>
      simp only [hp] at h
      split at h
      · cases h
        exact ⟨fun c' hc' => .inl (List.mem_cons_of_mem _ hc'), fun _ => ⟨rfl, .inl ⟨hr, rfl⟩⟩⟩
      · split at h
        · cases h
          exact ⟨by cases isfixups <;> simp [UpPhase.behind, UpPhase.colls],
            fun _ => ⟨rfl, .inl ⟨hr, rfl⟩⟩⟩
        · cases h
          refine ⟨fun c' hc' => .inl ?_, fun _ => ⟨rfl, .inl ⟨hr, rfl⟩⟩⟩
          dsimp only at hc'
          split at hc'
          · exact hc'
          · cases isfixups <;> simp [UpPhase.behind, UpPhase.colls] at hc'
  | docoll isfixups c left =>
    simp only [hp] at h
    cases hv : (docollStep (c.env.called c.coll) s.count s.input s.world).val with
    | ok r =>
      rcases docollStep_ok hv with ⟨cmd, rest, n, hread, rfl, hn⟩ | ⟨⟨rest, hread⟩, rfl⟩
      · simp only [hv] at h
        cases h
        exact ⟨fun c' hc' => .inl hc', fun _ => ⟨rfl,
          .inr ⟨isfixups, c, left, cmd, rest, rfl, hread, hn⟩⟩⟩
      · simp only [hv] at h
        cases h
        have hr : s.removed there = [] := by simp [UpState.removed, hp, hread]
        refine ⟨fun c' hc' => .inl ?_, fun _ => ⟨rfl, .inl ⟨hr, rfl⟩⟩⟩
        dsimp only at hc'
        split at hc'
        · exact List.mem_cons_of_mem _ hc'
        · cases isfixups <;> simp [UpPhase.behind, UpPhase.colls] at hc'
    | error e =>
      simp only [hv] at h
      cases h
      refine ⟨fun c' hc' => ?_, fun hg => ?_⟩
      · cases isfixups <;> simp [UpPhase.behind, UpPhase.colls] at hc'
      · cases isfixups <;> simp [UpPhase.behind, UpPhase.goesOn] at hg
  | close ok =>
    have hr : s.removed there = [] := by simp [UpState.removed, hp]
    simp only [hp] at h
    cases h
    cases ok with
    | true => exact ⟨fun c' hc' => .inr hc', fun _ => ⟨rfl, .inl ⟨hr, rfl⟩⟩⟩
    | false => exact ⟨by simp [UpPhase.colls], fun hg => by simp [UpPhase.goesOn] at hg⟩
  | done => simp [hp] at h

theorem removed_cases (there : Path → W → Bool) (s : UpState C W F D) :
    s.removed there = [] ∨ ∃ isfixups c left cmd rest, s.phase = .docoll isfixups c left ∧
      onLines nl readCommand s.input = .ok (some cmd, rest) ∧ s.removed there =
        (removedBy (calledThere there) (c.env.called c.coll) s.count rest s.world cmd).map (c, ·) := by
  unfold UpState.removed
  split
  · rename_i isfixups c left hp
    split
    · rename_i cmd rest hread
      exact .inr ⟨isfixups, c, left, cmd, rest, hp, hread, rfl⟩
    · exact .inl rfl
  · exact .inl rfl

/-- What is removed is allowed, within the limit, and counted while the run goes on. -/
structure UpState.Limited (lim : Int) (ps : List (BatchColl C W F D × Path))
    (s : UpState C W F D) : Prop where
  colls : ∀ c ∈ s.phase.colls, c.env.deletelim = lim
  allowed : ∀ x ∈ ps, x.1.env.coll.delete = true
  le : 0 ≤ lim → (ps.length : Int) ≤ lim
  counted : 0 ≤ lim → s.phase.goesOn = true → ps.length ≤ s.count

theorem UpState.Limited.step {lim : Int} {ps : List (BatchColl C W F D × Path)}
    (h : s.Limited lim ps) (hlim : ∀ c ∈ colls, c.env.deletelim = lim) (hok : s.Spares there)
    (hs : s.step colls = some s') : s'.Limited lim (ps ++ s.removed there) := by
  obtain ⟨hcolls, hcount⟩ := UpState.step_count there hs
  have hcolls' : ∀ c ∈ s'.phase.colls, c.env.deletelim = lim := fun c hc =>
    (hcolls c hc).elim (h.colls c) (hlim c)
  rcases removed_cases there s with hr | ⟨isfixups, c, left, cmd, rest, hp, hread, hr⟩
  · rw [hr, List.append_nil]
    refine ⟨hcolls', h.allowed, h.le, fun h0 hg => ?_⟩
    obtain ⟨hg', hcnt⟩ := hcount hg
    have hle := h.counted h0 hg'
    rcases hcnt with ⟨-, hc⟩ | ⟨isfixups, c, left, cmd, rest, hp, hread, hv⟩
    · omega
    · have hlim : c.env.deletelim = lim := h.colls c (by simp [hp, UpPhase.colls])
      have hspec := (removedBy_spec s.count rest (hok isfixups c left cmd rest hp hread)).2.2
        (by show 0 ≤ c.env.deletelim; omega) _ hv
      omega
  · have hlim : c.env.deletelim = lim := h.colls c (by simp [hp, UpPhase.colls])
    obtain ⟨hlen, hne, hval⟩ := removedBy_spec s.count rest
      (hok isfixups c left cmd rest hp hread)
    have hgo : s.phase.goesOn = true := by rw [hp]; rfl
    rw [hr]
    refine ⟨hcolls', fun x hx => ?_, fun h0 => ?_, fun h0 hg => ?_⟩
    · rcases List.mem_append.mp hx with hx | hx
      · exact h.allowed x hx
      · obtain ⟨path, hpath, rfl⟩ := List.mem_map.mp hx
        exact (hne (List.ne_nil_of_mem hpath)).1
    · have hle := h.counted h0 hgo
      have hold := h.le h0
      rw [List.length_append, List.length_map]
      by_cases hnil : removedBy (calledThere there) (c.env.called c.coll) s.count rest s.world cmd = []
      · rw [hnil]
        simpa using hold
      · have hlt : (s.count : Int) < c.env.deletelim := (hne hnil).2 (by
          show 0 ≤ c.env.deletelim
          omega)
        push_cast
        omega
    · have hle := h.counted h0 hgo
      rw [List.length_append, List.length_map]
      rcases (hcount hg).2 with ⟨hnil, hc⟩ | ⟨isfixups', c', left', cmd', rest', hp', hread', hv⟩
      · rw [hr, List.map_eq_nil_iff] at hnil
        rw [hnil, hc]
        exact hle
      · cases hp.symm.trans hp'
        cases Except.ok.inj (hread.symm.trans hread')
        have := hval (by show 0 ≤ c.env.deletelim; omega) _ hv
        omega

theorem DelRun.limited {lim : Int} {ps : List (BatchColl C W F D × Path)} {input : List Byte}
    {world : W} (hlim : ∀ c ∈ colls, c.env.deletelim = lim)
    (h : DelRun there (UpState.Spares there) colls input world ps s) : s.Limited lim ps := by
  induction h with
  | init => exact ⟨hlim, by simp, by simp, by simp⟩
  | next _ hok hs ih => exact ih.step hlim hok hs

/-- In a run where no `j` names a file (which it may where the collection allows deletions
and there is no limit), files are removed only for collections that allow it, and no more
than the limit; where they are as many, to ask for one more is an error, and nothing is
done. -/
theorem deletions_within (there : Path → W → Bool) (lim : Int) (colls : List (BatchColl C W F D))
    (hlim : ∀ c ∈ colls, c.env.deletelim = lim) (input : List Byte) (world : W)
    (ps : List (BatchColl C W F D × Path)) (s : UpState C W F D)
    (h : DelRun there (UpState.Spares there) colls input world ps s) :
    (∀ x ∈ ps, x.1.env.coll.delete = true) ∧ (0 ≤ lim → (ps.length : Int) ≤ lim) ∧
      (ps.length = lim → ∀ isfixups c left cmd rest, s.phase = .docoll isfixups c left →
        onLines nl readCommand s.input = .ok (some cmd, rest) →
        Attempts (c.env.called c.coll) s.world cmd →
        let r := docollStep (c.env.called c.coll) s.count s.input s.world
        r.val = .error (some .deletelim) ∧ r.log = [] ∧ r.world = s.world) := by
  have hl := h.limited hlim
  refine ⟨hl.allowed, hl.le, fun hn isfixups c left cmd rest hp hread ha => ?_⟩
  have hc : c.env.deletelim = lim := hl.colls c (by simp [hp, UpPhase.colls])
  have hle := hl.counted (by omega) (by rw [hp]; rfl)
  have hlimit : (c.env.called c.coll).deletelim ≤ s.count := by
    show c.env.deletelim ≤ s.count
    omega
  obtain ⟨hval, hlog, hworld⟩ := attempts_limit ha
    (show 0 ≤ c.env.deletelim by omega) hlimit rest
  obtain ⟨hval', hlog', hworld'⟩ := docollStep_some (c.env.called c.coll) s.count s.world hread
  refine ⟨?_, by rw [hlog', hlog], by rw [hworld', hworld]⟩
  rw [hval', hval]
  rfl

/-! ## A file in the place of a directory -/

/-- A collection with the limit `lim`. -/
def limColl (delete : Bool) (lim : Int) : BatchColl Unit (List Path) Unit Unit :=
  ⟨(), false, bytes ['c'], bytes ['r'], Prod.mk true, Prod.mk true,
    { listEnv with deletelim := lim, coll := { listEnv.coll with delete } }⟩

def isThere (path : Path) (fs : List Path) : Bool := fs.contains path

/-- In the loop, in front of a command. -/
def limState (delete : Bool) (lim : Int) (input : List Byte) :
    UpState Unit (List Path) Unit Unit :=
  ⟨.docoll false (limColl delete lim) [], 0, input, ⟨[bytes ['r', '/', 'f']], []⟩⟩

/-- A file is deleted, and the limit is 1. -/
theorem deletions_within_one : ∃ s, DelRun isThere (UpState.Spares isThere) [limColl true 1]
    (bytes ['C', 'O', 'L', 'L', ' ', 'c', ' ', 'r', '\n', 'D', ' ', 'f', '\n'])
    [bytes ['r', '/', 'f']] [(limColl true 1, bytes ['r', '/', 'f'])] s ∧
    (limColl true 1).env.coll.delete = true := by
  have h1 : DelRun isThere (UpState.Spares isThere) [limColl true 1] _ _ []
      (limState true 1 (bytes ['D', ' ', 'f', '\n'])) :=
    (DelRun.init : DelRun isThere (UpState.Spares isThere) [limColl true 1]
      (bytes ['C', 'O', 'L', 'L', ' ', 'c', ' ', 'r', '\n', 'D', ' ', 'f', '\n'])
      [bytes ['r', '/', 'f']] [] _).next (fun _ _ _ _ _ hp => by cases hp) rfl
  have hread : onLines nl readCommand (bytes ['D', ' ', 'f', '\n']) =
      .ok (some (.delete (bytes ['f'])), []) := rfl
  have hspares : (limState true 1 (bytes ['D', ' ', 'f', '\n'])).Spares isThere := by
    intro isfixups c left cmd rest hp hcmd name fup hc
    cases hread.symm.trans hcmd
    cases hc
  have h2 := h1.next hspares rfl
  exact ⟨_, h2, (deletions_within isThere 1 _ (by simp [limColl]) _ _ _ _ h2).1 _
    (List.mem_singleton_self _)⟩

/-- No deletion is allowed, and the limit is 0; a `j` removes a file. -/
theorem deleted_by_rmup : ∃ s, DelRun isThere (fun _ => True) [limColl false 0]
    (bytes ['C', 'O', 'L', 'L', ' ', 'c', ' ', 'r', '\n', 'j', ' ', 'f', '\n'])
    [bytes ['r', '/', 'f']] [(limColl false 0, bytes ['r', '/', 'f'])] s ∧
    (limColl false 0).env.coll.delete = false ∧ s.world.world = [] := by
  have h1 : DelRun isThere (fun _ => True) [limColl false 0] _ _ []
      (limState false 0 (bytes ['j', ' ', 'f', '\n'])) :=
    (DelRun.init : DelRun isThere (fun _ => True) [limColl false 0]
      (bytes ['C', 'O', 'L', 'L', ' ', 'c', ' ', 'r', '\n', 'j', ' ', 'f', '\n'])
      [bytes ['r', '/', 'f']] [] _).next trivial rfl
  exact ⟨_, h1.next trivial rfl, rfl, rfl⟩

end Csup.Docoll
