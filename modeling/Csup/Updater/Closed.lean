import Csup.Updater.Late
import Csup.Updater.Truncated

/-!
# Fixups behind the close of the queue

In the second batch the queue is closed. The flag that keeps `updater_needfixup` from
`fixups_put` is set by `X`, `x` and `Y` only, but all commands are accepted: nothing is
put behind the close just when every other command of the second batch `Fits`
(`putsFirst_iff`). The command `A` with a wrong checksum does not (`put_behind_close`).
-/

namespace Csup.Docoll

open Csup.Detailer (Fixup Fixups Op)
open Csup.Diff (Line)
open Csup.Framework (Prog Work onLines)
open Csup.Status (StatusRec)
open Csup.Updater

variable {C W F D α β : Type}

/-! ## What a command puts -/

section

variable (env : Env W F D) (coll : C)

/-- Fixups for `coll` are put, in the order of the names. -/
def Puts (coll : C) (w w' : Called C W) : Prop :=
  ∃ names : List (List Byte), w'.calls = w.calls ++ names.map fun name => .put ⟨coll, name⟩

theorem puts_of_eq (w w' : Called C W) (h : w'.calls = w.calls) : Puts coll w w' :=
  ⟨[], by rw [h, List.map_nil, List.append_nil]⟩

theorem puts_refl (w : Called C W) : Puts coll w w := puts_of_eq coll w w rfl

theorem puts_trans (a b c : Called C W) (hab : Puts coll a b) (hbc : Puts coll b c) :
    Puts coll a c := by
  obtain ⟨names, hab⟩ := hab
  obtain ⟨names', hbc⟩ := hbc
  exact ⟨names ++ names', by rw [hbc, hab, List.map_append, List.append_assoc]⟩

variable {coll}

theorem Calm.puts {t : Task (Called C W) α} (h : Calm t) : t.Moves (Puts coll) :=
  h.moves (puts_of_eq coll)

theorem puts_bind {t : Task (Called C W) α} {k : α → Task (Called C W) β} (ht : Calm t)
    (hk : ∀ a, (k a).Moves (Puts coll)) : (t >>= k).Moves (Puts coll) :=
  .bind (puts_trans coll) (Calm.puts ht) hk

theorem puts_run_bind {t : Task (Called C W) α} {k : α → Session (Called C W) β} (ht : Calm t)
    (hk : ∀ a, (k a).Moves (Puts coll)) : (run t >>= k).Moves (Puts coll) :=
  .bind (puts_trans coll) (Prog.moves_work some (Calm.puts ht)) hk

theorem puts_readLines_bind {mark : List Byte → α → List Note}
    {f : List Line → Except Halt (α × List Line)} {k : α → Session (Called C W) β}
    (hk : ∀ a, (k a).Moves (Puts coll)) : (readLines mark f >>= k).Moves (Puts coll) :=
  .bind (puts_trans coll) (Prog.moves_read (puts_refl coll) _ _) hk

theorem puts_map (f : α → β) {m : Session (Called C W) α} (h : m.Moves (Puts coll)) :
    (f <$> m).Moves (Puts coll) :=
  .bind (puts_trans coll) h fun _ => Prog.moves_pure (puts_refl coll) _

theorem puts_run_calm {t : Task (Called C W) α} (ht : Calm t) : (run t).Moves (Puts coll) :=
  Prog.moves_work some (Calm.puts ht)

variable (coll)

theorem puts_needfixupFile (name temppath : List Byte) (isfixup : Bool) :
    (needfixupFile (env.called coll) name temppath isfixup).Moves (Puts coll) := by
  intro w
  refine ⟨if isfixup then [] else [name], ?_⟩
  rw [calls_needfixupFile]
  cases isfixup <;> rfl

theorem puts_updateFile (fup : Fup) (temppath : Path) (isfixup : Bool) (wantmd5 sum : List Byte)
    (sr : StatusRec) (clientattr : Attrs.Fattr) :
    (updateFile (env.called coll) fup temppath isfixup wantmd5 sum sr clientattr).Moves (Puts coll) := by
  unfold updateFile
  split
  · exact puts_needfixupFile env coll _ _ _
  · refine puts_bind (calm_install env coll _ _ _) fun rv => ?_
    exact Calm.puts (.bind (calm_check _ _) fun _ => .bind (calm_frompath env coll _) fun _ =>
      .bind (calm_need _ _) fun _ => calm_statusPut env coll _)

theorem puts_updateRcs (fup : Fup) (temppath path : Path) (attic isfixup : Bool) (e : Stop)
    (name wantmd5 sum : List Byte) (fa : Attrs.Fattr) :
    (updateRcs (env.called coll) fup temppath path attic isfixup e name wantmd5 sum fa).Moves
      (Puts coll) :=
  puts_bind (calm_frompath env coll _) fun _ => puts_bind (calm_need _ _) fun _ =>
    puts_updateFile env coll _ _ _ _ _ _ _

theorem puts_getFile {temppath : Path} {orig : List Byte} {size : Int}
    {close : List Byte → List Byte → Task (Called C W) Unit}
    (h : ∀ wantmd5 sum, (close wantmd5 sum).Moves (Puts coll)) :
    (getFile (env.called coll) temppath orig size close).Moves (Puts coll) :=
  .bind (puts_trans coll) (Prog.moves_read (puts_refl coll) _ _) fun _ =>
    puts_run_bind (calm_writeFile env coll _ _) fun _ => puts_readLines_bind fun _ =>
    puts_readLines_bind fun _ => Prog.moves_work some (h _ _)

theorem puts_cmdCheckout (isfixup : Bool) (name tag date revnum revdate attr : List Byte) :
    (cmdCheckout (env.called coll) isfixup name tag date revnum revdate attr).Moves (Puts coll) := by
  have ho : Calm (do
      let serverattr ← decode (env.called coll) attr
      return (serverattr, ← openCheckout (env.called coll) name revdate)) :=
    .bind (calm_decode env coll attr) fun _ => .bind (calm_openCheckout env coll name revdate) fun _ =>
      Work.still_pure _
  exact puts_run_bind ho fun _ => puts_readLines_bind fun _ =>
    puts_run_bind (calm_writeFile env coll _ _) fun _ => puts_readLines_bind fun _ =>
    Prog.moves_work some (puts_updateFile env coll _ _ _ _ _ _ _)

theorem puts_closeRcsedit (fup : Fup) (temppath : Path) (attic : Bool) (name wantmd5 : List Byte)
    (fa : Attrs.Fattr) (rf : Option F) :
    (closeRcsedit (env.called coll) fup temppath attic name wantmd5 fa rf).Moves (Puts coll) := by
  cases rf with
  | none => exact Calm.puts (calm_closeRcsedit env coll fup temppath attic name wantmd5 fa)
  | some f =>
    refine puts_bind (calm_create env coll _) fun _ => puts_bind (calm_must _ _) fun _ =>
      puts_bind (calm_writeFile env coll _ _) fun _ => ?_
    exact .bind (puts_trans coll) (puts_updateRcs env coll _ _ _ _ _ _ _ _ _ _) fun _ =>
      Calm.puts (calm_removeOrig env coll fup)

theorem puts_cmdRcsedit (attic : Bool) (name attr wantmd5 : List Byte) :
    (cmdRcsedit (env.called coll) attic name attr wantmd5).Moves (Puts coll) := by
  refine puts_run_bind (calm_openRcsedit env coll _ _ _) fun x => puts_readLines_bind fun e => ?_
  cases e with
  | done rf => exact Prog.moves_work some (puts_closeRcsedit env coll _ _ _ _ _ _ _)
  | invalid =>
    refine .bind (puts_trans coll) (Prog.moves_work some ?_) fun _ =>
      puts_readLines_bind fun _ => Prog.moves_pure (puts_refl coll) _
    exact puts_bind (calm_check _ _) fun _ => puts_needfixupFile env coll _ _ _

/-- All that a command does to the queue is to put fixups for its collection. -/
theorem puts_docommand (count : Nat) (c : Command) :
    (docommand (env.called coll) count c).Moves (Puts coll) := by
  cases c with
  | setattrs => exact puts_map _ (puts_run_calm (calm_cmdSetattrs env coll _ _ _ _ _ _))
  | dead => exact puts_run_calm (calm_cmdDead env coll _ _ _ _ _ _)
  | diff name tag date expand attr wantmd5 =>
    refine puts_map _ (puts_run_bind (calm_openDiff env coll _ _ _) fun x =>
      puts_readLines_bind fun last => Prog.moves_work some ?_)
    exact puts_bind (Work.still_ask _) fun _ => puts_bind (calm_need _ _) fun _ =>
      puts_bind (calm_need _ _) fun _ => puts_bind (calm_create env coll _) fun _ =>
      puts_bind (calm_writeFile env coll _ _) fun _ => puts_updateFile env coll _ _ _ _ _ _ _
  | checkout => exact puts_map _ (puts_cmdCheckout env coll _ _ _ _ _ _ _)
  | delete => exact puts_run_calm (calm_cmdDelete env coll _ _)
  | addfile attic isfixup name attr =>
    exact puts_map _ (puts_run_bind (calm_openAddfile env coll _ _ _) fun _ =>
      puts_getFile env coll fun _ _ => puts_updateRcs env coll _ _ _ _ _ _ _ _ _ _)
  | rsync name attr blocksize wantmd5 =>
    exact puts_map _ (puts_run_bind (calm_openRsync env coll _ _) fun _ =>
      puts_readLines_bind fun _ => Prog.moves_work some (puts_bind (calm_writeFile env coll _ _)
      fun _ => puts_updateRcs env coll _ _ _ _ _ _ _ _ _ _))
  | dirdown => exact puts_map _ (puts_run_calm (calm_cmdDirdown env coll _))
  | rmdown => exact puts_map _ (puts_run_calm (calm_cmdRmdown env coll _))
  | dirup => exact puts_map _ (puts_run_calm (calm_cmdDirup env coll _ _))
  | rmup => exact puts_map _ (puts_run_calm (calm_cmdRmup env coll _))
  | record => exact puts_map _ (puts_run_calm (calm_cmdRecord env coll _ _ _))
  | node => exact puts_map _ (puts_run_calm (calm_cmdNode env coll _ _ _))
  | rcsedit => exact puts_map _ (puts_cmdRcsedit env coll _ _ _ _)
  | append name attr pos =>
    exact puts_map _ (puts_run_bind (calm_openAppend env coll _ _) fun _ =>
      puts_getFile env coll fun _ _ => puts_updateRcs env coll _ _ _ _ _ _ _ _ _ _)
  | warning => exact Prog.moves_pure (puts_refl coll) _

theorem puts_docollStep (count : Nat) :
    (docollStep (env.called coll) count).Moves (Puts coll) := by
  refine puts_readLines_bind fun line => ?_
  cases line with
  | none => exact Prog.moves_pure (puts_refl coll) _
  | some c => exact puts_map _ (puts_docommand env coll count c)

end

/-! ## The queue -/

theorem putsFirst_put (f : Fixup C (List Byte)) (calls : List (Op C (List Byte))) :
    PutsFirst (.put f :: calls) ↔ PutsFirst calls := by
  constructor
  · intro h before behind hc
    exact h (.put f :: before) behind (by rw [hc, List.cons_append])
  · intro h before behind hc
    cases before with
    | nil => cases hc
    | cons op before => exact h before behind (List.cons.inj hc).2

theorem putsFirst_close (calls : List (Op C (List Byte))) :
    PutsFirst (.close :: calls) ↔ ∀ f, .put f ∉ calls := by
  constructor
  · exact fun h => h [] calls rfl
  · intro h before behind hc f hf
    cases before with
    | nil => exact h f ((List.cons.inj hc).2 ▸ hf)
    | cons op before =>
      have hmem : Op.put f ∈ before ++ .close :: behind := by simp [hf]
      exact h f ((List.cons.inj hc).2 ▸ hmem)

/-- The assertion of `fixups_put` holds just when nothing is put behind a close. -/
theorem performs_iff (q : Fixups C (List Byte)) (calls : List (Op C (List Byte))) :
    (performs q calls).isSome ↔ (q.closed = true → ∀ f, .put f ∉ calls) ∧ PutsFirst calls := by
  induction calls generalizing q with
  | nil =>
    refine iff_of_true rfl ⟨fun _ _ => List.not_mem_nil, fun before behind hc => ?_⟩
    simp at hc
  | cons op calls ih =>
    cases op with
    | put f =>
      rw [putsFirst_put]
      cases hq : q.closed with
      | true =>
        refine iff_of_false ?_ fun h => h.1 rfl f List.mem_cons_self
        simp [performs, Fixups.call, Fixups.put, hq]
      | false => simp [performs, Fixups.call, Fixups.put, hq, ih]
    | close =>
      rw [putsFirst_close]
      have hfirst (h : ∀ f, .put f ∉ calls) : PutsFirst calls := fun before behind hc f hf =>
        h f (hc ▸ by simp [hf])
      simp only [performs, Fixups.call, Fixups.close, Option.bind_some, ih, true_implies]
      constructor
      · rintro ⟨h, -⟩
        exact ⟨fun _ f => by simp [h f], h⟩
      · rintro ⟨-, h⟩
        exact ⟨h, hfirst h⟩

/-! ## Runs -/

/-- It is behind the close. -/
def UpPhase.closed : UpPhase C W F D → Bool
  | batch isfixups _ => isfixups
  | docoll isfixups _ _ => isfixups
  | close _ => false
  | done => true

theorem closed_behind (isfixups ok : Bool) :
    (UpPhase.behind isfixups ok : UpPhase C W F D).closed = isfixups := by
  cases isfixups <;> rfl

/-- The next command of the second batch fits. -/
def Meets (s : UpState C W F D) : Prop :=
  ∀ c left cmd rest, s.phase = .docoll true c left →
    onLines nl readCommand s.input = .ok (some cmd, rest) →
    Fits (c.env.called c.coll) rest s.world cmd

variable {colls : List (BatchColl C W F D)} {s s' : UpState C W F D}

theorem meets_of_closed (h : s.phase.closed = false) : Meets s := by
  intro c left cmd rest hp
  rw [hp] at h
  cases h

theorem meets_of_batch {isfixups : Bool} {left : List (BatchColl C W F D)}
    (h : s.phase = .batch isfixups left) : Meets s := by
  intro c left' cmd rest hp
  cases h.symm.trans hp

/-- What a step does to the calls. -/
theorem UpState.step_calls (h : s.step colls = some s') :
    (∃ ok, s.phase = .close ok ∧ s'.phase.closed = true ∧
      s'.world.calls = s.world.calls ++ [.close]) ∨
    s'.phase.closed = s.phase.closed ∧
      ((∃ isfixups c left, s.phase = .docoll isfixups c left ∧ s'.world.calls =
        (docollStep (c.env.called c.coll) s.count s.input s.world).world.calls) ∨
      (∀ isfixups c left, s.phase ≠ .docoll isfixups c left) ∧ s'.world.calls = s.world.calls) := by
  unfold UpState.step at h
  cases hp : s.phase with
  | batch isfixups left =>
    right
    cases left with
    | nil =>
      simp only [hp] at h
      split at h <;> cases h <;> exact ⟨closed_behind _ _, .inr ⟨by simp, rfl⟩⟩
    | cons c left =>
      simp only [hp] at h
      split at h
      · cases h
        exact ⟨rfl, .inr ⟨by simp, rfl⟩⟩
      · split at h
        · cases h
          exact ⟨closed_behind _ _, .inr ⟨by simp, rfl⟩⟩
        · cases h
          refine ⟨?_, .inr ⟨by simp, rfl⟩⟩
          show (if _ then _ else _ : UpPhase C W F D).closed = _
          split
          · rfl
          · exact closed_behind _ _
  | docoll isfixups c left =>
    right
    simp only [hp] at h
    split at h <;> cases h
    · exact ⟨by simp, .inl ⟨isfixups, c, left, rfl, rfl⟩⟩
    · refine ⟨?_, .inl ⟨isfixups, c, left, rfl, rfl⟩⟩
      show (if _ then _ else _ : UpPhase C W F D).closed = _
      split
      · rfl
      · exact closed_behind _ _
    · exact ⟨closed_behind _ _, .inl ⟨isfixups, c, left, rfl, rfl⟩⟩
  | close ok =>
    simp only [hp] at h
    cases h
    exact .inl ⟨ok, rfl, by cases ok <;> rfl, rfl⟩
  | done => simp [hp] at h

/-- Up to the close the updater puts fixups, and behind it nothing more. -/
def UpState.Closes (s : UpState C W F D) : Prop :=
  ∃ fs : List (Fixup C (List Byte)),
    s.world.calls = fs.map .put ++ if s.phase.closed then [.close] else []

theorem putsFirst_closes {fs : List (Fixup C (List Byte))} {behind : List (Op C (List Byte))} :
    PutsFirst (fs.map .put ++ .close :: behind) ↔ ∀ f, .put f ∉ behind := by
  induction fs with
  | nil => exact putsFirst_close behind
  | cons f fs ih => rw [List.map_cons, List.cons_append, putsFirst_put, ih]

theorem UpState.Closes.putsFirst (h : s.Closes) : PutsFirst s.world.calls := by
  obtain ⟨fs, hc⟩ := h
  rw [hc]
  split
  · exact putsFirst_closes.mpr fun _ => List.not_mem_nil
  · intro before behind hb
    have hmem : (.close : Op C (List Byte)) ∈ fs.map .put := by
      rw [List.append_nil] at hb
      rw [hb]
      simp
    simp at hmem

theorem UpState.Closes.step (h : s.Closes) (hm : Meets s) (hs : s.step colls = some s') :
    s'.Closes := by
  obtain ⟨fs, hc⟩ := h
  rcases UpState.step_calls hs with ⟨ok, hp, hp', hc'⟩ | ⟨hp', ⟨isfixups, c, left, hp, hc'⟩ | ⟨-, hc'⟩⟩
  · refine ⟨fs, ?_⟩
    rw [hc', hc, hp, hp']
    simp [UpPhase.closed]
  · cases isfixups with
    | false =>
      obtain ⟨names, hn⟩ := puts_docollStep c.env c.coll s.count s.input s.world
      refine ⟨fs ++ names.map (Fixup.mk c.coll), ?_⟩
      rw [hc', hn, hc, hp', hp]
      simp [UpPhase.closed]
    | true =>
      have hk := (keeps_docollStep c.env c.coll s.count s.input s.world).mpr fun cmd rest hr =>
        hm c left cmd rest hp hr
      exact ⟨fs, by rw [hc', hp', ← hc]; exact hk⟩
  · exact ⟨fs, by rw [hc', hp', hc]⟩

/-- A command that does not fit puts a fixup behind the close. -/
theorem UpState.Closes.meets (h : s.Closes) (hs : s.step colls = some s')
    (hf : PutsFirst s'.world.calls) : Meets s := by
  intro c left cmd rest hp hr
  obtain ⟨fs, hc⟩ := h
  rw [hp] at hc
  rcases UpState.step_calls hs with ⟨ok, hp', -⟩ | ⟨-, ⟨isfixups, c', left', hp', hc'⟩ | ⟨hn, -⟩⟩
  · cases hp.symm.trans hp'
  · cases hp.symm.trans hp'
    obtain ⟨names, hn⟩ := puts_docollStep c.env c.coll s.count s.input s.world
    have hnames : names = [] := by
      rw [hc', hn, hc] at hf
      have hmem := putsFirst_closes.mp (by simpa [UpPhase.closed] using hf)
      cases names with
      | nil => rfl
      | cons name names => exact absurd List.mem_cons_self (hmem ⟨c.coll, name⟩)
    rw [hnames, List.map_nil, List.append_nil] at hn
    exact (keeps_docollStep c.env c.coll s.count s.input s.world).mp hn cmd rest hr
  · exact absurd hp (hn true c left)

theorem UpRun.closes {input : List Byte} {world : W} (h : UpRun Meets colls input world s) :
    s.Closes := by
  induction h with
  | init => exact ⟨[], rfl⟩
  | next _ hm hs ih => exact ih.step hm hs

/-- In a run whose commands of the second batch all fit, nothing is put behind the close
and the assertion of `fixups_put` holds; and it goes on so just when the next one fits. -/
theorem putsFirst_iff {input : List Byte} {world : W} (h : UpRun Meets colls input world s) :
    PutsFirst s.world.calls ∧ (performs .new s.world.calls).isSome ∧
      ∀ s', s.step colls = some s' → (PutsFirst s'.world.calls ↔ Meets s) := by
  have hf := h.closes.putsFirst
  refine ⟨hf, (performs_iff _ _).mpr ⟨nofun, hf⟩, fun s' hs => ⟨h.closes.meets hs, fun hm => ?_⟩⟩
  exact (h.closes.step hm hs).putsFirst

/-! ## A file that is added in the second batch -/

/-- The checksum is that of an empty file. -/
def emptyEnv : Env (List Path) Unit Unit :=
  { listEnv with
    md5 := fun _ => bytes ['d', '4', '1', 'd', '8', 'c', 'd', '9', '8', 'f', '0', '0', 'b', '2', '0',
      '4', 'e', '9', '8', '0', '0', '9', '9', '8', 'e', 'c', 'f', '8', '4', '2', '7', 'e'] }

def listColl : BatchColl Unit (List Path) Unit Unit :=
  ⟨(), false, bytes ['c'], bytes ['r'], Prod.mk true, Prod.mk true, emptyEnv⟩

/-- Both batches; in the second an empty file is added, with the checksum `x`. -/
def addLate : List Byte :=
  bytes ['C', 'O', 'L', 'L', ' ', 'c', ' ', 'r', '\n', '.', '\n', '.', '\n',
    'C', 'O', 'L', 'L', ' ', 'c', ' ', 'r', '\n',
    'A', ' ', 'f', ',', 'v', ' ', '1', '#', '1', '1', '#', '1', '\n', '.', '\n', '5', ' ', 'x', '\n',
    '.', '\n', '.', '\n']

/-- Up to the command. -/
theorem exists_addLate : ∃ s, UpRun Meets [listColl] addLate [] s ∧
    s.phase = .docoll true listColl [] ∧ s.world.calls = [.close] ∧
    ∃ s', s.step [listColl] = some s' ∧ s'.world.calls = [.close, .put ⟨(), bytes ['f', ',', 'v']⟩] := by
  have h1 := (UpRun.init : UpRun Meets [listColl] addLate [] _).next (meets_of_closed rfl) rfl
  have h2 := h1.next (meets_of_closed rfl) rfl
  have h3 := h2.next (meets_of_closed rfl) rfl
  have h4 := h3.next (meets_of_closed rfl) rfl
  have h5 := h4.next (meets_of_batch rfl) rfl
  exact ⟨_, h5, rfl, rfl, _, rfl, rfl⟩

theorem UpRun.mono {ok ok' : UpState C W F D → Prop} {input : List Byte} {world : W}
    (hok : ∀ s, ok s → ok' s) (h : UpRun ok colls input world s) : UpRun ok' colls input world s := by
  induction h with
  | init => exact .init
  | next _ hs hstep ih => exact ih.next (hok _ hs) hstep

/-- `fixups_put` is called behind `fixups_close`, and its assertion fails. -/
theorem put_behind_close : ∃ s, UpRun (fun _ => True) [listColl] addLate [] s ∧
    ¬PutsFirst s.world.calls ∧ performs .new s.world.calls = none := by
  obtain ⟨s, hr, -, -, s', hs, hc⟩ := exists_addLate
  refine ⟨s', (hr.mono fun _ _ => trivial).next trivial hs, fun h => ?_, ?_⟩
  · exact h [] [.put ⟨(), bytes ['f', ',', 'v']⟩] hc ⟨(), bytes ['f', ',', 'v']⟩ List.mem_cons_self
  · rw [hc]
    rfl

theorem putsFirst_iff_addLate : ∃ s, UpRun Meets [listColl] addLate [] s ∧
    s.phase = .docoll true listColl [] ∧ PutsFirst s.world.calls ∧ ¬Meets s := by
  obtain ⟨s, hr, hp, -, s', hs, hc⟩ := exists_addLate
  obtain ⟨hf, -, hnext⟩ := putsFirst_iff hr
  refine ⟨s, hr, hp, hf, fun hm => ?_⟩
  have hlate := (hnext s' hs).mpr hm
  exact hlate [] [.put ⟨(), bytes ['f', ',', 'v']⟩] hc ⟨(), bytes ['f', ',', 'v']⟩ List.mem_cons_self

end Csup.Docoll
