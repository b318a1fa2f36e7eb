import Csup.Updater.Sync

/-!
# Moving a file to or from the attic

An RCS file that moves is edited from its old path (`origpath`) to its new one
(`destpath`), and the old path is removed at the end.

* `rcsedit_keeps_iff`: exactly when the old content, or content with the announced
  checksum, is still at one of the two paths;
* `not_keeps`: it is at none after a block without commands.
-/

namespace Csup.Updater

variable {F D : Type} {api : RcsApi F D} {md5 : List Byte → List Byte} {sys : Sys} {coll : Coll}
  {fup : FileUpdate} {fs fs' : Files} {out : Out} {p o : Path} {old : List Byte}

/-! ## What each function leaves where -/

theorem fattrDelete_self : fattrDelete sys p fs p = if sys.delete p then none else fs p := by
  unfold fattrDelete
  split <;> simp

theorem fattrDelete_of_ne {q : Path} (h : p ≠ q) : fattrDelete sys q fs p = fs p := by
  unfold fattrDelete
  split
  · exact Function.update_of_ne h ..
  · rfl

theorem needfixup_of_ne (h : p ≠ fup.temppath) : (needfixup sys coll fup fs).1 p = fs p := by
  unfold needfixup
  dsimp only
  split
  · rfl
  · exact fattrDelete_of_ne h

theorem finish_origpath (ho : fup.origpath = some o) :
    finish sys fup fs o = if sys.delete o then none else fs o := by
  unfold finish
  rw [ho]
  exact fattrDelete_self

theorem finish_of_ne (ho : fup.origpath = some o) (h : p ≠ o) : finish sys fup fs p = fs p := by
  unfold finish
  rw [ho]
  exact fattrDelete_of_ne h

/-- Changing attributes in place changes nothing else, unless a file is to be a
link: then the content is gone. -/
theorem fattrInstallInplace_cases (sys : Sys) (fa : Fattr) (q : Path) (fs : Files) :
    fattrInstallInplace sys fa q fs = fs ∧
        ((∀ c, fs q ≠ some (.file c)) ∨ fa.type ≠ .symlink ∨ sys.delete q = false) ∨
      ∃ x, (∀ c, x ≠ some (.file c)) ∧ fattrInstallInplace sys fa q fs = Function.update fs q x ∧
        fa.type = .symlink ∧ sys.delete q = true := by
  unfold fattrInstallInplace
  cases hx : fs q with
  | none => exact .inl ⟨rfl, .inl (by simp)⟩
  | some i =>
    cases i with
    | symlink t => exact .inl ⟨rfl, .inl (by simp)⟩
    | directory => exact .inl ⟨rfl, .inl (by simp)⟩
    | file c =>
      dsimp only
      by_cases hlink : fa.type = .symlink ∧ sys.delete q = true
      · rw [if_pos hlink]
        refine .inr ?_
        cases fa.linktarget with
        | none => exact ⟨none, by simp, rfl, hlink⟩
        | some target =>
          dsimp only
          split
          · exact ⟨some (.symlink target), by simp, rfl, hlink⟩
          · exact ⟨none, by simp, rfl, hlink⟩
      · rw [if_neg hlink]
        refine .inl ⟨rfl, .inr ?_⟩
        by_cases ht : fa.type = .symlink
        · exact .inr (by simpa [ht] using hlink)
        · exact .inl ht

theorem fattrInstallInplace_of_ne {fa : Fattr} {q : Path} (h : p ≠ q) :
    fattrInstallInplace sys fa q fs p = fs p := by
  rcases fattrInstallInplace_cases sys fa q fs with ⟨heq, -⟩ | ⟨x, -, heq, -⟩
  · rw [heq]
  · rw [heq, Function.update_of_ne h]

theorem fattrInstall_ok {fa : Fattr} {dest temp : Path}
    (h : fattrInstall sys fa dest temp fs = some fs') :
    fs' dest = fs temp ∧ ∀ p, p ≠ temp → p ≠ dest → fs' p = fs p := by
  unfold fattrInstall at h
  split at h
  · cases h
  · split at h
    · obtain rfl := Option.some.inj h
      refine ⟨Function.update_self .., fun p ht hd => ?_⟩
      rw [Function.update_of_ne hd, Function.update_of_ne ht]
    · cases h

/-- `updater_updatefile` puts the temporary file into place when its checksum is
the announced one, and else leaves everything but it alone. -/
theorem updatefile_ok {fa : Fattr} {sum : List Byte} {r : Files × Bool}
    (h : updatefile sys coll fup fa sum fs = .ok r) :
    (∀ p, p ≠ fup.temppath → p ≠ fup.destpath → r.1 p = fs p) ∧
      r.1 fup.destpath = if fup.wantmd5 = sum then fs fup.temppath else fs fup.destpath := by
  unfold updatefile at h
  split at h
  · rename_i hne
    obtain rfl := Except.ok.inj h
    rw [if_neg hne]
    exact ⟨fun p ht _ => needfixup_of_ne ht, needfixup_of_ne fup.temp_ne.1.symm⟩
  · rename_i heq
    split at h
    · cases h
    · rename_i fs' hfs
      split at h
      · cases h
      · obtain rfl := Except.ok.inj h
        obtain ⟨hd, hp⟩ := fattrInstall_ok hfs
        rw [if_pos (not_not.mp heq)]
        exact ⟨hp, hd⟩

/-- What is at the two paths after an edit. -/
theorem install_ok {fa : Fattr} {f : F} {fixup : Bool} (ho : fup.origpath = some o)
    (h : install api md5 sys coll fup fa f fs = .ok (fs', fixup)) :
    ∃ c, api.write f = .ok c ∧ fs' o = (if sys.delete o then none else fs o) ∧
      fs' fup.destpath = if fup.wantmd5 = md5 c then some (.file c) else fs fup.destpath := by
  have hod : o ≠ fup.destpath := fup.orig_ne o ho
  have hto : o ≠ fup.temppath := (fup.temp_ne.2 o ho).symm
  unfold install at h
  split at h
  · cases h
  · cases hw : api.write f with
    | error e =>
      rw [hw] at h
      cases e <;> cases h
    | ok c =>
      rw [hw] at h
      simp only [orErr, bind, Except.bind] at h
      split at h
      · cases h
      · split at h
        · cases h
        · rename_i r' hr
          obtain ⟨hp, hd⟩ := updatefile_ok hr
          obtain ⟨rfl, -⟩ := Prod.mk.inj (Except.ok.inj h)
          refine ⟨c, rfl, ?_, ?_⟩
          · rw [finish_origpath ho, hp o hto hod, Function.update_of_ne hto]
          · rw [finish_of_ne ho hod.symm, hd, Function.update_self,
              Function.update_of_ne fup.temp_ne.1.symm]

/-- What is at the two paths when no command was sent. -/
theorem touch_ok {fa : Fattr} (ho : fup.origpath = some o)
    (h : touch sys fup fa fs = .ok fs') :
    fs' o = (if sys.delete o then none else fs o) ∧
      fs' fup.destpath = fattrInstallInplace sys fa fup.destpath fs fup.destpath := by
  have hod : o ≠ fup.destpath := fup.orig_ne o ho
  unfold touch at h
  dsimp only at h
  split at h
  · cases h
  · obtain rfl := Except.ok.inj h
    rw [finish_origpath ho, finish_of_ne ho hod.symm, fattrInstallInplace_of_ne hod]
    exact ⟨rfl, rfl⟩

/-! ## What is kept -/

/-- The old content, or content with the announced checksum. -/
def Holds (md5 : List Byte → List Byte) (wantmd5 old : List Byte) (x : Option Inode) : Prop :=
  ∃ c, x = some (.file c) ∧ (c = old ∨ md5 c = wantmd5)

/-- One of the two paths holds such content. -/
def Kept (md5 : List Byte → List Byte) (fup : FileUpdate) (o : Path) (old : List Byte)
    (fs : Files) : Prop :=
  Holds md5 fup.wantmd5 old (fs fup.destpath) ∨ Holds md5 fup.wantmd5 old (fs o)

/-- The block makes a file with the announced checksum of the local one. -/
def Delivers (api : RcsApi F D) (md5 : List Byte → List Byte) (fup : FileUpdate) (f : F)
    (cmds : List BlockCmd) : Prop :=
  ∃ f' c, applyCmds api f cmds = .ok f' ∧ api.write f' = .ok c ∧ md5 c = fup.wantmd5

/-- Before the edit: the removal of the old path is going to fail; or there are
commands, and either the file is invalid or they make the file that was
announced; or the new path holds such content already, and no link is made of
it. -/
def Keeps (api : RcsApi F D) (md5 : List Byte → List Byte) (sys : Sys) (fup : FileUpdate)
    (fs : Files) (o : Path) (old : List Byte) (cmds : List BlockCmd) : Prop :=
  sys.delete o = false ∨
    (cmds ≠ [] ∧ ∀ f, api.frompath fs o = some f → Delivers api md5 fup f cmds) ∨
    Holds md5 fup.wantmd5 old (fs fup.destpath) ∧
      (cmds ≠ [] ∨ fup.serverattr.type ≠ .symlink ∨ sys.delete fup.destpath = false)

theorem not_holds_none {want : List Byte} : ¬Holds md5 want old none := by
  rintro ⟨c, hc, -⟩
  cases hc

theorem holds_old {want : List Byte} : Holds md5 want old (some (.file old)) :=
  ⟨old, rfl, .inl rfl⟩

/-- The old path after its removal. -/
theorem holds_removed {want : List Byte} (hold : fs o = some (.file old)) :
    Holds md5 want old (if sys.delete o then none else fs o) ↔ sys.delete o = false := by
  cases hdel : sys.delete o with
  | true => simpa using not_holds_none
  | false => simpa [hold] using holds_old

/-- The new path after its attributes were changed in place. -/
theorem holds_fattrInstallInplace {fa : Fattr} {want : List Byte} :
    Holds md5 want old (fattrInstallInplace sys fa p fs p) ↔
      Holds md5 want old (fs p) ∧ (fa.type ≠ .symlink ∨ sys.delete p = false) := by
  rcases fattrInstallInplace_cases sys fa p fs with ⟨heq, hcond⟩ | ⟨x, hx, heq, ht, hd⟩
  · rw [heq]
    refine ⟨fun h => ⟨h, ?_⟩, And.left⟩
    obtain ⟨c, hc, -⟩ := h
    exact hcond.resolve_left fun hfile => hfile c hc
  · rw [heq, Function.update_self]
    constructor
    · rintro ⟨c, hc, -⟩
      exact absurd hc (hx c)
    · rintro ⟨-, hcond⟩
      simp [ht, hd] at hcond

/-- When a moved file is still there. -/
theorem rcsedit_keeps_iff {cmds : List BlockCmd} {rest : List Diff.Line}
    (ho : fup.origpath = some o) (hold : fs o = some (.file old))
    (h : rcsedit api md5 sys coll fup fs (block cmds ++ rest) = .ok out) :
    Kept md5 fup o old out.files ↔ Keeps api md5 sys fup fs o old cmds := by
  obtain ⟨oldattr, e, -, he, -, hfiles⟩ := rcsedit_cases h
  have hpath : fup.path = o := by rw [FileUpdate.path, ho]; rfl
  rw [hpath] at he
  unfold Kept Keeps
  cases cmds with
  | nil =>
    have hdone : e = .done none rest := by
      simpa [block, editLoop_dotLine] using he.symm
    rw [hdone] at hfiles
    obtain ⟨horig, hdest⟩ := touch_ok ho hfiles
    rw [horig, hdest, holds_removed hold, holds_fattrInstallInplace]
    simp [Fattr.merge, or_comm]
  | cons c cmds =>
    cases hopen : api.frompath fs o with
    | none =>
      obtain ⟨r, -, hloop⟩ := editLoop_invalid api coll.exactrcs c cmds rest
      rw [hopen, hloop] at he
      split at he
      · cases he
      · obtain rfl := Except.ok.inj he
        -- the old path is not removed
        have horig : out.files o = some (.file old) := by
          rw [hfiles, needfixup_of_ne (fup.temp_ne.2 o ho).symm, hold]
        rw [horig]
        simp [holds_old]
    | some f =>
      rw [hopen, editLoop_open] at he
      cases hap : applyCmds api f (c :: cmds) with
      | error err => rw [hap] at he; cases he
      | ok f' =>
        rw [hap] at he
        obtain rfl := Except.ok.inj he
        obtain ⟨content, hwrite, horig, hdest⟩ := install_ok ho hfiles
        have hdel : Delivers api md5 fup f (c :: cmds) ↔ md5 content = fup.wantmd5 := by
          simp [Delivers, hap, hwrite]
        rw [horig, hdest, holds_removed hold]
        by_cases hsum : fup.wantmd5 = md5 content
        · rw [if_pos hsum]
          have : Holds md5 fup.wantmd5 old (some (.file content)) := ⟨content, rfl, .inr hsum.symm⟩
          simp [this, hdel, hsum.symm]
        · rw [if_neg hsum]
          have hne : ¬md5 content = fup.wantmd5 := fun h => hsum h.symm
          simp [hdel, hne, or_comm]

/-! ## A file that goes to the attic -/

/-- The update that moves `p/f` to `p/Attic/f`. -/
def toAttic : FileUpdate :=
  .ofName (fun p => p = bytes ['p', '/', 'f']) (bytes ['p']) (bytes ['f']) true
    (bytes ['p', '/', 'A', 't', 't', 'i', 'c', '/', '#']) (bytes ['5']) ⟨.file, none⟩ (by decide)

/-- The file is invalid. -/
theorem rcsedit_keeps_iff_untag :
    ∃ out, rcsedit rejecting id Sys.allOk ⟨true, false⟩ toAttic garbage
        (block [.untag field11 field11] ++ [dotLine]) = .ok out ∧
      (Kept id toAttic (bytes ['p', '/', 'f']) (bytes ['x']) out.files ↔
        Keeps rejecting id Sys.allOk toAttic garbage (bytes ['p', '/', 'f']) (bytes ['x'])
          [.untag field11 field11]) := by
  have h : rcsedit rejecting id Sys.allOk ⟨true, false⟩ toAttic garbage
      (block [.untag field11 field11] ++ [dotLine]) =
        .ok ⟨(needfixup Sys.allOk ⟨true, false⟩ toAttic garbage).1, [dotLine], true⟩ := rfl
  exact ⟨_, h, rcsedit_keeps_iff rfl rfl h⟩

/-- After a block without commands the file is at neither path. -/
theorem not_keeps :
    ∃ out, rcsedit rejecting id Sys.allOk ⟨true, false⟩ toAttic garbage
        (block [] ++ [dotLine]) = .ok out ∧
      toAttic.destpath = bytes ['p', '/', 'A', 't', 't', 'i', 'c', '/', 'f'] ∧
      toAttic.origpath = some (bytes ['p', '/', 'f']) ∧
      garbage (bytes ['p', '/', 'f']) = some (.file (bytes ['x'])) ∧
      ¬Kept id toAttic (bytes ['p', '/', 'f']) (bytes ['x']) out.files := by
  refine ⟨_, rfl, rfl, rfl, rfl, ?_⟩
  rintro (h | h)
  · exact not_holds_none h
  · exact not_holds_none h

end Csup.Updater
