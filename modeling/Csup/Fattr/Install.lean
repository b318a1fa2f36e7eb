import Csup.Fattr.Equal
import Csup.Fattr.Stat
import Csup.Framework.Post

/-!
# Installing a file: `fattr_install`

`fattr_install` over the system calls that it makes (`Sys`), and what it leaves of the mode: a
file that is installed has the permission bits that were asked for (`install_mode`). Its set-id
bits may be those of the file it replaces.
-/

namespace Csup.Attrs

open Csup.Framework (Done Work)
open Csup.Framework.Work (Post post_bind post_bind_of post_pure post_ask post_tell post_fail)

/-- The system calls on a world `W`. A Boolean says that the call succeeded; whether the flags can
be changed is not asked. -/
structure Sys (W : Type) where
  lstat : List Byte → W → Option Stat
  readlink : List Byte → W → Option (List Byte)
  utimes : List Byte → BitVec 64 → W → Bool × W
  chown : List Byte → Option (BitVec 32) → Option (BitVec 32) → W → Bool × W
  chmod : List Byte → BitVec 32 → W → Bool × W
  chflags : List Byte → BitVec 32 → W → W
  rename : List Byte → List Byte → W → Bool × W
  unlink : List Byte → W → Bool × W
  rmdir : List Byte → W → Bool × W
  symlink : List Byte → List Byte → W → Bool × W

variable {W : Type} (fflags : Bool) (sys : Sys W)

/-- `fattr_frompath` with `FATTR_NOFOLLOW` -/
def Sys.frompath (path : List Byte) (w : W) : Option Fattr :=
  fattrFrompath fflags (sys.lstat path w) (sys.readlink path w)

/-- What the system is relied on for. The mode of a symbolic link cannot be changed. -/
structure Sys.Lawful : Prop where
  chmod : ∀ {path mode w w' sb}, sys.chmod path mode w = (true, w') →
    sys.lstat path w' = some sb → sb.type ≠ .symlink → sb.mode &&& 0o777 = mode &&& 0o777
  rename : ∀ {source target w w' sb}, sys.rename source target w = (true, w') →
    sys.lstat target w' = some sb →
      ∃ sb', sys.lstat source w = some sb' ∧ sb'.type = sb.type ∧ sb'.mode = sb.mode
  chflags : ∀ {path path' flags w sb}, sys.lstat path (sys.chflags path' flags w) = some sb →
    ∃ sb', sys.lstat path w = some sb' ∧ sb'.type = sb.type ∧ sb'.mode = sb.mode

/-! ## `fattr_install` -/

/-- What does not read and logs nothing; an error is `goto bad`. -/
abbrev Calls (W α : Type) := Work Unit W Empty α

def call (f : W → Bool × W) : Calls W Unit := do
  let ok ← Work.tell f
  if ok then return () else Work.fail ()

def chflagsCall (path : List Byte) (flags : BitVec 32) : Calls W Unit :=
  Work.tell fun w => ((), sys.chflags path flags w)

/-- What is done to the target `old` before the file is changed. -/
def clearTarget (fa old : Fattr) (topath : List Byte) (inplace : Bool) : Calls W Unit := do
  if fflags && has old.mask .flags && old.flags ≠ 0 then chflagsCall sys topath 0
  if inplace && fa.type = .symlink && old.type = .file then
    call (sys.unlink topath)
    call (sys.symlink fa.linktarget topath)
  if !inplace && decide ((fa.type = .directory) ≠ (old.type = .directory)) then
    if old.type = .directory then call (sys.rmdir topath) else call (sys.unlink topath)

def setModtime (mask : Mask) (fa : Fattr) (path : List Byte) : Calls W Unit :=
  if has mask .modtime then call (sys.utimes path fa.modtime) else return ()

def setOwner (mask : Mask) (fa : Fattr) (path : List Byte) : Calls W Unit :=
  if has mask .owner || has mask .group then
    call (sys.chown path (if has mask .owner then some fa.uid else none)
      (if has mask .group then some fa.gid else none))
  else return ()

/-- The mode that is set: set-id bits that may not be are merged in from the old attributes. -/
def newmode (mask : Mask) (fa : Fattr) (old : Option Fattr) : BitVec 32 :=
  let newmode := fa.mode &&& modemask mask
  match old with
  | some old =>
    if has old.mask .mode then (newmode ||| (old.mode &&& ~~~modemask mask)) &&& 0o7777 else newmode
  | none => newmode

def setMode (mask : Mask) (fa : Fattr) (old : Option Fattr) (path : List Byte) : Calls W Unit :=
  if has mask .mode then call (sys.chmod path (newmode mask fa old)) else return ()

/-- From where the mode is set on. -/
def finish (mask : Mask) (fa : Fattr) (old : Option Fattr) (topath : List Byte)
    (source : Option (List Byte)) : Calls W Unit := do
  setMode sys mask fa old (source.getD topath)
  match source with
  | some source => call (sys.rename source topath)
  | none => pure ()
  if fflags && has mask .flags then chflagsCall sys topath fa.flags

/-- From behind the look at the target. -/
def installOver (fa : Fattr) (old : Option Fattr) (topath : List Byte)
    (source : Option (List Byte)) : Calls W Unit := do
  let mask := fa.mask &&& fattrSupported fflags fa.type
  match old with
  | some old => clearTarget fflags sys fa old topath source.isNone
  | none => pure ()
  setModtime sys mask fa (source.getD topath)
  setOwner sys mask fa (source.getD topath)
  finish fflags sys mask fa old topath source

/-- `fattr_install`, which returns 0 or 1; without a `source` the attributes are changed in
place. -/
def fattrInstall (fa : Fattr) (topath : List Byte) (source : Option (List Byte)) :
    Calls W Bool := do
  let old ← Work.ask (sys.frompath fflags topath)
  if source.isNone && old.any (fattrEqual fa) then return false
  else
    installOver fflags sys fa old topath source
    return true

/-! ## The mode -/

variable {fflags sys}

theorem newmode_perm (mask : Mask) (fa : Fattr) (old : Option Fattr) :
    newmode mask fa old &&& 0o777 = fa.mode &&& 0o777 := by
  have hperm : modemask mask &&& 0o777 = 0o777 ∧ ~~~modemask mask &&& 0o777 = 0 := by
    unfold modemask
    split <;> exact ⟨by decide, by decide⟩
  have hmode : fa.mode &&& modemask mask &&& 0o777 = fa.mode &&& 0o777 := by
    rw [BitVec.and_assoc, hperm.1]
  unfold newmode
  cases old with
  | none => exact hmode
  | some old =>
    dsimp only
    split
    · have hall : (0o7777 : BitVec 32) &&& 0o777 = 0o777 := by decide
      have hold : old.mode &&& ~~~modemask mask &&& 0o777 = 0 := by
        rw [BitVec.and_assoc, hperm.2]
        exact BitVec.and_zero
      rw [BitVec.and_assoc, hall, BitVec.and_or_distrib_right, hmode, hold]
      exact BitVec.or_zero
    · exact hmode

/-- The file at `path` has the permission bits of `fa`, where it has one. -/
def Permits (sys : Sys W) (fa : Fattr) (path : List Byte) (w : W) : Prop :=
  ∀ sb, sys.lstat path w = some sb → sb.type ≠ .symlink → sb.mode &&& 0o777 = fa.mode &&& 0o777

theorem post_call {f : W → Bool × W} {Q : Unit → W → List Empty → Prop} {w : W} :
    Post Q (call f) w ↔ ((f w).1 = true → Q () (f w).2 []) := by
  unfold call
  rw [post_bind, post_tell]
  cases (f w).1 <;> simp

theorem Permits.chflags (hl : sys.Lawful) {fa : Fattr} {path : List Byte} {w : W}
    (h : Permits sys fa path w) (path' : List Byte) (flags : BitVec 32) :
    Permits sys fa path (sys.chflags path' flags w) := by
  intro sb hsb htype
  obtain ⟨sb', hsb', ht, hm⟩ := hl.chflags hsb
  rw [← hm]
  exact h sb' hsb' (ht ▸ htype)

theorem Permits.rename (hl : sys.Lawful) {fa : Fattr} {source target : List Byte} {w : W}
    (h : Permits sys fa source w) (hr : (sys.rename source target w).1 = true) :
    Permits sys fa target (sys.rename source target w).2 := by
  intro sb hsb htype
  obtain ⟨sb', hsb', ht, hm⟩ := hl.rename (Prod.ext hr rfl) hsb
  rw [← hm]
  exact h sb' hsb' (ht ▸ htype)

theorem post_setMode (hl : sys.Lawful) {mask : Mask} {fa : Fattr} (hmode : has mask .mode = true)
    (old : Option Fattr) (path : List Byte) (w : W) :
    Post (fun _ w' _ => Permits sys fa path w') (setMode sys mask fa old path) w := by
  rw [setMode, if_pos hmode, post_call]
  intro hc sb hsb htype
  rw [← newmode_perm mask fa old]
  exact hl.chmod (Prod.ext hc rfl) hsb htype

theorem post_finish (hl : sys.Lawful) {mask : Mask} {fa : Fattr} (hmode : has mask .mode = true)
    (old : Option Fattr) (topath : List Byte) (source : Option (List Byte)) (w : W) :
    Post (fun _ w' _ => Permits sys fa topath w') (finish fflags sys mask fa old topath source)
      w := by
  have hflags : ∀ w, Permits sys fa topath w →
      Post (fun _ w' _ => Permits sys fa topath w')
        (if fflags && has mask .flags then chflagsCall sys topath fa.flags else pure ()) w := by
    intro w h
    split
    · rw [chflagsCall, post_tell]
      exact h.chflags hl _ _
    · exact post_pure.mpr h
  rw [finish, post_bind]
  refine (post_setMode hl hmode old _ w).mono fun _ w' _ h => ?_
  cases source with
  | none => exact hflags w' h
  | some source =>
    rw [post_bind, post_call]
    exact fun hr => hflags _ (h.rename hl hr)

/-- A file that is installed has the permission bits that were asked for. -/
theorem install_mode (hl : sys.Lawful) {fa : Fattr} (hfile : fa.type = .file)
    (hmode : has fa.mask .mode = true) (topath : List Byte) (source : Option (List Byte)) (w : W) :
    Post (fun changed w' _ => changed = true → Permits sys fa topath w')
      (fattrInstall fflags sys fa topath source) w := by
  have hmask : has (fa.mask &&& fattrSupported fflags fa.type) .mode = true := by
    rw [has_and, hmode, hfile]
    cases fflags <;> decide
  have hover (old : Option Fattr) : Post (fun _ w' _ => Permits sys fa topath w')
      (installOver fflags sys fa old topath source) w := by
    have hrest (w : W) : Post (fun _ w' _ => Permits sys fa topath w') (do
        setModtime sys (fa.mask &&& fattrSupported fflags fa.type) fa (source.getD topath)
        setOwner sys (fa.mask &&& fattrSupported fflags fa.type) fa (source.getD topath)
        finish fflags sys (fa.mask &&& fattrSupported fflags fa.type) fa old topath source) w :=
      post_bind_of fun _ _ _ => post_bind_of fun _ _ _ => post_finish hl hmask old topath source _
    cases old with
    | none => exact hrest w
    | some old => exact post_bind_of fun _ w' _ => hrest w'
  rw [fattrInstall, post_bind, post_ask]
  split
  · exact post_pure.mpr nofun
  · rw [post_bind]
    exact (hover _).mono fun _ w' _ h => post_pure.mpr fun _ => h

/-- Attributes that are changed in place are left alone where they are those of the file. -/
theorem install_unchanged (fa : Fattr) (topath : List Byte) (source : Option (List Byte)) (w : W) :
    Post (fun changed w' _ => changed = false → w' = w ∧ source = none ∧
        ∃ old, sys.frompath fflags topath w = some old ∧ fattrEqual fa old = true)
      (fattrInstall fflags sys fa topath source) w := by
  rw [fattrInstall, post_bind, post_ask]
  split
  · rename_i h
    rw [Bool.and_eq_true, Option.any_eq_true] at h
    exact post_pure.mpr fun _ => ⟨rfl, Option.isNone_iff_eq_none.mp h.1, h.2⟩
  · rw [post_bind]
    exact fun _ _ => post_pure.mpr nofun

end Csup.Attrs
