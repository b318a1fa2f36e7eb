import Csup.Config.Options
import Csup.Proto.Exchange

/-!
# From the supfile to any number of sessions

The options of a collection come from the supfile and from the command line, and the servers of the
sessions have a say in some of them.

* `sessions_options`: what they are behind any number of exchanges.
-/

namespace Csup.Exchange

open Csup.Config Csup.Globtree
open Csup.Framework (lastValue)

variable {R : Type*} {m : Matchers R} {behind : Nat → Byte}

/-- A collection with these options, behind any number of exchanges. -/
structure Later (args : List CmdArg) (opts : List Opt) (e : Entry m) : Prop where
  compress : has e.coll.options CO_COMPRESS = true ↔
    Sets opts .compress ∨ lastValue compressArg args = some true
  delete : has e.coll.options CO_DELETE = true ↔ Sets opts .delete
  exactrcs : has e.coll.options CO_EXACTRCS = true ↔ Sets opts .delete
  userelsuffix : has e.coll.options CO_USERELSUFFIX = true ↔ Sets opts .useRelSuffix
  checkoutmode : has e.coll.options CO_CHECKOUTMODE = true ↔ Sets opts .date ∨ Sets opts .tag
  keepbadfiles : has e.coll.options CO_KEEPBADFILES = true ↔ .keepbadfiles ∈ args
  truststatusfile : has e.coll.options CO_TRUSTSTATUSFILE = true ↔ .truststatusfile ∈ args
  norsync : has e.coll.options CO_NORSYNC = true
  /-- The servers may clear this one. -/
  checkrcs : has e.coll.options CO_CHECKRCS = true → Sets opts .delete
  mode : has e.attrignore FA_MODE = false

/-- A flag that is not cleared. -/
theorem has_of_set {o o' mask flag : BitVec 32} (h : o &&& mask &&& ~~~o' = 0)
    (hflag : mask &&& flag = flag) (ho : o &&& flag = flag) : o' &&& flag = flag := by
  ext i hi
  have hm := congrArg (·[i]) hflag
  have hb := congrArg (·[i]) ho
  have hk := congrArg (·[i]) h
  simp at hm hb hk ⊢
  grind

/-- A flag of one bit. -/
theorem has_twoPow {o flag : BitVec 32} {k : Nat} (hne : flag ≠ 0)
    (hflag : flag = BitVec.twoPow 32 k) : has o flag = true ↔ o &&& flag = flag := by
  rw [has, bne_iff_ne, hflag, BitVec.and_twoPow, ← hflag]
  split
  · exact iff_of_true hne rfl
  · exact iff_of_false (fun h => h rfl) hne.symm

theorem Kept.later {args : List CmdArg} {opts : List Opt} {coll : Coll} {e : Entry m}
    (hflags : Flags args opts coll.options) (h : Kept (newEntry m behind coll) e) :
    Later args opts e := by
  have hown : ∀ flag, ownOptions &&& flag = flag →
      has e.coll.options flag = has coll.options flag := fun flag hf => has_own h.own flag hf
  exact
  { compress := (hown CO_COMPRESS (by decide)).symm ▸ hflags.compress
    delete := (hown CO_DELETE (by decide)).symm ▸ hflags.delete
    exactrcs := (hown CO_EXACTRCS (by decide)).symm ▸ hflags.exactrcs
    userelsuffix := (hown CO_USERELSUFFIX (by decide)).symm ▸ hflags.userelsuffix
    checkoutmode := (hown CO_CHECKOUTMODE (by decide)).symm ▸ hflags.checkoutmode
    keepbadfiles := (hown CO_KEEPBADFILES (by decide)).symm ▸ hflags.keepbadfiles
    truststatusfile := (hown CO_TRUSTSTATUSFILE (by decide)).symm ▸ hflags.truststatusfile
    norsync := by
      have hbit : ∀ o, has o CO_NORSYNC = true ↔ o &&& CO_NORSYNC = CO_NORSYNC := fun o =>
        has_twoPow (k := 12) (by decide) (by decide)
      rw [hbit]
      exact has_of_set h.set (by decide) ((hbit _).mp hflags.norsync)
    checkrcs := by
      intro hchk
      have hbit : ∀ o, has o CO_CHECKRCS = true ↔ o &&& CO_CHECKRCS = CO_CHECKRCS := fun o =>
        has_twoPow (k := 9) (by decide) (by decide)
      rw [← hflags.checkrcs, hbit]
      exact has_of_set h.cleared (by decide) ((hbit _).mp hchk)
    mode := by
      have hmode : has coll.options CO_SETMODE = true := hflags.setmode
      have hignored : ∀ b c : Bool, has (FA_DEV ||| FA_INODE |||
          ((if b then 0 else FA_OWNER ||| FA_GROUP) ||| 0 ||| (if c then 0 else FA_FLAGS)))
            FA_MODE = false := by decide
      rcases h.attrignore with hsame | hmore
      · have hnew : has (FA_DEV ||| FA_INODE) FA_MODE = false := by decide
        rw [hsame]
        exact hnew
      · have hall : ignored coll.options = (if has coll.options CO_SETOWNER then 0
            else FA_OWNER ||| FA_GROUP) ||| 0 |||
              (if has coll.options CO_SETFLAGS then 0 else FA_FLAGS) := by
          rw [ignored, if_pos hmode]
        rw [hmore]
        show has (FA_DEV ||| FA_INODE ||| ignored coll.options) FA_MODE = false
        rw [hall]
        exact hignored _ _ }

end Csup.Exchange
