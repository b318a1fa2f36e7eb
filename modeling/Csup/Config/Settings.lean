import Csup.Config.Grammar
import Csup.Framework.Settings

/-!
# What a supfile says

A collection has the options of its own line and those of the `*default` lines in front of it: of two
values the later one counts, and what is given on the command line counts before both (`collOf`).

* `setopts_set`, `setopts_iff`: the options of some lines;
* `runLines_colls`, `runLines_iff`: the collections of a supfile, and when it is accepted.
-/

namespace Csup.Config

open Csup.Framework (lastValue foldlM_keeps foldlM_last foldlM_gathered foldlM_ok_iff)

/-! ## Options -/

/-- The value an option gives a setting. -/
def valueOf (i : Pt) (o : Opt) : Option (List Byte) := if o.1 = i then some o.2 else none

/-- The last value of a setting. -/
def lastOf (i : Pt) (opts : List Opt) : Option (List Byte) := lastValue (valueOf i) opts

def umaskOf (o : Opt) : Option (BitVec 32) :=
  if o.1 = .umask then (asciitoint 8 o.2).map (BitVec.ofInt 32) else none

def Pt.flag : Pt → BitVec 32
  | .date => CO_CHECKOUTMODE
  | .tag => CO_CHECKOUTMODE
  | .useRelSuffix => CO_USERELSUFFIX
  | .delete => CO_DELETE ||| CO_EXACTRCS
  | .compress => CO_COMPRESS
  | .norsync => CO_NORSYNC
  | _ => 0

def flagsOf (opts : List Opt) : BitVec 32 := (opts.map (·.1.flag)).foldr (· ||| ·) 0

/-- A list suffix has no slash, and a umask is a number. -/
def Opt.Valid (o : Opt) : Prop :=
  (o.1 = .list → 47 ∉ o.2) ∧ (o.1 = .umask → (asciitoint 8 o.2).isSome)

instance (o : Opt) : Decidable o.Valid := inferInstanceAs (Decidable (_ ∧ _))

theorem collSetopt_iff (coll : Coll) (o : Opt) :
    (∃ coll', collSetopt coll o.1 o.2 = .ok coll') ↔ Opt.Valid o := by
  obtain ⟨i, v⟩ := o
  cases i with
  | list =>
    by_cases h : 47 ∈ v <;> simp [collSetopt, Opt.Valid, h]
  | umask =>
    cases h : asciitoint 8 v <;> simp [collSetopt, Opt.Valid, h]
  | _ => simp [collSetopt, Opt.Valid]

/-- What the options of some lines make of a collection. -/
structure SetBy (coll : Coll) (opts : List Opt) (coll' : Coll) : Prop where
  name : coll'.name = coll.name
  host : coll'.host = (lastOf .host opts).or coll.host
  base : coll'.base = (lastOf .base opts).or coll.base
  date : coll'.date = (lastOf .date opts).or coll.date
  pre : coll'.pre = (lastOf .pre opts).or coll.pre
  release : coll'.release = (lastOf .release opts).or coll.release
  tag : coll'.tag = (lastOf .tag opts).or coll.tag
  listsuffix : coll'.listsuffix = (lastOf .list opts).or coll.listsuffix
  colldir : coll'.colldir = coll.colldir
  accepts : coll'.accepts = coll.accepts
  refusals : coll'.refusals = coll.refusals
  options : coll'.options = coll.options ||| flagsOf opts
  umask : some coll'.umask = (lastValue umaskOf opts).or (some coll.umask)

theorem collSetopt_set {coll coll' : Coll} {o : Opt} (h : collSetopt coll o.1 o.2 = .ok coll') :
    SetBy coll [o] coll' := by
  obtain ⟨i, v⟩ := o
  cases i with
  | list =>
    simp only [collSetopt] at h
    split at h
    · cases h
    · obtain rfl := Except.ok.inj h
      constructor <;> simp [lastOf, lastValue, valueOf, umaskOf, Pt.flag, flagsOf]
  | umask =>
    simp only [collSetopt] at h
    split at h
    · cases h
    · rename_i mask hm
      obtain rfl := Except.ok.inj h
      constructor <;> simp [lastOf, lastValue, valueOf, umaskOf, Pt.flag, flagsOf, hm]
  | _ =>
    obtain rfl := Except.ok.inj h
    constructor <;> simp [lastOf, lastValue, valueOf, umaskOf, Pt.flag, flagsOf]

theorem setopts_set {coll coll' : Coll} {opts : List Opt} (h : setopts coll opts = .ok coll') :
    SetBy coll opts coll' where
  name := foldlM_keeps (P := fun c => c.name = coll.name)
    (fun _ _ _ hs hc => (collSetopt_set hs).name.trans hc) h rfl
  host := foldlM_last (fun _ _ _ hs => by simpa [lastOf, lastValue] using (collSetopt_set hs).host) h
  base := foldlM_last (fun _ _ _ hs => by simpa [lastOf, lastValue] using (collSetopt_set hs).base) h
  date := foldlM_last (fun _ _ _ hs => by simpa [lastOf, lastValue] using (collSetopt_set hs).date) h
  pre := foldlM_last (fun _ _ _ hs => by simpa [lastOf, lastValue] using (collSetopt_set hs).pre) h
  release := foldlM_last
    (fun _ _ _ hs => by simpa [lastOf, lastValue] using (collSetopt_set hs).release) h
  tag := foldlM_last (fun _ _ _ hs => by simpa [lastOf, lastValue] using (collSetopt_set hs).tag) h
  listsuffix := foldlM_last
    (fun _ _ _ hs => by simpa [lastOf, lastValue] using (collSetopt_set hs).listsuffix) h
  colldir := foldlM_keeps (P := fun c => c.colldir = coll.colldir)
    (fun _ _ _ hs hc => (collSetopt_set hs).colldir.trans hc) h rfl
  accepts := foldlM_keeps (P := fun c => c.accepts = coll.accepts)
    (fun _ _ _ hs hc => (collSetopt_set hs).accepts.trans hc) h rfl
  refusals := foldlM_keeps (P := fun c => c.refusals = coll.refusals)
    (fun _ _ _ hs hc => (collSetopt_set hs).refusals.trans hc) h rfl
  options := foldlM_gathered BitVec.or_assoc (fun _ => BitVec.or_zero)
    (fun _ _ _ hs => by simpa [flagsOf] using (collSetopt_set hs).options) h
  umask := @foldlM_last _ _ _ _ _ _ _ _ (fun c : Coll => some c.umask) umaskOf
    (fun _ _ _ hs => by simpa [lastValue] using (collSetopt_set hs).umask) h

theorem setopts_iff (coll : Coll) (opts : List Opt) :
    (∃ coll', setopts coll opts = .ok coll') ↔ ∀ o ∈ opts, Opt.Valid o :=
  foldlM_ok_iff collSetopt_iff

/-! ## Lines -/

/-- The options of the collections of some lines, behind the defaults so far. -/
def collsOf : List Opt → List Stmt → List (List Byte × List Opt)
  | _, [] => []
  | ds, ⟨.default, opts⟩ :: lines => collsOf (ds ++ opts) lines
  | ds, ⟨.coll name, opts⟩ :: lines => (name, ds ++ opts) :: collsOf ds lines

section

variable (umask : BitVec 32) (ovcoll : Coll) (ovmask : BitVec 32)

/-- The values in front of all options. -/
def blankColl : Coll := { collNew none with umask }

/-- The host of a collection. -/
def hostOf (p : List Byte × List Opt) : Option (List Byte) := ovcoll.host.or (lastOf .host p.2)

def releaseOf (p : List Byte × List Opt) : Option (List Byte) :=
  ovcoll.release.or (lastOf .release p.2)

/-- What becomes of a collection with these options. -/
def collOf (p : List Byte × List Opt) : Coll :=
  let checkout := has (ovcoll.options &&& ovmask) CO_CHECKOUTMODE
  { name := some p.1
    host := hostOf ovcoll p
    base := ovcoll.base.or (lastOf .base p.2)
    date := (if checkout then ovcoll.date else none).or ((lastOf .date p.2).or (some [46]))
    pre := ovcoll.pre.or (lastOf .pre p.2)
    release := releaseOf ovcoll p
    tag := (if checkout then ovcoll.tag else none).or ((lastOf .tag p.2).or (some [46]))
    colldir := ovcoll.colldir
    listsuffix := ovcoll.listsuffix.or (lastOf .list p.2)
    accepts := ovcoll.accepts
    refusals := ovcoll.refusals
    options := (flagsOf p.2 &&& (CO_MASK &&& ~~~ovmask)) ||| (ovcoll.options &&& ovmask)
    umask := (lastValue umaskOf p.2).getD umask }

variable {umask ovcoll ovmask} {ds opts : List Opt} {d coll : Coll} {name : List Byte}

theorem setopts_append (hd : setopts (blankColl umask) ds = .ok d) (opts : List Opt) :
    setopts (blankColl umask) (ds ++ opts) = setopts d opts := by
  rw [setopts, List.foldlM_append]
  show setopts (blankColl umask) ds >>= _ = _
  rw [hd]
  rfl

/-- A collection of options alone is copied as it is. -/
theorem collNew_of_setopts (h : setopts (blankColl umask) opts = .ok coll) :
    collNew (some coll) = coll := by
  have hs := setopts_set h
  have hname : coll.name = none := hs.name
  have hcolldir : coll.colldir = none := hs.colldir
  have haccepts : coll.accepts = [] := hs.accepts
  have hrefusals : coll.refusals = [] := hs.refusals
  cases coll
  simp only at hname hcolldir haccepts hrefusals
  subst hname hcolldir haccepts hrefusals
  rfl

theorem collOverride_setopts (h : setopts (blankColl umask) opts = .ok coll) (name : List Byte) :
    collOverride { coll with name := some name } ovcoll ovmask =
      collOf umask ovcoll ovmask (name, opts) := by
  have hs := setopts_set h
  have humask : coll.umask = (lastValue umaskOf opts).getD umask := by
    have := hs.umask
    cases hl : lastValue umaskOf opts with
    | none => rw [hl] at this; exact Option.some.inj this
    | some m => rw [hl] at this; exact Option.some.inj this
  ext1
  · rfl
  · simp [collOverride, collOf, hostOf, hs.host, blankColl, collNew]
  · simp [collOverride, collOf, hs.base, blankColl, collNew]
  · simp only [collOverride, collOf, hs.date]
    split <;> rfl
  · simp [collOverride, collOf, hs.pre, blankColl, collNew]
  · simp [collOverride, collOf, releaseOf, hs.release, blankColl, collNew]
  · simp only [collOverride, collOf, hs.tag]
    split <;> rfl
  · simp [collOverride, collOf, hs.colldir, blankColl, collNew]
  · simp [collOverride, collOf, hs.listsuffix, blankColl, collNew]
  · simp [collOverride, collOf, hs.accepts, blankColl, collNew]
  · simp [collOverride, collOf, hs.refusals, blankColl, collNew]
  · simp [collOverride, collOf, hs.options, blankColl, collNew]
  · exact humask

/-- A collection can be added to these. -/
structure Addable (ovcoll : Coll) (cs : List Coll) (p : List Byte × List Opt) : Prop where
  release : (releaseOf ovcoll p).isSome
  host : (hostOf ovcoll p).isSome
  last : ∀ c ∈ cs.getLast?, c.host = hostOf ovcoll p

theorem collAdd_iff {cs : List Coll} (h : setopts (blankColl umask) opts = .ok coll) :
    (∃ g, collAdd ovcoll ovmask name ⟨cs, coll, d⟩ = .ok g) ↔ Addable ovcoll cs (name, opts) := by
  have hrelease : (collOf umask ovcoll ovmask (name, opts)).release = releaseOf ovcoll (name, opts) :=
    rfl
  have hhost : (collOf umask ovcoll ovmask (name, opts)).host = hostOf ovcoll (name, opts) := rfl
  unfold collAdd
  dsimp only
  rw [collOverride_setopts h, hrelease, hhost]
  by_cases hr : releaseOf ovcoll (name, opts) = none
  · rw [if_pos hr]
    refine ⟨fun ⟨_, h⟩ => (by cases h), fun ha => ?_⟩
    have := ha.release
    rw [hr] at this
    cases this
  · rw [if_neg hr]
    by_cases hh : hostOf ovcoll (name, opts) = none
    · rw [if_pos hh]
      refine ⟨fun ⟨_, h⟩ => (by cases h), fun ha => ?_⟩
      have := ha.host
      rw [hh] at this
      cases this
    · rw [if_neg hh]
      have hlast : (cs.getLast?.any fun c => decide (c.host ≠ hostOf ovcoll (name, opts))) = true ↔
          ¬∀ c ∈ cs.getLast?, c.host = hostOf ovcoll (name, opts) := by
        cases cs.getLast? <;> simp
      split
      · rename_i hl
        exact ⟨fun ⟨_, h⟩ => (by cases h), fun ha => absurd ha.last (hlast.mp hl)⟩
      · rename_i hl
        exact ⟨fun _ => ⟨Option.isSome_iff_ne_none.mpr hr, Option.isSome_iff_ne_none.mpr hh,
          not_not.mp fun hn => hl (hlast.mpr hn)⟩, fun _ => ⟨_, rfl⟩⟩

theorem collAdd_ok {cs : List Coll} {g : Globals} (hs : setopts (blankColl umask) opts = .ok coll)
    (h : collAdd ovcoll ovmask name ⟨cs, coll, d⟩ = .ok g) :
    g = ⟨cs ++ [collOf umask ovcoll ovmask (name, opts)], collNew (some d), d⟩ := by
  unfold collAdd at h
  dsimp only at h
  rw [collOverride_setopts hs] at h
  split at h
  · cases h
  · split at h
    · cases h
    · split at h
      · cases h
      · exact (Except.ok.inj h).symm

/-- When a supfile is accepted that these collections and defaults are in front of. -/
structure Accepted (ovcoll : Coll) (cs : List Coll) (ds : List Opt) (lines : List Stmt) : Prop where
  valid : ∀ l ∈ lines, ∀ o ∈ l.opts, Opt.Valid o
  addable : ∀ p ∈ collsOf ds lines, Addable ovcoll cs p
  agreed : (collsOf ds lines).Pairwise fun p q => hostOf ovcoll p = hostOf ovcoll q

theorem runLines_default (hd : setopts (blankColl umask) ds = .ok d) (cs : List Coll)
    (lines : List Stmt) {d' : Coll} (hd' : setopts d opts = .ok d') :
    runLines ovcoll ovmask ⟨cs, d, d⟩ (⟨.default, opts⟩ :: lines) =
      runLines ovcoll ovmask ⟨cs, d', d'⟩ lines := by
  have hnew : collNew (some d') = d' := collNew_of_setopts ((setopts_append hd opts).trans hd')
  rw [runLines_cons, runLine, hd']
  show runLines ovcoll ovmask ⟨cs, collNew (some d'), d'⟩ lines = _
  rw [hnew]

theorem runLines_coll (hd : setopts (blankColl umask) ds = .ok d) (cs : List Coll)
    (lines : List Stmt) (hc : setopts d opts = .ok coll) :
    runLines ovcoll ovmask ⟨cs, d, d⟩ (⟨.coll name, opts⟩ :: lines) =
      collAdd ovcoll ovmask name ⟨cs, coll, d⟩ >>= fun g =>
        runLines ovcoll ovmask ⟨g.colls, d, d⟩ lines := by
  have hnew : collNew (some d) = d := collNew_of_setopts hd
  rw [runLines_cons, runLine, hc]
  show collAdd ovcoll ovmask name ⟨cs, coll, d⟩ >>= _ = _
  cases hadd : collAdd ovcoll ovmask name ⟨cs, coll, d⟩ with
  | error e => rfl
  | ok g =>
    obtain rfl := collAdd_ok ((setopts_append hd opts).trans hc) hadd
    show runLines ovcoll ovmask ⟨_, collNew (some d), d⟩ lines = _
    rw [hnew]
    rfl

theorem runLines_colls {lines : List Stmt} {cs : List Coll} {g : Globals}
    (hd : setopts (blankColl umask) ds = .ok d)
    (h : runLines ovcoll ovmask ⟨cs, d, d⟩ lines = .ok g) :
    g.colls = cs ++ (collsOf ds lines).map (collOf umask ovcoll ovmask) := by
  induction lines generalizing ds d cs with
  | nil =>
    obtain rfl := Except.ok.inj h
    exact (List.append_nil _).symm
  | cons l lines ih =>
    obtain ⟨head, opts⟩ := l
    cases hs : setopts d opts with
    | error e =>
      rw [runLines_cons, runLine, hs] at h
      cases h
    | ok c =>
      have hset := (setopts_append hd opts).trans hs
      cases head with
      | default =>
        rw [runLines_default hd cs lines hs] at h
        exact ih hset h
      | coll name =>
        rw [runLines_coll hd cs lines hs] at h
        obtain ⟨g1, hadd, h⟩ := exists_bind h
        obtain rfl := collAdd_ok hset hadd
        rw [ih hd h, collsOf, List.map_cons]
        exact (List.append_cons _ _ _).symm

theorem Addable.concat {cs : List Coll} {p q : List Byte × List Opt} (hp : Addable ovcoll cs p)
    (hc : coll.host = hostOf ovcoll q) (heq : hostOf ovcoll q = hostOf ovcoll p) :
    Addable ovcoll (cs ++ [coll]) p :=
  ⟨hp.release, hp.host, fun c h => by
    rw [List.getLast?_concat] at h
    obtain rfl := Option.some.inj h
    exact hc.trans heq⟩

/-- A collection that is accepted has the host of the one before it. -/
theorem Addable.of_concat {cs : List Coll} {p q : List Byte × List Opt}
    (hp : Addable ovcoll (cs ++ [coll]) p) (hc : coll.host = hostOf ovcoll q)
    (hq : Addable ovcoll cs q) : hostOf ovcoll q = hostOf ovcoll p ∧ Addable ovcoll cs p := by
  have heq : hostOf ovcoll q = hostOf ovcoll p :=
    hc.symm.trans (hp.last coll (List.getLast?_concat ..))
  exact ⟨heq, hp.release, hp.host, fun c h => (hq.last c h).trans heq⟩

theorem Accepted.cons {cs : List Coll} {lines : List Stmt}
    (h : Accepted ovcoll (cs ++ [coll]) ds lines) (hvalid : ∀ o ∈ opts, Opt.Valid o)
    (hfirst : Addable ovcoll cs (name, ds ++ opts))
    (hc : coll.host = hostOf ovcoll (name, ds ++ opts)) :
    Accepted ovcoll cs ds (⟨.coll name, opts⟩ :: lines) where
  valid := List.forall_mem_cons.mpr ⟨hvalid, h.valid⟩
  addable := List.forall_mem_cons.mpr
    ⟨hfirst, fun p hp => ((h.addable p hp).of_concat hc hfirst).2⟩
  agreed := List.pairwise_cons.mpr
    ⟨fun p hp => ((h.addable p hp).of_concat hc hfirst).1, h.agreed⟩

theorem Accepted.tail {cs : List Coll} {lines : List Stmt}
    (h : Accepted ovcoll cs ds (⟨.coll name, opts⟩ :: lines))
    (hc : coll.host = hostOf ovcoll (name, ds ++ opts)) :
    Accepted ovcoll (cs ++ [coll]) ds lines where
  valid := (List.forall_mem_cons.mp h.valid).2
  addable := fun p hp => (h.addable p (.tail _ hp)).concat hc ((List.pairwise_cons.mp h.agreed).1 p hp)
  agreed := (List.pairwise_cons.mp h.agreed).2

theorem runLines_iff {lines : List Stmt} {cs : List Coll} (hd : setopts (blankColl umask) ds = .ok d) :
    (∃ g, runLines ovcoll ovmask ⟨cs, d, d⟩ lines = .ok g) ↔ Accepted ovcoll cs ds lines := by
  induction lines generalizing ds d cs with
  | nil => exact ⟨fun _ => ⟨by simp, by simp [collsOf], .nil⟩, fun _ => ⟨_, rfl⟩⟩
  | cons l lines ih =>
    obtain ⟨head, opts⟩ := l
    cases hs : setopts d opts with
    | error e =>
      refine ⟨fun ⟨g, h⟩ => ?_, fun ha => ?_⟩
      · rw [runLines_cons, runLine, hs] at h
        cases h
      · obtain ⟨c, hc⟩ := (setopts_iff d opts).mpr (ha.valid _ List.mem_cons_self)
        cases hs.symm.trans hc
    | ok c =>
      have hset := (setopts_append hd opts).trans hs
      have hvalid : ∀ o ∈ opts, Opt.Valid o := (setopts_iff d opts).mp ⟨c, hs⟩
      cases head with
      | default =>
        rw [runLines_default hd cs lines hs, ih hset]
        exact ⟨fun ha => ⟨List.forall_mem_cons.mpr ⟨hvalid, ha.valid⟩, ha.addable, ha.agreed⟩,
          fun ha => ⟨(List.forall_mem_cons.mp ha.valid).2, ha.addable, ha.agreed⟩⟩
      | coll name =>
        rw [runLines_coll hd cs lines hs]
        constructor
        · rintro ⟨g, h⟩
          obtain ⟨g1, hadd, h⟩ := exists_bind h
          have hfirst := (collAdd_iff hset).mp ⟨g1, hadd⟩
          obtain rfl := collAdd_ok hset hadd
          exact ((ih hd).mp ⟨g, h⟩).cons hvalid hfirst rfl
        · intro ha
          obtain ⟨g1, hadd⟩ := (collAdd_iff hset).mpr (ha.addable _ List.mem_cons_self)
          have hhost : (collOf umask ovcoll ovmask (name, ds ++ opts)).host =
              hostOf ovcoll (name, ds ++ opts) := rfl
          obtain ⟨g, h⟩ := (ih hd).mpr (ha.tail hhost)
          obtain rfl := collAdd_ok hset hadd
          exact ⟨g, by rw [hadd]; exact h⟩

end

end Csup.Config
