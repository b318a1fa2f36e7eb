import Csup.Base.Clib
import Csup.Framework.Chained

/-!
# The identity cache: `idcache.c`

Two tables for the users and two for the groups. What an id or a name was looked up as is
put into the table it was looked for in and, when it exists, into the other one the other
way round. The functions run under a lock and an entry is not changed once it is there, so
the calls of several threads are a list of lookups.

* `Coherent`, `getnamebyid_coherent`, `getidbyname_coherent`: what is in the tables is what
  the system says, and stays so as long as what it says of a name or an id that is looked up
  is the same the other way round;
* `idcache_transparent`: then every lookup returns what the system says;
* `idcache_transparent_iff`: there is no other way.
-/

namespace Csup.Idcache

open Csup.Framework

abbrev Name := List Byte

/-- `hash`: the bytes of a name are signed. -/
def hash (name : Name) : BitVec 32 :=
  name.foldl (fun h c =>
    let h := (h <<< 4) + (BitVec.ofNat 8 c.toNat).signExtend 32
    let g := h &&& 0xF0000000
    if g ≠ 0 then (h ^^^ (g >>> 24)) &&& 0x0FFFFFFF else h) 0

/-- A `struct uidc` or `struct gidc`. A miss entry for an id has no name. -/
structure Idc (N : Type) where
  name : N
  id : BitVec 32
  valid : Bool

/-- The tables of the users, or of the groups. -/
structure Cache where
  idtoname : Fin 317 → List (Idc (Option Name))
  nametoid : Fin 317 → List (Idc Name)

def Cache.empty : Cache := ⟨fun _ => [], fun _ => []⟩

def idKey (id : BitVec 32) : Fin 317 := Fin.ofNat 317 id.toNat

def nameKey (name : Name) : Fin 317 := Fin.ofNat 317 (hash name).toNat

/-- `getpwuid` and `getpwnam`, or `getgrgid` and `getgrnam`. -/
structure Db where
  byid : BitVec 32 → Option Name
  byname : Name → Option (BitVec 32)

section

variable (db : Db)

/-- `getuserbyid` and `getgroupbyid` -/
def getnamebyid (id : BitVec 32) (c : Cache) : Option Name × Cache :=
  match Chained.look Idc.id idKey c.idtoname id with
  | some e => (e.name, c)
  | none =>
    match db.byid id with
    | some name =>
      (some name,
        { idtoname := Chained.insert Idc.id idKey c.idtoname ⟨some name, id, true⟩
          nametoid := Chained.insert Idc.name nameKey c.nametoid ⟨name, id, true⟩ })
    | none =>
      (none, { c with idtoname := Chained.insert Idc.id idKey c.idtoname ⟨none, id, false⟩ })

/-- `getuidbyname` and `getgidbyname` -/
def getidbyname (name : Name) (c : Cache) : Option (BitVec 32) × Cache :=
  match Chained.look Idc.name nameKey c.nametoid name with
  | some e => (if e.valid then some e.id else none, c)
  | none =>
    match db.byname name with
    | some id =>
      (some id,
        { idtoname := Chained.insert Idc.id idKey c.idtoname ⟨some name, id, true⟩
          nametoid := Chained.insert Idc.name nameKey c.nametoid ⟨name, id, true⟩ })
    | none =>
      (none, { c with nametoid := Chained.insert Idc.name nameKey c.nametoid ⟨name, -1, false⟩ })

end

/-- The lookups of the system. -/
structure Host where
  getpwuid : BitVec 32 → Option Name
  getpwnam : Name → Option (BitVec 32)
  getgrgid : BitVec 32 → Option Name
  getgrnam : Name → Option (BitVec 32)

def Host.users (host : Host) : Db := ⟨host.getpwuid, host.getpwnam⟩

def Host.groups (host : Host) : Db := ⟨host.getgrgid, host.getgrnam⟩

/-- The state of the module. -/
structure State where
  users : Cache
  groups : Cache

/-- `idcache_init` -/
def idcacheInit : State := ⟨.empty, .empty⟩

section

variable (host : Host) (s : State)

def getuserbyid (uid : BitVec 32) : Option Name × State :=
  let r := getnamebyid host.users uid s.users
  (r.1, { s with users := r.2 })

def getgroupbyid (gid : BitVec 32) : Option Name × State :=
  let r := getnamebyid host.groups gid s.groups
  (r.1, { s with groups := r.2 })

def getuidbyname (name : Name) : Option (BitVec 32) × State :=
  let r := getidbyname host.users name s.users
  (r.1, { s with users := r.2 })

def getgidbyname (name : Name) : Option (BitVec 32) × State :=
  let r := getidbyname host.groups name s.groups
  (r.1, { s with groups := r.2 })

end

/-- A lookup. -/
inductive Lookup
  | userbyid (uid : BitVec 32)
  | groupbyid (gid : BitVec 32)
  | uidbyname (name : Name)
  | gidbyname (name : Name)

inductive Answer
  | name (name : Option Name)
  | id (id : Option (BitVec 32))
  deriving DecidableEq

section

variable (host : Host)

/-- A lookup through the cache. -/
def Lookup.cached (s : State) : Lookup → Answer × State
  | userbyid uid => let r := getuserbyid host s uid; (.name r.1, r.2)
  | groupbyid gid => let r := getgroupbyid host s gid; (.name r.1, r.2)
  | uidbyname name => let r := getuidbyname host s name; (.id r.1, r.2)
  | gidbyname name => let r := getgidbyname host s name; (.id r.1, r.2)

/-- What the system says. -/
def Lookup.direct : Lookup → Answer
  | userbyid uid => .name (host.getpwuid uid)
  | groupbyid gid => .name (host.getgrgid gid)
  | uidbyname name => .id (host.getpwnam name)
  | gidbyname name => .id (host.getgrnam name)

/-- The answers to lookups one after the other. -/
def answers (s : State) : List Lookup → List Answer
  | [] => []
  | l :: ls => (l.cached host s).1 :: answers (l.cached host s).2 ls

end

/-! ## What is in the tables -/

/-- What the system says of an id or a name is the same the other way round. -/
def Db.CanonicalId (db : Db) (id : BitVec 32) : Prop :=
  ∀ name, db.byid id = some name → db.byname name = some id

def Db.CanonicalName (db : Db) (name : Name) : Prop :=
  ∀ id, db.byname name = some id → db.byid id = some name

/-- What is found in the tables is what the system says. -/
structure Coherent (db : Db) (c : Cache) : Prop where
  idtoname : Chained.Found Idc.id idKey c.idtoname fun e => e.name = db.byid e.id
  nametoid : Chained.Found Idc.name nameKey c.nametoid fun e =>
    (if e.valid then some e.id else none) = db.byname e.name

section

variable {db : Db} {c : Cache} {id : BitVec 32} {name : Name}

theorem coherent_empty (db : Db) : Coherent db .empty := ⟨Chained.found_empty, Chained.found_empty⟩

/-- A pair that is right both ways. -/
theorem Coherent.insert (h : Coherent db c) (hid : db.byid id = some name)
    (hname : db.byname name = some id) :
    Coherent db ⟨Chained.insert Idc.id idKey c.idtoname ⟨some name, id, true⟩,
      Chained.insert Idc.name nameKey c.nametoid ⟨name, id, true⟩⟩ :=
  ⟨h.idtoname.insert hid.symm, h.nametoid.insert hname.symm⟩

theorem getnamebyid_coherent (h : Coherent db c) (hc : db.CanonicalId id) :
    (getnamebyid db id c).1 = db.byid id ∧ Coherent db (getnamebyid db id c).2 := by
  unfold getnamebyid
  split
  · rename_i e hlook
    refine ⟨?_, h⟩
    rw [← Chained.key_of_look hlook]
    exact h.idtoname id e hlook
  · split
    · rename_i name hid
      exact ⟨hid.symm, h.insert hid (hc name hid)⟩
    · rename_i hid
      exact ⟨hid.symm, h.idtoname.insert hid.symm, h.nametoid⟩

theorem getidbyname_coherent (h : Coherent db c) (hc : db.CanonicalName name) :
    (getidbyname db name c).1 = db.byname name ∧ Coherent db (getidbyname db name c).2 := by
  unfold getidbyname
  split
  · rename_i e hlook
    refine ⟨?_, h⟩
    rw [← Chained.key_of_look hlook]
    exact h.nametoid name e hlook
  · split
    · rename_i id hname
      exact ⟨hname.symm, h.insert (hc id hname) hname⟩
    · rename_i hname
      exact ⟨hname.symm, h.idtoname, h.nametoid.insert hname.symm⟩

end

/-! ## Lookups one after the other -/

/-- What the system says of what is looked up is the same the other way round. -/
def Lookup.Canonical (host : Host) : Lookup → Prop
  | userbyid uid => host.users.CanonicalId uid
  | groupbyid gid => host.groups.CanonicalId gid
  | uidbyname name => host.users.CanonicalName name
  | gidbyname name => host.groups.CanonicalName name

def State.Coherent (host : Host) (s : State) : Prop :=
  Idcache.Coherent host.users s.users ∧ Idcache.Coherent host.groups s.groups

section

variable {host : Host} {s : State}

theorem coherent_init (host : Host) : idcacheInit.Coherent host := ⟨coherent_empty _, coherent_empty _⟩

/-- One lookup. -/
theorem cached_coherent {l : Lookup} (h : s.Coherent host) (hc : l.Canonical host) :
    (l.cached host s).1 = l.direct host ∧ (l.cached host s).2.Coherent host := by
  obtain ⟨husers, hgroups⟩ := h
  cases l with
  | userbyid uid =>
    have := getnamebyid_coherent husers hc
    exact ⟨congrArg Answer.name this.1, this.2, hgroups⟩
  | groupbyid gid =>
    have := getnamebyid_coherent hgroups hc
    exact ⟨congrArg Answer.name this.1, husers, this.2⟩
  | uidbyname name =>
    have := getidbyname_coherent husers hc
    exact ⟨congrArg Answer.id this.1, this.2, hgroups⟩
  | gidbyname name =>
    have := getidbyname_coherent hgroups hc
    exact ⟨congrArg Answer.id this.1, husers, this.2⟩

/-- Lookups of what is the same the other way round, from any state that agrees with the
system. -/
theorem answers_coherent {ls : List Lookup} (h : s.Coherent host)
    (hc : ∀ l ∈ ls, l.Canonical host) : answers host s ls = ls.map (Lookup.direct host) := by
  induction ls generalizing s with
  | nil => rfl
  | cons l ls ih =>
    obtain ⟨hl, hls⟩ := List.forall_mem_cons.mp hc
    obtain ⟨hanswer, hs⟩ := cached_coherent h hl
    rw [answers, hanswer, ih hs hls]
    rfl

/-- The cache is transparent, as long as what the system says of what is looked up is the same
the other way round. -/
theorem idcache_transparent {ls : List Lookup} (hc : ∀ l ∈ ls, l.Canonical host) :
    answers host idcacheInit ls = ls.map (Lookup.direct host) :=
  answers_coherent (coherent_init host) hc

/-- The name that was looked up answers for its id. -/
theorem getnamebyid_of_getidbyname {db : Db} {id : BitVec 32} {name : Name} (h : db.byname name = some id) :
    (getnamebyid db id (getidbyname db name .empty).2).1 = some name := by
  have hmiss : Chained.look Idc.name nameKey Cache.empty.nametoid name = none := rfl
  simp only [getidbyname, hmiss, h, getnamebyid, Chained.look_insert, if_true]

theorem getidbyname_of_getnamebyid {db : Db} {id : BitVec 32} {name : Name} (h : db.byid id = some name) :
    (getidbyname db name (getnamebyid db id .empty).2).1 = some id := by
  have hmiss : Chained.look Idc.id idKey Cache.empty.idtoname id = none := rfl
  simp only [getnamebyid, hmiss, h, getidbyname, Chained.look_insert, if_true]

/-- All lookups are answered right just when the system says the same both ways. -/
theorem idcache_transparent_iff (host : Host) :
    (∀ ls, answers host idcacheInit ls = ls.map (Lookup.direct host)) ↔
      ∀ l : Lookup, l.Canonical host := by
  constructor
  · intro h l
    cases l with
    | userbyid uid =>
      intro name hid
      have hans := h [.userbyid uid, .uidbyname name]
      simp only [answers, List.map_cons, List.map_nil, List.cons.injEq, and_true] at hans
      exact (Answer.id.inj hans.2).symm.trans (getidbyname_of_getnamebyid hid)
    | groupbyid gid =>
      intro name hid
      have hans := h [.groupbyid gid, .gidbyname name]
      simp only [answers, List.map_cons, List.map_nil, List.cons.injEq, and_true] at hans
      exact (Answer.id.inj hans.2).symm.trans (getidbyname_of_getnamebyid hid)
    | uidbyname name =>
      intro uid hname
      have hans := h [.uidbyname name, .userbyid uid]
      simp only [answers, List.map_cons, List.map_nil, List.cons.injEq, and_true] at hans
      exact (Answer.name.inj hans.2).symm.trans (getnamebyid_of_getidbyname hname)
    | gidbyname name =>
      intro gid hname
      have hans := h [.gidbyname name, .groupbyid gid]
      simp only [answers, List.map_cons, List.map_nil, List.cons.injEq, and_true] at hans
      exact (Answer.name.inj hans.2).symm.trans (getnamebyid_of_getidbyname hname)
  · exact fun h ls => answers_coherent (coherent_init host) fun l _ => h l

end

/-- The files of the users and the groups, where the first entry counts. -/
def Host.ofFiles (passwd group : List (Name × BitVec 32)) : Host where
  getpwuid uid := (passwd.find? fun e => e.2 = uid).map Prod.fst
  getpwnam name := (passwd.find? fun e => e.1 = name).map Prod.snd
  getgrgid gid := (group.find? fun e => e.2 = gid).map Prod.fst
  getgrnam name := (group.find? fun e => e.1 = name).map Prod.snd

/-- `root` and `toor` have the id 0. -/
def toorHost : Host :=
  .ofFiles [(bytes "root".toList, 0), (bytes "toor".toList, 0), (bytes "joe".toList, 7)] []

theorem idcache_transparent_toor :
    answers toorHost idcacheInit
        [.userbyid 0, .uidbyname (bytes "joe".toList), .userbyid 7, .groupbyid 0] =
      [.userbyid 0, .uidbyname (bytes "joe".toList), .userbyid 7, .groupbyid 0].map (Lookup.direct toorHost) := by
  apply idcache_transparent
  simp only [List.forall_mem_cons, List.not_mem_nil, false_implies, implies_true, and_true]
  refine ⟨fun name h => ?_, fun id h => ?_, fun name h => ?_, fun name h => ?_⟩
  · obtain rfl : bytes "root".toList = name := Option.some.inj h
    decide
  · obtain rfl : 7 = id := Option.some.inj h
    decide
  · obtain rfl : bytes "joe".toList = name := Option.some.inj h
    decide
  · cases h

/-- The second name of an id is looked up, and then the id. -/
theorem not_idcache_transparent :
    answers toorHost idcacheInit [.uidbyname (bytes "toor".toList), .userbyid 0] =
      [.id (some 0), .name (some (bytes "toor".toList))] ∧
    Lookup.direct toorHost (.userbyid 0) = .name (some (bytes "root".toList)) := by
  decide

end Csup.Idcache
