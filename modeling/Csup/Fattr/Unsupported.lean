import Csup.Fattr.Inside

/-!
# Attributes that are not supported

`fattr_decode` takes what the local table does not support off the mask before it
scans, so that the fields of these attributes are not passed over: the fields are
taken one after the other for the attributes that are supported.

* `foldlM_scanStep`: what is read when the fields are taken for other attributes;
* `undisturbed_iff`: the strings of which each supported attribute gets the value
  that its own field gives it;
* `aligned_of_append`: those whose unsupported attributes come last are among them.
-/

namespace Csup.Attrs

/-! ## Strings of fields -/

/-- A string that is made up of the texts `texts`, each behind its length. -/
def Spells : List Byte → List (List Byte) → Prop
  | s, [] => s = []
  | s, val :: vals => ∃ rest, scanPiece s = .ok (val, rest) ∧ Spells rest vals

/-- The attributes and the texts of a string: the mask, the type if it is in the mask, and
the others in their order. -/
structure Describes (s : List Byte) (mask : Mask) (type : FileType)
    (fields : List (Attr × List Byte)) : Prop where
  known : mask &&& ~~~faMask = 0
  order : fields.map Prod.fst = restAttrs.filter (has mask)
  spelled : ∃ val, maskIn val = .ok mask ∧
    if has mask .filetype then
      ∃ typeval i, wholeInt 10 typeval = .ok i ∧ type = .ofInt (BitVec.ofInt 32 i).toInt ∧
        Spells s (val :: typeval :: fields.map Prod.snd)
    else type = .unknown ∧ Spells s (val :: fields.map Prod.snd)

/-! ## What a text says -/

/-- The value of an attribute. -/
def valueOf (fa : Fattr) : Attr → Nat ⊕ List Byte
  | .filetype => .inl fa.type.num
  | .modtime => .inl fa.modtime.toNat
  | .size => .inl fa.size.toNat
  | .linktarget => .inr fa.linktarget
  | .rdev => .inl fa.rdev.toNat
  | .owner => .inl fa.uid.toNat
  | .group => .inl fa.gid.toNat
  | .mode => .inl fa.mode.toNat
  | .flags => .inl fa.flags.toNat
  | .linkcount => .inl fa.linkcount.toNat
  | .dev => .inl fa.dev.toNat
  | .inode => .inl fa.inode.toNat

/-- The value of an attribute that is set. -/
def slot (fa : Fattr) (a : Attr) : Option (Nat ⊕ List Byte) :=
  if has fa.mask a then some (valueOf fa a) else none

/-- What a text says of an attribute by itself: a value, or none for a name that is not
known here. A mode is cut to the bits that go with the mask. -/
def reading (ids : Ids) (mask : Mask) (a : Attr) (val : List Byte) :
    Except Stop (Option (Nat ⊕ List Byte)) :=
  (scanValue ids { fattrNew with mask := mask ||| a.bit } val a).map (slot · a)

/-- Either the string is not decoded, or each attribute of it that is supported has the
value that its own text gives it. -/
def Undisturbed (fflags : Bool) (ids : Ids) (s : List Byte) (type : FileType)
    (fields : List (Attr × List Byte)) : Prop :=
  fattrDecode fflags ids s = .error .bad ∨
    ∃ fa, fattrDecode fflags ids s = .ok fa ∧ fa.type = type ∧
      ∀ p ∈ fields, has (fattrSupported fflags type) p.1 = true →
        reading ids fa.mask p.1 p.2 = .ok (slot fa p.1)

/-! ## The fields that are taken -/

section Fields

variable (fflags : Bool) (ids : Ids) (type : FileType) (fields : List (Attr × List Byte))

/-- The fields of the attributes that are supported. -/
def ownFields : List (Attr × List Byte) :=
  fields.filter fun p => has (fattrSupported fflags type) p.1

/-- The first texts, one for each attribute that is supported. -/
def takenFields : List (Attr × List Byte) :=
  ((ownFields fflags type fields).map Prod.fst).zip (fields.map Prod.snd)

/-- The supported attributes that their own texts set: all but an owner and a group that are not
known here. -/
def knownIds : Mask :=
  maskOf (((ownFields fflags type fields).filter fun p =>
    (reading ids 0 p.1 p.2).toOption.any Option.isSome).map Prod.fst)

/-- One of the first texts cannot be read as the attribute that it is taken for, or each of
them says the same as the attribute's own text. -/
def Aligned : Prop :=
  (∃ p ∈ takenFields fflags type fields, reading ids 0 p.1 p.2 = .error .bad) ∨
    ∀ p ∈ (ownFields fflags type fields).zip (fields.map Prod.snd),
      reading ids (knownIds fflags ids type fields) p.1.1 p.1.2 =
        reading ids (knownIds fflags ids type fields) p.1.1 p.2

end Fields

/-! ## One attribute -/

/-- What a text says does not depend on what was read before, except for the bits of a mode. -/
theorem slot_congr {ids : Ids} {fa fa' : Fattr} {a : Attr} (ha : has fa.mask a = true)
    (ha' : has fa'.mask a = true) (hmode : a = .mode → modemask fa.mask = modemask fa'.mask)
    (val : List Byte) :
    (scanValue ids fa val a).map (slot · a) = (scanValue ids fa' val a).map (slot · a) := by
  cases a with
  | linktarget => simp [scanValue, slot, valueOf, Except.map, ha, ha']
  | owner | group =>
    simp only [scanValue]
    split <;> simp [slot, valueOf, Except.map, ha, ha']
  | mode =>
    simp only [scanValue, hmode rfl]
    rcases wholeInt 8 val with - | i
    · rfl
    · simp [slot, valueOf, Except.map, bind, Except.bind, pure, Except.pure, ha, ha']
  | flags =>
    simp only [scanValue]
    rcases wholeNat 16 val with - | i
    · rfl
    · simp [slot, valueOf, Except.map, bind, Except.bind, pure, Except.pure, ha, ha']
  | filetype | modtime | size | inode =>
    simp only [scanValue]
    rcases wholeInt 10 val with - | i
    · rfl
    · simp [slot, valueOf, Except.map, bind, Except.bind, pure, Except.pure, ha, ha']
  | rdev | linkcount | dev =>
    simp only [scanValue]
    rcases wholeInt 16 val with - | i
    · rfl
    · simp [slot, valueOf, Except.map, bind, Except.bind, pure, Except.pure, ha, ha']

theorem modemask_congr {mask mask' : Mask} (ho : has mask .owner = has mask' .owner)
    (hg : has mask .group = has mask' .group) : modemask mask = modemask mask' := by
  rw [modemask, modemask, ho, hg]

theorem modemask_or_mode (mask : Mask) : modemask (mask ||| Attr.mode.bit) = modemask mask :=
  modemask_congr (by simp) (by simp)

theorem reading_eq {ids : Ids} {fa : Fattr} {a : Attr} (ha : has fa.mask a = true)
    (val : List Byte) : reading ids fa.mask a val = (scanValue ids fa val a).map (slot · a) := by
  refine slot_congr (by simp) ha ?_ val
  rintro rfl
  exact modemask_or_mode _

theorem reading_mask (ids : Ids) (mask mask' : Mask) {a : Attr}
    (h : a = .mode → modemask mask = modemask mask') (val : List Byte) :
    reading ids mask a val = reading ids mask' a val := by
  refine slot_congr (by simp) (by simp) ?_ val
  rintro rfl
  simp only [modemask_or_mode, h rfl]

/-- Reading one attribute leaves the others alone. -/
structure OnlyAttr (a : Attr) (fa fa' : Fattr) : Prop where
  mask : ∀ b, b ≠ a → has fa'.mask b = has fa.mask b
  value : ∀ b, b ≠ a → valueOf fa' b = valueOf fa b

theorem OnlyAttr.slot {a b : Attr} {fa fa' : Fattr} (h : OnlyAttr a fa fa') (hb : b ≠ a) :
    slot fa' b = slot fa b := by
  rw [Attrs.slot, h.mask b hb, h.value b hb, Attrs.slot]

theorem onlyAttr_scanValue {ids : Ids} {fa fa' : Fattr} {a : Attr} {val : List Byte}
    (hok : scanValue ids fa val a = .ok fa') : OnlyAttr a fa fa' := by
  cases a with
  | linktarget =>
    obtain rfl := Except.ok.inj hok
    exact ⟨fun _ _ => rfl, fun b hb => by cases b <;> first | rfl | exact absurd rfl hb⟩
  | owner | group =>
    simp only [scanValue] at hok
    split at hok <;> obtain rfl := Except.ok.inj hok
    · exact ⟨fun _ _ => rfl, fun b hb => by cases b <;> first | rfl | exact absurd rfl hb⟩
    · exact ⟨fun b hb => by simp [hb.symm], fun b _ => by cases b <;> rfl⟩
  | _ =>
    simp only [scanValue, bind, Except.bind] at hok
    split at hok
    · cases hok
    · obtain rfl := Except.ok.inj hok
      exact ⟨fun _ _ => rfl, fun b hb => by cases b <;> first | rfl | exact absurd rfl hb⟩

/-! ## The attributes one after the other -/

/-- The step of `fattrDecode` for an attribute. -/
def stepOf (fflags : Bool) (ids : Ids) (r : Fattr × List Byte) (a : Attr) :
    Except Stop (Fattr × List Byte) :=
  if a = .linkcount then scanLinkcount fflags ids r else scanIf ids a r

theorem restOf_eq (fflags : Bool) (ids : Ids) (fa : Fattr) (s : List Byte) :
    restOf fflags ids (fa, s) = do
      let r ← restAttrs.foldlM (stepOf fflags ids)
        ({ fa with mask := fa.mask &&& fattrSupported fflags fa.type }, s)
      return r.1 := by
  simp only [restOf, restAttrs, List.foldlM_cons, List.foldlM_nil, bind_pure, bind_assoc]
  rfl

theorem stepOf_has {fflags : Bool} {ids : Ids} {fa : Fattr} {a : Attr} {s : List Byte}
    (ha : has fa.mask a = true) : stepOf fflags ids (fa, s) a = fattrScanattr ids fa a s := by
  unfold stepOf
  split
  · next hl =>
    subst hl
    exact if_pos ha
  · exact if_pos ha

theorem stepOf_skip (fflags : Bool) (ids : Ids) {fa : Fattr} {a : Attr} (s : List Byte)
    (ha : has fa.mask a = false) :
    ∃ fa', stepOf fflags ids (fa, s) a = .ok (fa', s) ∧ OnlyAttr a fa fa' ∧
      (a ≠ .linkcount → fa' = fa) := by
  have hno : ¬has fa.mask a = true := by simp [ha]
  unfold stepOf
  split
  · next hl =>
    subst hl
    simp only [scanLinkcount, if_neg hno]
    split
    · exact ⟨_, rfl, ⟨fun b hb => by simp [hb.symm],
        fun b hb => by cases b <;> first | rfl | exact absurd rfl hb⟩, fun hl => absurd rfl hl⟩
    · exact ⟨fa, rfl, ⟨fun _ _ => rfl, fun _ _ => rfl⟩, fun _ => rfl⟩
  · exact ⟨fa, if_neg hno, ⟨fun _ _ => rfl, fun _ _ => rfl⟩, fun _ => rfl⟩

/-- An attribute that comes before another in the order of the fields: a mode is not before
the owner and the group. -/
def Before (a b : Attr) : Prop := a ≠ b ∧ (a = .mode → b ≠ .owner ∧ b ≠ .group)

instance (a b : Attr) : Decidable (Before a b) := inferInstanceAs (Decidable (_ ∧ _))

/-- What was read of an attribute stays. -/
theorem reading_keep {ids : Ids} {a b : Attr} {fa fa' : Fattr} (h : OnlyAttr b fa fa')
    (hab : Before a b) {val : List Byte} (hread : reading ids fa.mask a val = .ok (slot fa a)) :
    reading ids fa'.mask a val = .ok (slot fa' a) := by
  rw [h.slot hab.1, ← hread]
  refine reading_mask ids _ _ (fun hmode => ?_) val
  obtain ⟨ho, hg⟩ := hab.2 hmode
  exact modemask_congr (h.mask _ ho.symm) (h.mask _ hg.symm)

/-- Whether a text can be read does not depend on the mask. -/
theorem reading_error {ids : Ids} (mask : Mask) {a : Attr} {val : List Byte} {e : Stop} :
    reading ids mask a val = .error e ↔ reading ids 0 a val = .error e := by
  by_cases ha : a = .mode
  · subst ha
    simp only [reading, scanValue]
    rcases wholeInt 8 val with - | i
    · exact Iff.rfl
    · exact iff_of_false (fun h => by cases h) fun h => by cases h
  · rw [reading_mask ids mask 0 fun h => absurd h ha]

theorem reading_bad {ids : Ids} {fa : Fattr} {a : Attr} {val : List Byte} {e : Stop}
    (ha : has fa.mask a = true) (herr : scanValue ids fa val a = .error e) :
    e = .bad ∧ reading ids 0 a val = .error .bad := by
  have hbad : e = .bad := by
    match e with
    | .bad => rfl
    | .undefined => exact absurd herr (scanValue_defined ids fa a val)
  subst hbad
  refine ⟨rfl, (reading_error fa.mask).mp ?_⟩
  rw [reading_eq ha, herr]
  rfl

/-- What was just read. -/
theorem reading_own {ids : Ids} {fa fa' : Fattr} {a : Attr} {val : List Byte}
    (ha : has fa.mask a = true) (hok : scanValue ids fa val a = .ok fa') :
    reading ids fa'.mask a val = .ok (slot fa' a) := by
  have honly := onlyAttr_scanValue hok
  have hmask : reading ids fa'.mask a val = reading ids fa.mask a val := by
    refine reading_mask ids _ _ ?_ val
    rintro rfl
    exact modemask_congr (honly.mask _ (by decide)) (honly.mask _ (by decide))
  rw [hmask, reading_eq ha, hok]
  rfl

theorem filter_has {a : Attr} {fa fa' : Fattr} (h : OnlyAttr a fa fa') {as : List Attr}
    (ha : ∀ b ∈ as, Before a b) : as.filter (has fa'.mask) = as.filter (has fa.mask) :=
  List.filter_congr fun b hb => h.mask b (ha b hb).1.symm

/-- What has become of `fa` when the texts `texts` were read for those attributes among `as`
that are in its mask. -/
structure Ran (ids : Ids) (as : List Attr) (texts : List (List Byte)) (fa fa' : Fattr) : Prop where
  type : valueOf fa' .filetype = valueOf fa .filetype
  unset : ∀ a, a ≠ .linkcount → has fa.mask a = false → has fa'.mask a = false
  keep : ∀ a val, (∀ b ∈ as, Before a b) → reading ids fa.mask a val = .ok (slot fa a) →
    reading ids fa'.mask a val = .ok (slot fa' a)
  read : ∀ p ∈ (as.filter (has fa.mask)).zip texts, reading ids fa'.mask p.1 p.2 = .ok (slot fa' p.1)

/-- An attribute that was passed over. -/
theorem Ran.skip {ids : Ids} {a : Attr} {as : List Attr} {texts : List (List Byte)}
    {fa fa1 fa' : Fattr} (h : Ran ids as texts fa1 fa') (ha : has fa.mask a = false)
    (honly : OnlyAttr a fa fa1) (hsame : a ≠ .linkcount → fa1 = fa) (htype : .filetype ≠ a)
    (hbefore : ∀ b ∈ as, Before a b) : Ran ids (a :: as) texts fa fa' where
  type := by rw [h.type, honly.value _ htype]
  unset b hb hno := by
    refine h.unset b hb ?_
    by_cases heq : b = a
    · rw [hsame (heq ▸ hb), hno]
    · rw [honly.mask b heq, hno]
  keep b val hb hval := h.keep b val (fun c hc => hb c (List.mem_cons_of_mem _ hc))
    (reading_keep honly (hb a List.mem_cons_self) hval)
  read p hp := by
    rw [List.filter_cons_of_neg (by simp [ha])] at hp
    exact h.read p (by rwa [filter_has honly hbefore])

/-- An attribute that was read. -/
theorem Ran.scan {ids : Ids} {a : Attr} {as : List Attr} {val : List Byte}
    {texts : List (List Byte)} {fa fa1 fa' : Fattr} (h : Ran ids as texts fa1 fa')
    (ha : has fa.mask a = true) (hok : scanValue ids fa val a = .ok fa1) (htype : .filetype ≠ a)
    (hbefore : ∀ b ∈ as, Before a b) : Ran ids (a :: as) (val :: texts) fa fa' where
  type := by rw [h.type, (onlyAttr_scanValue hok).value _ htype]
  unset b hb hno := by
    refine h.unset b hb ?_
    rw [(onlyAttr_scanValue hok).mask b fun heq => by simp [heq, ha] at hno, hno]
  keep b val hb hval := h.keep b val (fun c hc => hb c (List.mem_cons_of_mem _ hc))
    (reading_keep (onlyAttr_scanValue hok) (hb a List.mem_cons_self) hval)
  read p hp := by
    rw [List.filter_cons_of_pos ha, List.zip_cons_cons] at hp
    rcases List.mem_cons.mp hp with rfl | hp
    · exact h.keep a val hbefore (reading_own ha hok)
    · exact h.read p (by rwa [filter_has (onlyAttr_scanValue hok) hbefore])

/-- The texts are read for the attributes of the mask, whatever attributes they are of. -/
theorem foldlM_stepOf (fflags : Bool) (ids : Ids) {as : List Attr} (hp : as.Pairwise Before)
    (htype : .filetype ∉ as) {fa : Fattr} {s : List Byte} {texts : List (List Byte)}
    (hs : Spells s texts) (hlen : (as.filter (has fa.mask)).length ≤ texts.length) :
    (∃ p ∈ (as.filter (has fa.mask)).zip texts, reading ids 0 p.1 p.2 = .error .bad) ∧
        as.foldlM (stepOf fflags ids) (fa, s) = .error .bad ∨
      ∃ fa' rest, as.foldlM (stepOf fflags ids) (fa, s) = .ok (fa', rest) ∧
        Ran ids as texts fa fa' := by
  induction as generalizing fa s texts with
  | nil => exact .inr ⟨fa, s, rfl, rfl, fun _ _ h => h, fun _ _ _ h => h, fun p hp => by simp at hp⟩
  | cons a as ih =>
    obtain ⟨hbefore, hp⟩ := List.pairwise_cons.mp hp
    obtain ⟨htypea, htype⟩ := not_or.mp fun h => htype (List.mem_cons.mpr h)
    rw [List.foldlM_cons]
    rcases ha : has fa.mask a with - | -
    · obtain ⟨fa1, hstep, honly, hsame⟩ := stepOf_skip fflags ids s ha
      rw [hstep, List.filter_cons_of_neg (by simp [ha])]
      rw [List.filter_cons_of_neg (by simp [ha]), ← filter_has honly hbefore] at hlen
      have hrun := ih hp htype hs hlen
      rw [filter_has honly hbefore] at hrun
      exact hrun.imp id fun ⟨fa', rest, hok, hran⟩ =>
        ⟨fa', rest, hok, hran.skip ha honly hsame htypea hbefore⟩
    · rw [List.filter_cons_of_pos ha] at hlen ⊢
      match texts, hs with
      | val :: texts, ⟨next, hpiece, hs⟩ =>
        rw [stepOf_has ha, fattrScanattr, hpiece, List.zip_cons_cons]
        rcases hv : scanValue ids fa val a with e | fa1
        · obtain ⟨rfl, hbad⟩ := reading_bad ha hv
          exact .inl ⟨⟨_, List.mem_cons_self, hbad⟩, by simp only [bind, Except.bind, hv]⟩
        · have hfilter := filter_has (onlyAttr_scanValue hv) hbefore
          have hlen1 : (as.filter (has fa1.mask)).length ≤ texts.length := by
            rw [hfilter]
            simpa using hlen
          have hrun := ih hp htype hs hlen1
          rw [hfilter] at hrun
          simp only [bind, Except.bind, pure, Except.pure, hv]
          rcases hrun with ⟨⟨p, hp, hbad⟩, herr⟩ | ⟨fa', rest, hok, hran⟩
          · exact .inl ⟨⟨p, List.mem_cons_of_mem _ hp, hbad⟩, herr⟩
          · exact .inr ⟨fa', rest, hok, hran.scan ha hv htypea hbefore⟩

/-! ## The whole string -/

theorem has_maskOf (as : List Attr) (a : Attr) : has (maskOf as) a = decide (a ∈ as) := by
  have hfold (m : Mask) : has (as.foldl (fun m a => m ||| a.bit) m) a = (has m a || decide (a ∈ as)) := by
    induction as generalizing m with
    | nil => simp
    | cons b as ih => simp [ih, Bool.or_assoc, eq_comm]
  have hzero : has 0 a = false := by simp [has]
  rw [maskOf, hfold, hzero, Bool.false_or]

section Whole

variable {fflags : Bool} {ids : Ids} {s : List Byte} {mask : Mask} {type : FileType}
  {fields : List (Attr × List Byte)}

/-- What is left to read once the type is known. -/
theorem Describes.restOf (h : Describes s mask type fields) (fflags : Bool) (ids : Ids) :
    ∃ fa rest, fattrDecode fflags ids s = restOf fflags ids (fa, rest) ∧ fa.type = type ∧
      Spells rest (fields.map Prod.snd) ∧ ∀ a ∈ restAttrs, has fa.mask a = has mask a := by
  obtain ⟨val, hval, hspelled⟩ := h.spelled
  have hgood : ¬0 < (mask &&& ~~~faMask).toInt := by
    rw [h.known]
    decide
  split at hspelled
  · next htype =>
    obtain ⟨typeval, i, hi, rfl, rest, hpiece, rest', hpiece', hrest⟩ := hspelled
    refine ⟨{ fattrNew with mask := mask, type := .ofInt (BitVec.ofInt 32 i).toInt }, rest', ?_,
      rfl, hrest, fun _ _ => rfl⟩
    have hscan : fattrScanattr ids { fattrNew with mask := mask } .filetype rest =
        .ok ({ fattrNew with mask := mask, type := .ofInt (BitVec.ofInt 32 i).toInt }, rest') := by
      simp only [fattrScanattr, hpiece', scanValue, hi, bind, Except.bind, pure, Except.pure]
    rw [fattrDecode_eq, hpiece]
    simp only [bind, Except.bind, pure, Except.pure, hval, typeOf, if_neg hgood, htype, if_true,
      hscan]
  · next htype =>
    obtain ⟨rfl, rest, hpiece, hrest⟩ := hspelled
    refine ⟨{ fattrNew with mask := mask ||| Attr.filetype.bit }, rest, ?_, rfl, hrest,
      fun a ha => ?_⟩
    · rw [fattrDecode_eq, hpiece]
      simp only [bind, Except.bind, pure, Except.pure, hval, typeOf, if_neg hgood, if_neg htype]
    · have hne : Attr.filetype ≠ a := by
        rintro rfl
        exact absurd ha (by decide)
      simp [hne]

theorem ownFields_attrs :
    (ownFields fflags type fields).map Prod.fst =
      (fields.map Prod.fst).filter (has (fattrSupported fflags type)) := by
  rw [ownFields, List.filter_map]
  rfl

theorem length_ownFields : (ownFields fflags type fields).length ≤ (fields.map Prod.snd).length := by
  rw [List.length_map]
  exact List.length_filter_le _ _

/-- Each attribute that is supported has a text that is taken for it. -/
theorem exists_taken {p : Attr × List Byte} (hp : p ∈ ownFields fflags type fields) :
    ∃ q, (p, q) ∈ (ownFields fflags type fields).zip (fields.map Prod.snd) := by
  rw [← List.map_fst_zip length_ownFields] at hp
  obtain ⟨⟨p, q⟩, hmem, rfl⟩ := List.mem_map.mp hp
  exact ⟨q, hmem⟩

theorem mem_takenFields {a : Attr} {q : List Byte} :
    (a, q) ∈ takenFields fflags type fields ↔
      ∃ val, ((a, val), q) ∈ (ownFields fflags type fields).zip (fields.map Prod.snd) := by
  rw [takenFields, List.zip_map_left, List.mem_map]
  constructor
  · rintro ⟨⟨⟨b, val⟩, q'⟩, hmem, heq⟩
    obtain ⟨rfl, rfl⟩ := Prod.mk.inj heq
    exact ⟨val, hmem⟩
  · rintro ⟨val, hmem⟩
    exact ⟨_, hmem, rfl⟩

/-- The owner and the group are set just where their own texts set them. -/
theorem has_knownIds {fa : Fattr} {a : Attr} (ha : a = .owner ∨ a = .group)
    (hunset : a ∉ (ownFields fflags type fields).map Prod.fst → has fa.mask a = false)
    (hown : ∀ p ∈ ownFields fflags type fields, p.1 = a →
      reading ids fa.mask p.1 p.2 = .ok (slot fa p.1)) :
    has (knownIds fflags ids type fields) a = has fa.mask a := by
  have hmode : a ≠ .mode := by rcases ha with rfl | rfl <;> decide
  have hset (p : Attr × List Byte) (hp : p ∈ ownFields fflags type fields) (hpa : p.1 = a) :
      (reading ids 0 p.1 p.2).toOption.any Option.isSome = has fa.mask a := by
    rw [reading_mask ids 0 fa.mask (fun h => absurd (hpa ▸ h) hmode), hown p hp hpa, hpa]
    simp only [Except.toOption, Option.any_some, slot]
    split <;> simp_all
  rw [knownIds, has_maskOf]
  by_cases hmem : a ∈ (ownFields fflags type fields).map Prod.fst
  · obtain ⟨p, hp, rfl⟩ := List.mem_map.mp hmem
    rw [← hset p hp rfl]
    rcases hany : (reading ids 0 p.1 p.2).toOption.any Option.isSome with - | -
    · refine decide_eq_false fun hin => ?_
      obtain ⟨p', hp', heq⟩ := List.mem_map.mp hin
      obtain ⟨hp', hany'⟩ := List.mem_filter.mp hp'
      rw [hset p' hp' heq, ← hset p hp rfl, hany] at hany'
      exact absurd hany' (by decide)
    · exact decide_eq_true (List.mem_map.mpr ⟨p, List.mem_filter.mpr ⟨hp, hany⟩, rfl⟩)
  · rw [hunset hmem]
    refine decide_eq_false fun hin => hmem ?_
    obtain ⟨p, hp, rfl⟩ := List.mem_map.mp hin
    exact List.mem_map_of_mem (List.mem_of_mem_filter hp)

/-- With the owner and the group as their own texts have them, a mode is cut to the same bits. -/
theorem reading_knownIds {fa : Fattr}
    (hunset : ∀ a, a = .owner ∨ a = .group → a ∉ (ownFields fflags type fields).map Prod.fst →
      has fa.mask a = false)
    (hown : ∀ p ∈ ownFields fflags type fields, p.1 ≠ .mode →
      reading ids fa.mask p.1 p.2 = .ok (slot fa p.1)) (a : Attr) (val : List Byte) :
    reading ids (knownIds fflags ids type fields) a val = reading ids fa.mask a val := by
  refine reading_mask ids _ _ (fun _ => modemask_congr ?_ ?_) val
  · exact has_knownIds (.inl rfl) (hunset _ (.inl rfl)) fun p hp hpa =>
      hown p hp (by rw [hpa]; decide)
  · exact has_knownIds (.inr rfl) (hunset _ (.inr rfl)) fun p hp hpa =>
      hown p hp (by rw [hpa]; decide)

theorem type_of_valueOf {fa fa' : Fattr} (h : valueOf fa' .filetype = valueOf fa .filetype) :
    fa'.type = fa.type := by
  have hnum : fa'.type.num = fa.type.num := Sum.inl.inj h
  rcases h1 : fa'.type <;> rcases h2 : fa.type <;> simp_all [FileType.num]

/-- Each attribute that is supported has the value that its own text gives it, or nothing is
decoded, if and only if the first texts cannot be read for these attributes, or say the
same as their own. -/
theorem undisturbed_iff (h : Describes s mask type fields) :
    Undisturbed fflags ids s type fields ↔ Aligned fflags ids type fields := by
  obtain ⟨fa, rest, hdec, rfl, hspells, hmask⟩ := h.restOf fflags ids
  have hfilter : restAttrs.filter (has (fa.mask &&& fattrSupported fflags fa.type)) =
      (ownFields fflags fa.type fields).map Prod.fst := by
    rw [ownFields_attrs, h.order, List.filter_filter]
    exact List.filter_congr fun a ha => by rw [has_and, hmask a ha, Bool.and_comm]
  have hlen : (restAttrs.filter (has (fa.mask &&& fattrSupported fflags fa.type))).length ≤
      (fields.map Prod.snd).length := by
    rw [hfilter, List.length_map]
    exact length_ownFields
  have hrun := foldlM_stepOf fflags ids (by decide) (by decide) hspells
    (show (restAttrs.filter (has ({ fa with
      mask := fa.mask &&& fattrSupported fflags fa.type } : Fattr).mask)).length ≤ _ from hlen)
  rw [restOf_eq] at hdec
  rcases hrun with ⟨hbad, herr⟩ | ⟨fa', rest', hok, hran⟩
  · rw [herr] at hdec
    rw [hfilter] at hbad
    exact iff_of_true (.inl hdec) (.inl hbad)
  · rw [hok] at hdec
    have htaken : ∀ p ∈ takenFields fflags fa.type fields,
        reading ids fa'.mask p.1 p.2 = .ok (slot fa' p.1) := fun p hp =>
      hran.read p (by rw [hfilter]; exact hp)
    have hunset (a : Attr) (ha : a = .owner ∨ a = .group)
        (hno : a ∉ (ownFields fflags fa.type fields).map Prod.fst) : has fa'.mask a = false := by
      have hmem : a ∈ restAttrs := by rcases ha with rfl | rfl <;> decide
      refine hran.unset a (by rcases ha with rfl | rfl <;> decide) ?_
      rw [← hfilter, List.mem_filter, not_and] at hno
      exact Bool.eq_false_iff.mpr (hno hmem)
    constructor
    · rintro (herr | ⟨fa2, hok2, -, hown⟩)
      · exact nomatch hdec.symm.trans herr
      · obtain rfl : fa' = fa2 := Except.ok.inj (hdec.symm.trans hok2)
        have hown' (p : Attr × List Byte) (hp : p ∈ ownFields fflags fa.type fields) :=
          hown p (List.mem_filter.mp hp).1 (List.mem_filter.mp hp).2
        refine .inr fun ⟨p, q⟩ hpq => ?_
        rw [reading_knownIds hunset fun p hp _ => hown' p hp,
          reading_knownIds hunset fun p hp _ => hown' p hp,
          hown' p (List.of_mem_zip hpq).1, htaken (p.1, q) (mem_takenFields.mpr ⟨p.2, hpq⟩)]
    · rintro (⟨p, hp, hbad⟩ | hsame)
      · exact nomatch (htaken p hp).symm.trans ((reading_error _).mpr hbad)
      · have hown (p : Attr × List Byte) (hp : p ∈ ownFields fflags fa.type fields) :
            ∃ q, reading ids (knownIds fflags ids fa.type fields) p.1 p.2 =
                reading ids (knownIds fflags ids fa.type fields) p.1 q ∧
              reading ids fa'.mask p.1 q = .ok (slot fa' p.1) := by
          obtain ⟨q, hpq⟩ := exists_taken hp
          exact ⟨q, hsame _ hpq, htaken (p.1, q) (mem_takenFields.mpr ⟨p.2, hpq⟩)⟩
        have hids (p : Attr × List Byte) (hp : p ∈ ownFields fflags fa.type fields)
            (hno : p.1 ≠ .mode) : reading ids fa'.mask p.1 p.2 = .ok (slot fa' p.1) := by
          obtain ⟨q, hq, hread⟩ := hown p hp
          have hmask := reading_mask ids fa'.mask (knownIds fflags ids fa.type fields)
            fun h => absurd h hno
          rw [← hread, hmask, hq, hmask]
        refine .inr ⟨fa', hdec, type_of_valueOf hran.type, fun p hp hsup => ?_⟩
        obtain ⟨q, hq, hread⟩ := hown p (List.mem_filter.mpr ⟨hp, hsup⟩)
        rw [← reading_knownIds hunset hids, hq, reading_knownIds hunset hids, hread]

/-- Attributes that are not supported do no harm where they come last. -/
theorem aligned_of_append {own others : List (Attr × List Byte)}
    (hown : ∀ p ∈ own, has (fattrSupported fflags type) p.1 = true)
    (hothers : ∀ p ∈ others, has (fattrSupported fflags type) p.1 = false) :
    Aligned fflags ids type (own ++ others) := by
  have hfields : ownFields fflags type (own ++ others) = own := by
    rw [ownFields, List.filter_append, List.filter_eq_self.mpr hown,
      List.filter_eq_nil_iff.mpr fun p hp => by simp [hothers p hp], List.append_nil]
  have hzip : own.zip (own.map Prod.snd ++ others.map Prod.snd) = own.map fun p => (p, p.2) := by
    have happ : (own ++ []).zip (own.map Prod.snd ++ others.map Prod.snd) =
        own.zip (own.map Prod.snd) ++ [].zip (others.map Prod.snd) := List.zip_append (by simp)
    rw [List.append_nil, List.zip_nil_left, List.append_nil] at happ
    rw [happ, ← List.zip_map', List.map_id']
  refine .inr fun pq hpq => ?_
  rw [hfields, List.map_append, hzip] at hpq
  obtain ⟨p, -, rfl⟩ := List.mem_map.mp hpq
  rfl

end Whole

/-- A mode, the flags and the number of links. -/
def flaggedFile : List (Attr × List Byte) :=
  [(.mode, bytes "644".toList), (.flags, bytes "0".toList), (.linkcount, bytes "2".toList)]

theorem describes_flaggedFile : Describes (bytes "3#3811#13#6441#01#2".toList)
    (maskOf [.filetype, .mode, .flags, .linkcount]) .file flaggedFile where
  known := by decide
  order := by decide
  spelled := by
    refine ⟨bytes "381".toList, by decide +kernel, ?_⟩
    rw [if_pos (by decide)]
    refine ⟨bytes "1".toList, 1, by decide +kernel, rfl, ?_⟩
    exact ⟨bytes "1#13#6441#01#2".toList, by decide +kernel,
      bytes "3#6441#01#2".toList, by decide +kernel, bytes "1#01#2".toList, by decide +kernel,
      bytes "1#2".toList, by decide +kernel, [], by decide +kernel, rfl⟩

/-- With file flags all of it is supported. -/
theorem undisturbed_flaggedFile :
    Undisturbed true noIds (bytes "3#3811#13#6441#01#2".toList) .file flaggedFile ↔
      Aligned true noIds .file flaggedFile :=
  undisturbed_iff describes_flaggedFile

/-- Where files have no flags, the number of links is read from the text of the flags. -/
theorem not_undisturbed : ¬∀ fflags ids s mask type fields, Describes s mask type fields →
    Undisturbed fflags ids s type fields := by
  intro hall
  have hzero : (fattrDecode false noIds (bytes "3#3811#13#6441#01#2".toList)).map
      (fun fa => slot fa .linkcount) = .ok (some (.inl 0)) := by decide +kernel
  have htwo : reading noIds 0 .linkcount (bytes "2".toList) = .ok (some (.inl 2)) := by
    decide +kernel
  rcases hall false noIds _ _ _ _ describes_flaggedFile with herr | ⟨fa, hok, -, hown⟩
  · rw [herr] at hzero
    cases hzero
  · have hread := hown (.linkcount, bytes "2".toList) (by decide) (by decide)
    rw [reading_mask noIds fa.mask 0 fun h => absurd h (by decide), htwo] at hread
    rw [hok] at hzero
    rw [Except.map, ← Except.ok.inj hread] at hzero
    exact absurd hzero (by decide)

end Csup.Attrs
