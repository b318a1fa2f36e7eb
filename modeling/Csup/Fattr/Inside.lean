import Csup.Fattr.Pieces
import Csup.Framework.Cstring

/-!
# Attributes in memory

`fattr_scanattr` and `fattr_decode` on the array that holds the string: each
attribute is cut out by a NUL behind it, which is overwritten again. The length in
front of it is added to a pointer, so that it may lead anywhere: a sum wraps at
`2 ^ 64`.

* `scanattrAt_eq`: one attribute;
* `staysInside_iff`: nothing outside of the string is read or written, and the string
  is left as it was, just when no length leads out of it;
* `decodeAt_eq_none`: the array is given back as it was, so that a length that leads out
  is the only reason why there is no result;
* `decodeAt_fattrDecode`: where the lengths do not reach behind the string, this is
  `fattrDecode`.
-/

namespace Csup.Attrs

open Csup.Framework

/-! ## `fattr_scanattr` -/

/-- The text of an attribute, and where it begins and should end. -/
structure Text where
  val : List Byte
  attrstart : Nat
  attrend : Nat

/-- A number that ends at `attrend`. -/
def Text.wholeInt (t : Text) (base : Nat) : Except Stop Int :=
  match strtoll base t.val with
  | (i, rest, false) =>
    if t.attrstart + (t.val.length - rest.length) = t.attrend then .ok i else .error .bad
  | _ => .error .bad

def Text.wholeNat (t : Text) (base : Nat) : Except Stop Nat :=
  match strtoul base t.val with
  | (n, rest, false) =>
    if t.attrstart + (t.val.length - rest.length) = t.attrend then .ok n else .error .bad
  | _ => .error .bad

/-- The switch of `fattr_scanattr`. -/
def scanText (ids : Ids) (fa : Fattr) (a : Attr) (t : Text) : Except Stop Fattr :=
  match a with
  | .filetype => do return { fa with type := .ofInt (BitVec.ofInt 32 (← t.wholeInt 10)).toInt }
  | .modtime => do return { fa with modtime := BitVec.ofInt 64 (← t.wholeInt 10) }
  | .size => do return { fa with size := BitVec.ofInt 64 (← t.wholeInt 10) }
  | .linktarget => .ok { fa with linktarget := t.val }
  | .rdev => do return { fa with rdev := BitVec.ofInt 64 (← t.wholeInt 16) }
  | .owner => match ids.getuidbyname t.val with
    | some uid => .ok { fa with uid }
    | none => .ok { fa with mask := fa.mask &&& ~~~Attr.owner.bit }
  | .group => match ids.getgidbyname t.val with
    | some gid => .ok { fa with gid }
    | none => .ok { fa with mask := fa.mask &&& ~~~Attr.group.bit }
  | .mode => do
    return { fa with mode := BitVec.ofInt 32 (← t.wholeInt 8) &&& modemask fa.mask }
  | .flags => do return { fa with flags := BitVec.ofNat 32 (← t.wholeNat 16) }
  | .linkcount => do return { fa with linkcount := BitVec.ofInt 64 (← t.wholeInt 16) }
  | .dev => do return { fa with dev := BitVec.ofInt 64 (← t.wholeInt 16) }
  | .inode => do return { fa with inode := BitVec.ofInt 64 (← t.wholeInt 10) }

/-- The switch on `FA_MASK`. -/
def scanMask (t : Text) : Except Stop Mask := do return BitVec.ofInt 32 (← t.wholeInt 16)

/-- What an attribute is read into, and where the next one begins; `none` is the null
pointer. -/
abbrev Next (α : Type) := Option (α × Nat)

/-- `fattr_scanattr` at the offset `attr` of an array. -/
def scanattrAt {α : Type} (switch : Text → Except Stop α) (m : Cells) (attr : Nat) :
    Option (Cells × Next α) := do
  let s ← m.str attr
  let (attrlen, rest, errno) := strtoul 10 s
  let fin := attr + (s.length - rest.length)
  if errno then return (m, none)
  let c ← m.load fin
  if c ≠ 35 then return (m, none)
  let attrstart := fin + 1
  let attrend := (attrstart + attrlen) % 2 ^ 64
  let tmp ← m.load attrend
  let m ← m.store attrend 0
  let val ← m.str attrstart
  let r := (switch ⟨val, attrstart, attrend⟩).toOption
  let m ← m.store attrend tmp
  return (m, r.map (·, attrend))

/-! ## `fattr_decode` -/

/-- An attribute is read when it is in the mask. -/
def scanIfAt (ids : Ids) (a : Attr) (r : Cells × Next Fattr) : Option (Cells × Next Fattr) :=
  match r with
  | (m, none) => some (m, none)
  | (m, some (fa, next)) =>
    if has fa.mask a then scanattrAt (scanText ids fa a) m next else some (m, some (fa, next))

def scanLinkcountAt (fflags : Bool) (ids : Ids) (r : Cells × Next Fattr) :
    Option (Cells × Next Fattr) :=
  match r with
  | (m, none) => some (m, none)
  | (m, some (fa, next)) =>
    if has fa.mask .linkcount then scanattrAt (scanText ids fa .linkcount) m next
    else if has (fattrSupported fflags fa.type) .linkcount then
      some (m, some ({ fa with mask := fa.mask ||| Attr.linkcount.bit, linkcount := 1 }, next))
    else some (m, some (fa, next))

/-- The attributes behind the type. -/
def scanRestAt (fflags : Bool) (ids : Ids) (r : Cells × Next Fattr) :
    Option (Cells × Next Fattr) := do
  let r ← scanIfAt ids .modtime r
  let r ← scanIfAt ids .size r
  let r ← scanIfAt ids .linktarget r
  let r ← scanIfAt ids .rdev r
  let r ← scanIfAt ids .owner r
  let r ← scanIfAt ids .group r
  let r ← scanIfAt ids .mode r
  let r ← scanIfAt ids .flags r
  let r ← scanLinkcountAt fflags ids r
  let r ← scanIfAt ids .dev r
  scanIfAt ids .inode r

/-- `fattr_decode` once the type is known: what the type does not support is taken off the
mask. -/
def decodeRest (fflags : Bool) (ids : Ids) (r : Cells × Next Fattr) :
    Option (Cells × Option Fattr) :=
  match r with
  | (m, none) => some (m, none)
  | (m, some (fa, next)) => do
    let fa := { fa with mask := fa.mask &&& fattrSupported fflags fa.type }
    let r ← scanRestAt fflags ids (m, some (fa, next))
    return (r.1, r.2.map Prod.fst)

/-- `fattr_decode` once the mask is known. -/
def decodeType (fflags : Bool) (ids : Ids) (r : Cells × Next Mask) :
    Option (Cells × Option Fattr) :=
  match r with
  | (m, none) => some (m, none)
  | (m, some (mask, next)) =>
    let fa : Fattr := { fattrNew with mask }
    if 0 < (mask &&& ~~~faMask).toInt then some (m, none)
    else if has mask .filetype then
      scanattrAt (scanText ids fa .filetype) m next >>= decodeRest fflags ids
    else decodeRest fflags ids (m, some ({ fa with mask := mask ||| Attr.filetype.bit }, next))

/-- `fattr_decode` on an array. -/
def decodeAt (fflags : Bool) (ids : Ids) (m : Cells) : Option (Cells × Option Fattr) :=
  scanattrAt scanMask m 0 >>= decodeType fflags ids

/-- The string is decoded without an access outside of it, and left as it was. -/
def StaysInside (fflags : Bool) (ids : Ids) (s : List Byte) : Prop :=
  ∃ r, decodeAt fflags ids (Cells.terminated s) = some (Cells.terminated s, r)

/-! ## Lengths that lead out of a string -/

/-- Where the text behind the length at an offset begins, and where the length says that
it ends. -/
def span (s : List Byte) (attr : Nat) : Option (Nat × Nat) :=
  match strtoul 10 (s.drop attr) with
  | (attrlen, 35 :: rest, false) =>
    some (s.length - rest.length, (s.length - rest.length + attrlen) % 2 ^ 64)
  | _ => none

/-- The text between two offsets; one that ends before it begins is not cut. -/
def textAt (s : List Byte) (attrstart attrend : Nat) : Text where
  val := if attrstart ≤ attrend then (s.drop attrstart).take (attrend - attrstart)
    else s.drop attrstart
  attrstart := attrstart
  attrend := attrend

/-- The text of an attribute can be read. -/
def Text.reads (t : Text) : Attr → Bool
  | .linktarget | .owner | .group => true
  | .filetype | .modtime | .size | .inode => (t.wholeInt 10).isOk
  | .mode => (t.wholeInt 8).isOk
  | .flags => (t.wholeNat 16).isOk
  | .rdev | .linkcount | .dev => (t.wholeInt 16).isOk

/-- One of the lengths that are come to leads out of the string: those of the attributes
of the mask, up to the first that has no length or cannot be read. -/
def LeadsOut (s : List Byte) (mask : Mask) : List Attr → Nat → Prop
  | [], _ => False
  | a :: as, attr =>
    if has mask a then
      match span s attr with
      | none => False
      | some (attrstart, attrend) =>
        s.length < attrend ∨
          (textAt s attrstart attrend).reads a = true ∧ LeadsOut s mask as attrend
    else LeadsOut s mask as attr

/-- The attributes behind the type, in the order of `fattr_decode`. -/
def restAttrs : List Attr :=
  [.modtime, .size, .linktarget, .rdev, .owner, .group, .mode, .flags, .linkcount, .dev, .inode]

/-- The type that is read, if there is one in the mask. -/
def typeAt (s : List Byte) (mask : Mask) (attr : Nat) : FileType × Nat :=
  if has mask .filetype then
    match span s attr with
    | none => (.unknown, attr)
    | some (attrstart, attrend) =>
      match (textAt s attrstart attrend).wholeInt 10 with
      | .ok i => (.ofInt (BitVec.ofInt 32 i).toInt, attrend)
      | .error _ => (.unknown, attrend)
  else (.unknown, attr)

/-- The length of the mask, that of the type or that of an attribute which the type
supports leads out of the string. -/
def LengthLeadsOut (fflags : Bool) (s : List Byte) : Prop :=
  match span s 0 with
  | none => False
  | some (attrstart, attrend) =>
    s.length < attrend ∨
      match scanMask (textAt s attrstart attrend) with
      | .error _ => False
      | .ok mask =>
        ¬0 < (mask &&& ~~~faMask).toInt ∧
          (LeadsOut s mask [.filetype] attrend ∨
            LeadsOut s (mask &&& fattrSupported fflags (typeAt s mask attrend).1) restAttrs
              (typeAt s mask attrend).2)

/-! ## One attribute -/

theorem suffix_scanInt {base : Nat} {s rest : List Byte} {neg : Bool} {v : Nat}
    (h : scanInt base s = some (neg, v, rest)) : rest <:+ s := by
  have hskip (u : List Byte) : skipPrefix base u <:+ u := by
    unfold skipPrefix
    split
    · split
      · exact ⟨[_, _], rfl⟩
      · exact List.suffix_rfl
    · exact List.suffix_rfl
  have hsign (u : List Byte) (b : Bool) : (if b then u.tail else u) <:+ u := by
    split
    · exact List.tail_suffix u
    · exact List.suffix_rfl
  simp only [scanInt, Option.ite_none_left_eq_some, Option.some.injEq, Prod.mk.injEq] at h
  obtain ⟨-, -, -, rfl⟩ := h
  exact (List.dropWhile_suffix _).trans ((hskip _).trans
    ((hsign _ _).trans (List.dropWhile_suffix _)))

theorem suffix_strtoul (base : Nat) (s : List Byte) : (strtoul base s).2.1 <:+ s := by
  unfold strtoul
  split
  · exact List.suffix_rfl
  · next h =>
    split
    · exact suffix_scanInt h
    · exact suffix_scanInt h

theorem suffix_strtoll (base : Nat) (s : List Byte) : (strtoll base s).2.1 <:+ s := by
  unfold strtoll
  split
  · exact List.suffix_rfl
  · next neg v rest h =>
    refine Eq.subst (motive := fun u => u <:+ s) ?_ (suffix_scanInt h)
    dsimp only
    generalize (if neg then -(v : Int) else v) = i
    split
    · rfl
    · split <;> rfl

section Scan

variable {s : List Byte} (h : 0 ∉ s)
include h

/-- What `end` points to is behind the rest of the string. -/
theorem load_rest {rest : List Byte} (hrest : rest <:+ s) :
    (Cells.terminated s).load (s.length - rest.length) = some (rest.headD 0) := by
  obtain ⟨t, rfl⟩ := hrest
  rw [List.length_append, Nat.add_sub_cancel, Cells.load, Cells.terminated, List.append_assoc,
    List.getElem?_append_right (Nat.le_refl _), Nat.sub_self]
  cases rest <;> rfl

omit h in
theorem span_eq {attr attrlen : Nat} {rest : List Byte} {errno : Bool}
    (hscan : strtoul 10 (s.drop attr) = (attrlen, rest, errno)) (hlen : rest.length ≤ s.length) :
    span s attr =
      if errno = false ∧ rest.headD 0 = 35 then
        some (s.length - rest.length + 1, (s.length - rest.length + 1 + attrlen) % 2 ^ 64)
      else none := by
  rw [span, hscan]
  split
  · next n t heq =>
    cases heq
    rw [List.length_cons] at *
    have hbegin : s.length - t.length = s.length - (t.length + 1) + 1 := by omega
    rw [if_pos ⟨rfl, rfl⟩, ← hbegin]
  · next hne =>
    rw [if_neg]
    rintro ⟨rfl, hhead⟩
    match rest with
    | [] => exact absurd hhead (by decide)
    | c :: rest => exact hne _ _ (by rw [show c = 35 from hhead])

/-- The text is cut out, read and put back. -/
theorem scanCut_eq {α : Type} (switch : Text → Except Stop α) {attrstart : Nat}
    (hstart : attrstart ≤ s.length) (attrend : Nat) :
    (((Cells.terminated s).load attrend).bind fun tmp =>
      ((Cells.terminated s).store attrend 0).bind fun m =>
        (m.str attrstart).bind fun val =>
          (m.store attrend tmp).bind fun m =>
            some (m, (switch ⟨val, attrstart, attrend⟩).toOption.map (·, attrend))) =
      if attrend ≤ s.length then
        some (Cells.terminated s, (switch (textAt s attrstart attrend)).toOption.map (·, attrend))
      else none := by
  rcases hload : (Cells.terminated s).load attrend with - | tmp
  · have hout : ¬attrend ≤ s.length := fun hin => by
      have := Cells.load_isSome (m := Cells.terminated s) (i := attrend)
      rw [hload, Cells.length_terminated] at this
      exact absurd (this.mpr (Nat.lt_succ_of_le hin)) (by decide)
    rw [if_neg hout]
    rfl
  · have hin : attrend < (Cells.terminated s).length :=
      Cells.load_isSome.mp (by rw [hload]; rfl)
    have hle : attrend ≤ s.length := by
      rw [Cells.length_terminated] at hin
      exact Nat.le_of_lt_succ hin
    have hstr : Cells.str ((Cells.terminated s).set attrend 0) attrstart =
        some (textAt s attrstart attrend).val := by
      unfold textAt
      split
      · next hfwd => exact Cells.str_cut h hfwd hle
      · next hback => exact Cells.str_cut_before h (Nat.lt_of_not_le hback) hstart
    simp only [Cells.store, if_pos hin, if_pos hle, Option.bind_some, hstr]
    have hrestore := Cells.store_restore hload 0
    rw [Cells.store] at hrestore
    rw [hrestore, Option.bind_some]
    rfl

theorem scanattrAt_eq {α : Type} (switch : Text → Except Stop α) {attr : Nat}
    (hattr : attr ≤ s.length) :
    scanattrAt switch (Cells.terminated s) attr =
      match span s attr with
      | none => some (Cells.terminated s, none)
      | some (attrstart, attrend) =>
        if attrend ≤ s.length then
          some (Cells.terminated s,
            (switch (textAt s attrstart attrend)).toOption.map (·, attrend))
        else none := by
  rcases hscan : strtoul 10 (s.drop attr) with ⟨attrlen, rest, errno⟩
  have hsuf : rest <:+ s.drop attr := by simpa only [hscan] using suffix_strtoul 10 (s.drop attr)
  have hlen : rest.length ≤ s.length - attr := List.length_drop ▸ hsuf.length_le
  have hload := load_rest h (hsuf.trans (List.drop_suffix _ _))
  have hfin : attr + ((s.drop attr).length - rest.length) = s.length - rest.length := by
    rw [List.length_drop]
    omega
  rw [span_eq hscan (by omega)]
  simp only [scanattrAt, Cells.str_terminated h hattr, hscan, Option.bind_eq_bind,
    Option.bind_some, hfin]
  rcases errno with - | -
  · simp only [hload, Option.bind_some, Bool.false_eq_true, if_false, true_and, ne_eq, ite_not]
    split
    · next hhead =>
      have hpos : 0 < rest.length := by
        match rest with
        | [] => exact absurd hhead (by decide)
        | c :: rest => exact Nat.succ_pos _
      exact scanCut_eq h switch (by omega) _
    · rfl
  · rfl

end Scan

/-! ## All attributes -/

theorem isOk_bind_pure {α β : Type} (x : Except Stop α) (f : α → β) :
    (do return f (← x) : Except Stop β).isOk = x.isOk := by
  cases x <;> rfl

theorem scanText_isOk (ids : Ids) (fa : Fattr) (a : Attr) (t : Text) :
    (scanText ids fa a t).isOk = t.reads a := by
  cases a with
  | linktarget => rfl
  | owner => simp only [scanText]; split <;> rfl
  | group => simp only [scanText]; split <;> rfl
  | _ => exact isOk_bind_pure _ _

/-- Only the bit of the owner or the group itself is taken off the mask. -/
theorem scanText_mask {ids : Ids} {fa fa' : Fattr} {a b : Attr} {t : Text}
    (hok : scanText ids fa a t = .ok fa') (hb : b ≠ a) : has fa'.mask b = has fa.mask b := by
  cases a with
  | linktarget =>
    obtain rfl := Except.ok.inj hok
    rfl
  | owner | group =>
    simp only [scanText] at hok
    split at hok <;> obtain rfl := Except.ok.inj hok
    · rfl
    · simp [hb.symm]
  | _ =>
    simp only [scanText, Text.wholeInt, Text.wholeNat, bind, Except.bind] at hok
    split at hok
    · cases hok
    · obtain rfl := Except.ok.inj hok
      rfl

/-- The step of `fattr_decode` for an attribute. -/
def scanStepAt (fflags : Bool) (ids : Ids) (r : Cells × Next Fattr) (a : Attr) :
    Option (Cells × Next Fattr) :=
  if a = .linkcount then scanLinkcountAt fflags ids r else scanIfAt ids a r

theorem scanRestAt_eq (fflags : Bool) (ids : Ids) (r : Cells × Next Fattr) :
    scanRestAt fflags ids r = restAttrs.foldlM (scanStepAt fflags ids) r := by
  simp only [restAttrs, List.foldlM_cons, List.foldlM_nil, bind_pure]
  rfl

theorem foldlM_null (fflags : Bool) (ids : Ids) (m : Cells) (as : List Attr) :
    as.foldlM (scanStepAt fflags ids) (m, none) = some (m, none) := by
  have hstep (a : Attr) : scanStepAt fflags ids (m, none) a = some (m, none) := by
    unfold scanStepAt
    split <;> rfl
  induction as with
  | nil => rfl
  | cons a as ih => rw [List.foldlM_cons, hstep, Option.bind_eq_bind, Option.bind_some, ih]

theorem scanStepAt_has {fflags : Bool} {ids : Ids} {m : Cells} {fa : Fattr} {next : Nat} {a : Attr}
    (ha : has fa.mask a = true) :
    scanStepAt fflags ids (m, some (fa, next)) a = scanattrAt (scanText ids fa a) m next := by
  unfold scanStepAt
  split
  · next hl =>
    subst hl
    exact if_pos ha
  · exact if_pos ha

/-- An attribute that is not in the mask is passed over. -/
theorem scanStepAt_skip (fflags : Bool) (ids : Ids) (m : Cells) {fa : Fattr} (next : Nat) {a : Attr}
    (ha : has fa.mask a = false) :
    ∃ fa', scanStepAt fflags ids (m, some (fa, next)) a = some (m, some (fa', next)) ∧
      ∀ b, b ≠ a → has fa'.mask b = has fa.mask b := by
  have hno : ¬has fa.mask a = true := by simp [ha]
  unfold scanStepAt
  split
  · next hl =>
    subst hl
    simp only [scanLinkcountAt, if_neg hno]
    split
    · exact ⟨_, rfl, fun b hb => by simp [hb.symm]⟩
    · exact ⟨fa, rfl, fun _ _ => rfl⟩
  · exact ⟨fa, if_neg hno, fun _ _ => rfl⟩

/-- A computation on the array of `s` that leaves it as it was. -/
def Leaves (s : List Byte) {α : Type} (x : Option (Cells × α)) : Prop :=
  ∃ r, x = some (Cells.terminated s, r)

section Decode

variable {s : List Byte} (h : 0 ∉ s)
include h

/-- An attribute and what is done behind it. -/
theorem leaves_scan {α β : Type} (switch : Text → Except Stop α) {attr : Nat}
    (hattr : attr ≤ s.length) {k : Cells × Next α → Option (Cells × β)}
    (hnull : Leaves s (k (Cells.terminated s, none))) :
    Leaves s (scanattrAt switch (Cells.terminated s) attr >>= k) ↔
      ∀ attrstart attrend, span s attr = some (attrstart, attrend) →
        attrend ≤ s.length ∧ ∀ v, switch (textAt s attrstart attrend) = .ok v →
          Leaves s (k (Cells.terminated s, some (v, attrend))) := by
  rw [scanattrAt_eq h switch hattr]
  rcases span s attr with - | ⟨attrstart, attrend⟩
  · exact iff_of_true hnull fun _ _ hs => nomatch hs
  simp only [Option.some.injEq, Prod.mk.injEq, and_imp, forall_apply_eq_imp_iff, forall_eq']
  split
  · next hin =>
    have hbind : ∀ r, (some (Cells.terminated s, r) >>= k) = k (Cells.terminated s, r) :=
      fun _ => rfl
    rw [hbind]
    rcases switch (textAt s attrstart attrend) with - | v
    · exact iff_of_true hnull ⟨hin, fun _ hv => nomatch hv⟩
    · exact ⟨fun hk => ⟨hin, fun _ hv => Except.ok.inj hv ▸ hk⟩, fun hk => hk.2 v rfl⟩
  · next hout => exact iff_of_false (fun ⟨_, hr⟩ => nomatch hr) fun hin => hout hin.1

/-- The attributes of the mask, from one that begins in the string. -/
theorem leaves_foldlM (fflags : Bool) (ids : Ids) {mask : Mask} {as : List Attr}
    (hnodup : as.Nodup) (fa : Fattr) (hmask : ∀ a ∈ as, has fa.mask a = has mask a) {next : Nat}
    (hnext : next ≤ s.length) :
    Leaves s (as.foldlM (scanStepAt fflags ids) (Cells.terminated s, some (fa, next))) ↔
      ¬LeadsOut s mask as next := by
  induction as generalizing fa next with
  | nil => exact iff_of_true ⟨_, rfl⟩ fun hout => hout
  | cons a as ih =>
    obtain ⟨hnew, hnodup⟩ := List.nodup_cons.mp hnodup
    have ha := hmask a List.mem_cons_self
    have hrest (fa' : Fattr) (hfa : ∀ b, b ≠ a → has fa'.mask b = has fa.mask b) :
        ∀ b ∈ as, has fa'.mask b = has mask b := fun b hb => by
      rw [hfa b fun heq => hnew (heq ▸ hb), hmask b (List.mem_cons_of_mem _ hb)]
    rw [List.foldlM_cons, LeadsOut]
    rcases hin : has mask a with - | -
    · obtain ⟨fa', hstep, hfa⟩ :=
        scanStepAt_skip fflags ids (Cells.terminated s) next (ha.trans hin)
      rw [hstep, if_neg (by simp)]
      exact ih hnodup fa' (hrest fa' hfa) hnext
    · rw [scanStepAt_has (ha.trans hin), if_pos rfl,
        leaves_scan h _ hnext ⟨none, foldlM_null fflags ids _ as⟩]
      rcases span s next with - | ⟨attrstart, attrend⟩
      · exact iff_of_true (fun _ _ hs => nomatch hs) fun hout => hout
      simp only [Option.some.injEq, Prod.mk.injEq, and_imp, forall_apply_eq_imp_iff, forall_eq',
        not_or, not_lt, not_and]
      refine and_congr_right fun hin => ?_
      have hreads := scanText_isOk ids fa a (textAt s attrstart attrend)
      rcases hv : scanText ids fa a (textAt s attrstart attrend) with e | fa'
      · rw [hv] at hreads
        exact iff_of_true (fun _ hok => nomatch hok) fun hr => nomatch hreads.trans hr
      · rw [hv] at hreads
        have hnext := ih hnodup fa' (hrest fa' fun b hb => scanText_mask hv hb) hin
        exact ⟨fun hk _ => hnext.mp (hk fa' rfl),
          fun hk _ hok => Except.ok.inj hok ▸ hnext.mpr (hk hreads.symm)⟩

/-- What is behind the type. -/
theorem leaves_decodeRest (fflags : Bool) (ids : Ids) (fa : Fattr) {next : Nat}
    (hnext : next ≤ s.length) :
    Leaves s (decodeRest fflags ids (Cells.terminated s, some (fa, next))) ↔
      ¬LeadsOut s (fa.mask &&& fattrSupported fflags fa.type) restAttrs next := by
  rw [decodeRest, scanRestAt_eq, ← leaves_foldlM h fflags ids (by decide)
    { fa with mask := fa.mask &&& fattrSupported fflags fa.type } (fun a _ => rfl) hnext]
  constructor
  · rintro ⟨r, hr⟩
    obtain ⟨x, hx, hxr⟩ := Option.bind_eq_some_iff.mp hr
    exact ⟨x.2, by rw [hx, ← (Prod.mk.inj (Option.some.inj hxr)).1]⟩
  · rintro ⟨r, hr⟩
    rw [hr]
    exact ⟨_, rfl⟩

omit h in
theorem not_leadsOut_zero (as : List Attr) (next : Nat) : ¬LeadsOut s 0 as next := by
  induction as with
  | nil => exact fun hout => hout
  | cons a as ih =>
    rw [LeadsOut, if_neg (by simp [has])]
    exact ih

/-- The type and what is behind it. -/
theorem leaves_decodeType (fflags : Bool) (ids : Ids) {mask : Mask}
    (hmask : ¬0 < (mask &&& ~~~faMask).toInt) {next : Nat} (hnext : next ≤ s.length) :
    Leaves s (decodeType fflags ids (Cells.terminated s, some (mask, next))) ↔
      ¬(LeadsOut s mask [.filetype] next ∨
        LeadsOut s (mask &&& fattrSupported fflags (typeAt s mask next).1) restAttrs
          (typeAt s mask next).2) := by
  have hunknown (attr : Nat) :
      ¬LeadsOut s (mask &&& fattrSupported fflags .unknown) restAttrs attr := by
    have hzero : mask &&& fattrSupported fflags .unknown = 0 := BitVec.and_zero
    rw [hzero]
    exact not_leadsOut_zero _ _
  simp only [decodeType, if_neg hmask, LeadsOut, typeAt]
  split
  · rw [leaves_scan h _ hnext (k := decodeRest fflags ids) ⟨none, rfl⟩]
    rcases span s next with - | ⟨attrstart, attrend⟩
    · exact iff_of_true (fun _ _ hs => nomatch hs) fun hout => hout.elim id (hunknown _)
    simp only [Option.some.injEq, Prod.mk.injEq, and_imp, forall_apply_eq_imp_iff, forall_eq',
      and_false, or_false, not_or, not_lt]
    refine and_congr_right fun hin => ?_
    simp only [scanText]
    rcases (textAt s attrstart attrend).wholeInt 10 with - | i
    · exact iff_of_true (fun _ hok => nomatch hok) (hunknown _)
    · simp only [bind, Except.bind, pure, Except.pure, Except.ok.injEq, forall_eq']
      exact leaves_decodeRest h fflags ids _ hin
  · rw [leaves_decodeRest h fflags ids _ hnext]
    have hnone (as : Mask) : as &&& fattrSupported fflags fattrNew.type = 0 := BitVec.and_zero
    simp only [hnone, false_or]
    exact iff_of_true (not_leadsOut_zero _ _) (hunknown _)

/-- A string is decoded without an access outside of it if and only if no length that is
come to leads out of it. -/
theorem staysInside_iff (fflags : Bool) (ids : Ids) :
    StaysInside fflags ids s ↔ ¬LengthLeadsOut fflags s := by
  show Leaves s (decodeAt fflags ids (Cells.terminated s)) ↔ _
  rw [decodeAt, leaves_scan h _ (Nat.zero_le _) (k := decodeType fflags ids) ⟨none, rfl⟩,
    LengthLeadsOut]
  rcases span s 0 with - | ⟨attrstart, attrend⟩
  · exact iff_of_true (fun _ _ hs => nomatch hs) fun hout => hout
  simp only [Option.some.injEq, Prod.mk.injEq, and_imp, forall_apply_eq_imp_iff, forall_eq']
  rw [not_or, not_lt]
  refine and_congr_right fun hin => ?_
  rcases scanMask (textAt s attrstart attrend) with - | mask
  · exact iff_of_true (fun _ hv => nomatch hv) fun hout => hout
  simp only [Except.ok.injEq, forall_eq']
  rcases Classical.em (0 < (mask &&& ~~~faMask).toInt) with hbad | hgood
  · exact iff_of_true ⟨none, if_pos hbad⟩ fun hout => hout.1 hbad
  · rw [leaves_decodeType h fflags ids hgood hin, not_and, imp_iff_right hgood]

end Decode

/-- A system without users and groups. -/
def noIds : Ids := ⟨fun _ => none, fun _ => none, fun _ => none, fun _ => none⟩

/-- A file of size 5 that says nothing else. -/
theorem staysInside_iff_size : StaysInside false noIds (bytes "1#51#11#5".toList) ↔
    ¬LengthLeadsOut false (bytes "1#51#11#5".toList) :=
  staysInside_iff (by decide) _ _

/-- A length of nine in front of nothing. -/
theorem not_staysInside : ¬∀ fflags ids s, 0 ∉ s → StaysInside fflags ids s := by
  intro hall
  obtain ⟨r, hr⟩ := hall false noIds (bytes "9#".toList) (by decide)
  have hnone : decodeAt false noIds (Cells.terminated (bytes "9#".toList)) = none := by
    decide +kernel
  rw [hnone] at hr
  cases hr

/-! ## What is left in memory -/

/-- The array is as it was. -/
def Restored (m : Cells) {α : Type} (x : Option (Cells × α)) : Prop :=
  ∀ m' r, x = some (m', r) → m' = m

theorem Restored.bind {m : Cells} {α β : Type} {x : Option (Cells × α)}
    {k : Cells × α → Option (Cells × β)} (hx : Restored m x) (hk : ∀ r, Restored m (k (m, r))) :
    Restored m (x >>= k) := by
  rcases x with - | ⟨m', r⟩
  · exact fun _ _ h => nomatch h
  · obtain rfl := hx m' r rfl
    exact hk r

theorem restored_pure {m : Cells} {α : Type} (r : α) : Restored m (some (m, r)) := by
  rintro m' r' ⟨⟩
  rfl

/-- A value is read first. -/
theorem Restored.read {m : Cells} {α γ : Type} {x : Option γ} {k : γ → Option (Cells × α)}
    (h : ∀ c, x = some c → Restored m (k c)) : Restored m (x >>= k) := by
  rcases x with - | c
  · exact fun _ _ h => nomatch h
  · exact h c rfl

/-- The byte behind the text is written back. -/
theorem restored_scanattr {α : Type} (switch : Text → Except Stop α) (m : Cells) (attr : Nat) :
    Restored m (scanattrAt switch m attr) := by
  unfold scanattrAt
  refine Restored.read fun s _ => ?_
  dsimp only
  split
  · exact restored_pure _
  refine Restored.read fun c _ => ?_
  split
  · exact restored_pure _
  refine Restored.read fun tmp hload => Restored.read fun m1 hstore => ?_
  refine Restored.read fun val _ => Restored.read fun m2 hback => ?_
  rw [Cells.store, Option.ite_none_right_eq_some] at hstore
  obtain ⟨-, hset⟩ := hstore
  cases hset
  obtain rfl : m = m2 := Option.some.inj ((Cells.store_restore hload 0).symm.trans hback)
  exact restored_pure _

theorem restored_scanIf (ids : Ids) (a : Attr) (m : Cells) (r : Next Fattr) :
    Restored m (scanIfAt ids a (m, r)) := by
  rcases r with - | ⟨fa, next⟩
  · exact restored_pure _
  · rw [scanIfAt]
    split
    · exact restored_scanattr _ _ _
    · exact restored_pure _

theorem restored_scanLinkcount (fflags : Bool) (ids : Ids) (m : Cells) (r : Next Fattr) :
    Restored m (scanLinkcountAt fflags ids (m, r)) := by
  rcases r with - | ⟨fa, next⟩
  · exact restored_pure _
  · rw [scanLinkcountAt]
    split_ifs
    · exact restored_scanattr _ _ _
    · exact restored_pure _
    · exact restored_pure _

theorem restored_decodeRest (fflags : Bool) (ids : Ids) (m : Cells) (r : Next Fattr) :
    Restored m (decodeRest fflags ids (m, r)) := by
  rcases r with - | ⟨fa, next⟩
  · exact restored_pure _
  · refine Restored.bind (x := scanRestAt fflags ids _) ?_ fun _ => restored_pure _
    unfold scanRestAt
    iterate 8 refine (restored_scanIf ids _ m _).bind fun _ => ?_
    refine (restored_scanLinkcount fflags ids m _).bind fun _ => ?_
    exact (restored_scanIf ids _ m _).bind fun _ => restored_scanIf ids _ m _

theorem restored_decodeType (fflags : Bool) (ids : Ids) (m : Cells) (r : Next Mask) :
    Restored m (decodeType fflags ids (m, r)) := by
  rcases r with - | ⟨mask, next⟩
  · exact restored_pure _
  · rw [decodeType]
    dsimp only
    split_ifs
    · exact restored_pure _
    · exact (restored_scanattr _ m _).bind fun _ => restored_decodeRest fflags ids m _
    · exact restored_decodeRest fflags ids m _

/-- Decoding has no result if and only if a length leads out of the string. -/
theorem decodeAt_eq_none {s : List Byte} (h : 0 ∉ s) (fflags : Bool) (ids : Ids) :
    decodeAt fflags ids (Cells.terminated s) = none ↔ LengthLeadsOut fflags s := by
  have hkeeps : Restored (Cells.terminated s) (decodeAt fflags ids (Cells.terminated s)) :=
    (restored_scanattr _ _ _).bind fun _ => restored_decodeType fflags ids _ _
  have hinside := staysInside_iff h fflags ids
  unfold StaysInside at hinside
  rcases hd : decodeAt fflags ids (Cells.terminated s) with - | ⟨m, r⟩
  · rw [hd] at hinside
    exact iff_of_true rfl (not_not.mp fun hin => by simpa using hinside.mpr hin)
  · rw [hd] at hinside
    obtain rfl := hkeeps m r hd
    exact iff_of_false (by simp) (hinside.mp ⟨r, rfl⟩)
/-! ## The strings of `fattrDecode` -/

/-- `fattrDecode` behind the type. -/
def restOf (fflags : Bool) (ids : Ids) (r : Fattr × List Byte) : Except Stop Fattr := do
  let fa := { r.1 with mask := r.1.mask &&& fattrSupported fflags r.1.type }
  let r ← scanIf ids .modtime (fa, r.2)
  let r ← scanIf ids .size r
  let r ← scanIf ids .linktarget r
  let r ← scanIf ids .rdev r
  let r ← scanIf ids .owner r
  let r ← scanIf ids .group r
  let r ← scanIf ids .mode r
  let r ← scanIf ids .flags r
  let r ← scanLinkcount fflags ids r
  let r ← scanIf ids .dev r
  let r ← scanIf ids .inode r
  return r.1

/-- `fattrDecode` behind the mask. -/
def typeOf (fflags : Bool) (ids : Ids) (r : Mask × List Byte) : Except Stop Fattr :=
  let fa : Fattr := { fattrNew with mask := r.1 }
  if 0 < (r.1 &&& ~~~faMask).toInt then .error .bad
  else if has r.1 .filetype then fattrScanattr ids fa .filetype r.2 >>= restOf fflags ids
  else restOf fflags ids ({ fa with mask := r.1 ||| Attr.filetype.bit }, r.2)

def maskIn (val : List Byte) : Except Stop Mask := do return BitVec.ofInt 32 (← wholeInt 16 val)

theorem fattrDecode_eq (fflags : Bool) (ids : Ids) (s : List Byte) :
    fattrDecode fflags ids s = (do
      let (val, next) ← scanPiece s
      let mask ← maskIn val
      return (mask, next)) >>= typeOf fflags ids := by
  unfold fattrDecode
  rcases scanPiece s with - | ⟨val, next⟩
  · rfl
  show (wholeInt 16 val >>= _) = ((wholeInt 16 val >>= _) >>= _) >>= _
  rcases wholeInt 16 val with - | i
  · rfl
  have hok {α : Type} (f : Int → Except Stop α) : (Except.ok i >>= f) = f i := rfl
  simp only [hok, pure_bind, typeOf]
  split <;> rfl

section Agrees

variable {s : List Byte}

/-- The same is read from the string and from its array, where the string says what is
read. -/
def Agrees (s : List Byte) {α : Type} (x : Except Stop (α × List Byte))
    (y : Option (Cells × Next α)) : Prop :=
  match x with
  | .error .undefined => True
  | .error .bad => y = some (Cells.terminated s, none)
  | .ok (v, rest) => ∃ next ≤ s.length, rest = s.drop next ∧
      y = some (Cells.terminated s, some (v, next))

/-- The same comes of a string and of its array. -/
def Results (s : List Byte) (x : Except Stop Fattr) (y : Option (Cells × Option Fattr)) : Prop :=
  x ≠ .error .undefined → y = some (Cells.terminated s, x.toOption)

theorem results_bind {α : Type} {x : Except Stop (α × List Byte)} {y : Option (Cells × Next α)}
    {f : α × List Byte → Except Stop Fattr} {g : Cells × Next α → Option (Cells × Option Fattr)}
    (h : Agrees s x y) (hnull : g (Cells.terminated s, none) = some (Cells.terminated s, none))
    (hf : ∀ v next, next ≤ s.length →
      Results s (f (v, s.drop next)) (g (Cells.terminated s, some (v, next)))) :
    Results s (x >>= f) (y >>= g) := by
  match x, h with
  | .error .undefined, _ => exact fun hdef => absurd rfl hdef
  | .error .bad, h =>
    obtain rfl := h
    exact fun _ => hnull
  | .ok (v, rest), h =>
    obtain ⟨next, hnext, rfl, rfl⟩ := h
    exact hf v next hnext

/-- The texts of lengths that do not lead behind the string. -/
theorem scanPiece_span (hlen : s.length < 2 ^ 64) (attr : Nat) :
    match scanPiece (s.drop attr) with
    | .error .undefined => True
    | .error .bad => span s attr = none
    | .ok (val, rest) => ∃ attrstart attrend, span s attr = some (attrstart, attrend) ∧
        attrstart ≤ attrend ∧ attrend ≤ s.length ∧ val = (textAt s attrstart attrend).val ∧
        rest = s.drop attrend := by
  by_cases hsharp : ∃ attrlen t, strtoul 10 (s.drop attr) = (attrlen, 35 :: t, false)
  · obtain ⟨attrlen, t, hscan⟩ := hsharp
    have hsuf : 35 :: t <:+ s := by
      have := suffix_strtoul 10 (s.drop attr)
      rw [hscan] at this
      exact this.trans (List.drop_suffix _ _)
    have htail : t <:+ s := (List.suffix_cons _ _).trans hsuf
    have hdrop : t = s.drop (s.length - t.length) := List.suffix_iff_eq_drop.mp htail
    have ht := htail.length_le
    rw [scanPiece, span, hscan]
    rcases Nat.lt_or_ge t.length attrlen with hout | hin
    · simp only [if_pos hout]
    · simp only [if_neg (Nat.not_lt.mpr hin)]
      have hwrap : (s.length - t.length + attrlen) % 2 ^ 64 = s.length - t.length + attrlen :=
        Nat.mod_eq_of_lt (by omega)
      refine ⟨_, _, rfl, ?_⟩
      rw [hwrap, textAt, if_pos (by omega), Nat.add_sub_cancel_left, ← List.drop_drop, ← hdrop]
      exact ⟨by omega, by omega, rfl, rfl⟩
  · have hpiece : scanPiece (s.drop attr) = .error .bad := by
      unfold scanPiece
      split
      · next hscan => exact absurd ⟨_, _, hscan⟩ hsharp
      · rfl
    rw [hpiece]
    show span s attr = none
    unfold span
    split
    · next hscan => exact absurd ⟨_, _, hscan⟩ hsharp
    · rfl

/-- A number that takes up its text ends where the text does. -/
theorem ends_textAt {attrstart attrend : Nat} (hle : attrstart ≤ attrend)
    (hend : attrend ≤ s.length) {rest : List Byte}
    (hrest : rest <:+ (textAt s attrstart attrend).val) :
    attrstart + ((textAt s attrstart attrend).val.length - rest.length) = attrend ↔ rest = [] := by
  have hval : (textAt s attrstart attrend).val.length = attrend - attrstart := by
    rw [textAt, if_pos hle, List.length_take, List.length_drop]
    omega
  have hlen := hrest.length_le
  rw [← List.length_eq_zero_iff, hval]
  omega

theorem wholeInt_textAt (base : Nat) {attrstart attrend : Nat} (hle : attrstart ≤ attrend)
    (hend : attrend ≤ s.length) :
    (textAt s attrstart attrend).wholeInt base =
      wholeInt base (textAt s attrstart attrend).val := by
  have hsuf := suffix_strtoll base (textAt s attrstart attrend).val
  unfold Text.wholeInt wholeInt
  rcases hscan : strtoll base (textAt s attrstart attrend).val with ⟨i, rest, errno⟩
  rw [hscan] at hsuf
  have hends := ends_textAt hle hend hsuf
  match errno, rest, hends with
  | true, [], _ => rfl
  | true, c :: rest, _ => rfl
  | false, [], hends => exact if_pos (hends.mpr rfl)
  | false, c :: rest, hends => exact if_neg fun h => nomatch hends.mp h

theorem wholeNat_textAt (base : Nat) {attrstart attrend : Nat} (hle : attrstart ≤ attrend)
    (hend : attrend ≤ s.length) :
    (textAt s attrstart attrend).wholeNat base =
      wholeNat base (textAt s attrstart attrend).val := by
  have hsuf := suffix_strtoul base (textAt s attrstart attrend).val
  unfold Text.wholeNat wholeNat
  rcases hscan : strtoul base (textAt s attrstart attrend).val with ⟨n, rest, errno⟩
  rw [hscan] at hsuf
  have hends := ends_textAt hle hend hsuf
  match errno, rest, hends with
  | true, [], _ => rfl
  | true, c :: rest, _ => rfl
  | false, [], hends => exact if_pos (hends.mpr rfl)
  | false, c :: rest, hends => exact if_neg fun h => nomatch hends.mp h

theorem scanText_textAt (ids : Ids) (fa : Fattr) (a : Attr) {attrstart attrend : Nat}
    (hle : attrstart ≤ attrend) (hend : attrend ≤ s.length) :
    scanText ids fa a (textAt s attrstart attrend) =
      scanValue ids fa (textAt s attrstart attrend).val a := by
  cases a with
  | linktarget | owner | group => rfl
  | _ => simp only [scanText, scanValue, wholeInt_textAt _ hle hend, wholeNat_textAt _ hle hend]

theorem wholeInt_defined (base : Nat) (val : List Byte) :
    wholeInt base val ≠ .error .undefined := by
  unfold wholeInt
  split <;> exact fun hx => nomatch hx

theorem bind_defined {α β : Type} {x : Except Stop α} (hx : x ≠ .error .undefined) (f : α → β) :
    (do return f (← x) : Except Stop β) ≠ .error .undefined := by
  match x with
  | .error .undefined => exact absurd rfl hx
  | .error .bad => exact fun hx => nomatch hx
  | .ok _ => exact fun hx => nomatch hx

theorem scanValue_defined (ids : Ids) (fa : Fattr) (a : Attr) (val : List Byte) :
    scanValue ids fa val a ≠ .error .undefined := by
  have hnat (base : Nat) : wholeNat base val ≠ .error .undefined := by
    unfold wholeNat
    split <;> exact fun hx => nomatch hx
  cases a with
  | linktarget => exact fun hx => nomatch hx
  | owner => simp only [scanValue]; split <;> exact fun hx => nomatch hx
  | group => simp only [scanValue]; split <;> exact fun hx => nomatch hx
  | flags => exact bind_defined (hnat _) _
  | _ => exact bind_defined (wholeInt_defined _ _) _

variable (h : 0 ∉ s) (hlen : s.length < 2 ^ 64)
include h hlen

theorem agrees_scan {α : Type} (switch : Text → Except Stop α) (value : List Byte → Except Stop α)
    (hswitch : ∀ attrstart attrend, attrstart ≤ attrend → attrend ≤ s.length →
      switch (textAt s attrstart attrend) = value (textAt s attrstart attrend).val)
    (hbad : ∀ val, value val ≠ .error .undefined) {attr : Nat} (hattr : attr ≤ s.length) :
    Agrees s (do
      let (val, next) ← scanPiece (s.drop attr)
      let v ← value val
      return (v, next)) (scanattrAt switch (Cells.terminated s) attr) := by
  have hspan := scanPiece_span hlen attr
  rw [scanattrAt_eq h switch hattr]
  rcases hpiece : scanPiece (s.drop attr) with e | ⟨val, rest⟩
  · rw [hpiece] at hspan
    match e with
    | .undefined => exact trivial
    | .bad =>
      rw [show span s attr = none from hspan]
      exact rfl
  · rw [hpiece] at hspan
    obtain ⟨attrstart, attrend, hspan, hle, hend, rfl, rfl⟩ := hspan
    rw [hspan]
    simp only [if_pos hend, hswitch _ _ hle hend, bind, Except.bind]
    rcases hv : value (textAt s attrstart attrend).val with e | v
    · match e with
      | .undefined => exact absurd hv (hbad _)
      | .bad => exact rfl
    · exact ⟨attrend, hend, rfl, rfl⟩

theorem agrees_scanattr (ids : Ids) (fa : Fattr) (a : Attr) {next : Nat}
    (hnext : next ≤ s.length) :
    Agrees s (fattrScanattr ids fa a (s.drop next))
      (scanattrAt (scanText ids fa a) (Cells.terminated s) next) :=
  agrees_scan h hlen _ (fun val => scanValue ids fa val a)
    (fun _ _ => scanText_textAt ids fa a) (scanValue_defined ids fa a) hnext

theorem agrees_scanIf (ids : Ids) (fa : Fattr) (a : Attr) {next : Nat} (hnext : next ≤ s.length) :
    Agrees s (scanIf ids a (fa, s.drop next))
      (scanIfAt ids a (Cells.terminated s, some (fa, next))) := by
  unfold scanIf scanIfAt
  dsimp only
  split
  · exact agrees_scanattr h hlen ids fa a hnext
  · exact ⟨next, hnext, rfl, rfl⟩

theorem agrees_scanLinkcount (fflags : Bool) (ids : Ids) (fa : Fattr) {next : Nat}
    (hnext : next ≤ s.length) :
    Agrees s (scanLinkcount fflags ids (fa, s.drop next))
      (scanLinkcountAt fflags ids (Cells.terminated s, some (fa, next))) := by
  unfold scanLinkcount scanLinkcountAt
  dsimp only
  split
  · exact agrees_scanattr h hlen ids fa _ hnext
  · split <;> exact ⟨next, hnext, rfl, rfl⟩

/-- Where its lengths do not reach behind the string, it is decoded as `fattrDecode` says. -/
theorem decodeAt_fattrDecode (fflags : Bool) (ids : Ids) :
    Results s (fattrDecode fflags ids s) (decodeAt fflags ids (Cells.terminated s)) := by
  have hmask := agrees_scan h hlen scanMask maskIn
    (fun _ _ hle hend => by rw [scanMask, maskIn, wholeInt_textAt _ hle hend])
    (fun val => bind_defined (wholeInt_defined _ val) _) (Nat.zero_le _)
  have hrest (fa : Fattr) {next : Nat} (hnext : next ≤ s.length) :
      Results s (restOf fflags ids (fa, s.drop next))
        (decodeRest fflags ids (Cells.terminated s, some (fa, next))) := by
    simp only [restOf, decodeRest, scanRestAt, bind_assoc]
    iterate 8
      refine results_bind (agrees_scanIf h hlen ids _ _ ‹_›) rfl fun _ _ _ => ?_
    refine results_bind (agrees_scanLinkcount h hlen fflags ids _ ‹_›) rfl fun _ _ _ => ?_
    iterate 2
      refine results_bind (agrees_scanIf h hlen ids _ _ ‹_›) rfl fun _ _ _ => ?_
    exact fun _ => rfl
  rw [fattrDecode_eq, decodeAt]
  refine results_bind hmask rfl fun mask next hnext => ?_
  simp only [typeOf, decodeType]
  split
  · exact fun _ => rfl
  · split
    · exact results_bind (agrees_scanattr h hlen ids _ _ hnext) rfl fun fa _ hnext => hrest fa hnext
    · exact hrest _ hnext

end Agrees

end Csup.Attrs
