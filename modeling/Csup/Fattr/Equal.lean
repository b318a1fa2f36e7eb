import Csup.Fattr.Pieces

/-!
# Attributes compared: `fattr_equal`

The attributes that both have are compared (`fattrEqual_iff`); a file of unknown type is
equal to none.
-/

namespace Csup.Attrs

/-- The values of an attribute are the same. -/
def Same (fa1 fa2 : Fattr) : Attr → Prop
  | .filetype => fa1.type = fa2.type
  | .modtime => fa1.modtime = fa2.modtime
  | .size => fa1.size = fa2.size
  | .linktarget => fa1.linktarget = fa2.linktarget
  | .rdev => fa1.rdev = fa2.rdev
  | .owner => fa1.uid = fa2.uid
  | .group => fa1.gid = fa2.gid
  | .mode => fa1.mode = fa2.mode
  | .flags => fa1.flags = fa2.flags
  | .linkcount => fa1.linkcount = fa2.linkcount
  | .dev => fa1.dev = fa2.dev
  | .inode => fa1.inode = fa2.inode

instance (fa1 fa2 : Fattr) : (a : Attr) → Decidable (Same fa1 fa2 a)
  | .filetype => inferInstanceAs (Decidable (fa1.type = fa2.type))
  | .modtime => inferInstanceAs (Decidable (fa1.modtime = fa2.modtime))
  | .size => inferInstanceAs (Decidable (fa1.size = fa2.size))
  | .linktarget => inferInstanceAs (Decidable (fa1.linktarget = fa2.linktarget))
  | .rdev => inferInstanceAs (Decidable (fa1.rdev = fa2.rdev))
  | .owner => inferInstanceAs (Decidable (fa1.uid = fa2.uid))
  | .group => inferInstanceAs (Decidable (fa1.gid = fa2.gid))
  | .mode => inferInstanceAs (Decidable (fa1.mode = fa2.mode))
  | .flags => inferInstanceAs (Decidable (fa1.flags = fa2.flags))
  | .linkcount => inferInstanceAs (Decidable (fa1.linkcount = fa2.linkcount))
  | .dev => inferInstanceAs (Decidable (fa1.dev = fa2.dev))
  | .inode => inferInstanceAs (Decidable (fa1.inode = fa2.inode))

/-- One of the tests of `fattr_equal`. -/
def agree (fa1 fa2 : Fattr) (a : Attr) : Bool :=
  !has (fa1.mask &&& fa2.mask) a || decide (Same fa1 fa2 a)

/-- `fattr_equal` -/
def fattrEqual (fa1 fa2 : Fattr) : Bool :=
  if fa1.type = .unknown ∨ fa2.type = .unknown then false
  else agree fa1 fa2 .filetype && agree fa1 fa2 .modtime && agree fa1 fa2 .size &&
    agree fa1 fa2 .linktarget && agree fa1 fa2 .rdev && agree fa1 fa2 .owner && agree fa1 fa2 .group &&
    agree fa1 fa2 .mode && agree fa1 fa2 .flags && agree fa1 fa2 .linkcount && agree fa1 fa2 .dev &&
    agree fa1 fa2 .inode

theorem fattrEqual_iff (fa1 fa2 : Fattr) : fattrEqual fa1 fa2 = true ↔
    fa1.type ≠ .unknown ∧ fa2.type ≠ .unknown ∧
      ∀ a, has fa1.mask a = true → has fa2.mask a = true → Same fa1 fa2 a := by
  have hagree (a : Attr) : agree fa1 fa2 a = true ↔
      (has fa1.mask a = true → has fa2.mask a = true → Same fa1 fa2 a) := by
    rw [agree, has_and]
    cases has fa1.mask a <;> cases has fa2.mask a <;> simp
  have hall (P : Attr → Prop) : (∀ a, P a) ↔ P .filetype ∧ P .modtime ∧ P .size ∧ P .linktarget ∧
      P .rdev ∧ P .owner ∧ P .group ∧ P .mode ∧ P .flags ∧ P .linkcount ∧ P .dev ∧ P .inode := by
    constructor
    · intro h
      exact ⟨h _, h _, h _, h _, h _, h _, h _, h _, h _, h _, h _, h _⟩
    · intro ⟨h1, h2, h3, h4, h5, h6, h7, h8, h9, h10, h11, h12⟩ a
      cases a <;> assumption
  rw [fattrEqual]
  split
  · rename_i h
    constructor
    · intro hf
      cases hf
    · intro ⟨h1, h2, _⟩
      exact absurd h (not_or.mpr ⟨h1, h2⟩)
  · rename_i h
    rw [not_or] at h
    simp only [Bool.and_eq_true, hagree, hall, and_assoc]
    exact ⟨fun hs => ⟨h.1, h.2, hs⟩, fun hs => hs.2.2⟩

end Csup.Attrs
