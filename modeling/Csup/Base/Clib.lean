import Mathlib.Data.List.Basic

/-!
# Bytes, C strings and decimal numbers

What the C library gives the modules of `csup`: a C string is the list of its
bytes before the terminating NUL, `strtol` reads a decimal number and says
where it stopped, `printLong` is `%ld`. A `long` is an `Int`; `strtol` has the
range check of the C function.

`strtol_printNat`: `strtol` reads back what `%ld` printed.
-/

namespace Csup

abbrev Byte := UInt8

/-- The bytes of a string literal. -/
def bytes (cs : List Char) : List Byte := cs.map Char.toUInt8

/-- The line separator. -/
abbrev nl : Byte := 10

/-- The C string in a buffer: its bytes before the first NUL. -/
def cstr (s : List Byte) : List Byte := s.takeWhile (· ≠ 0)

/-- A line as `stream_getln` returns it when it is not asked for the length:
its newline is overwritten with a NUL. -/
def cline (l : List Byte) : List Byte :=
  cstr (if l.getLast? = some nl then l.dropLast else l)

/-- `%.*s`; a negative precision is none. -/
def printPrec (prec : BitVec 32) (s : List Byte) : List Byte :=
  if prec.msb then s else s.take prec.toNat

/-! ## Numbers -/

def isspace (b : Byte) : Bool := b = 32 || (9 ≤ b && b ≤ 13)

def isdigit (b : Byte) : Bool := 48 ≤ b && b ≤ 57

def longMax : Int := 9223372036854775807

def longMin : Int := -9223372036854775808

/-- The number a list of digits denotes. -/
def decimal (ds : List Byte) : Nat :=
  ds.foldl (fun v d => 10 * v + (d.toNat - 48)) 0

/-- The part of `strtol` behind white space and sign: the value, the rest and
whether it was out of range. `s` is the whole string, the rest when there is
no digit. -/
def strtolDigits (s : List Byte) (neg : Bool) (u : List Byte) : Int × List Byte × Bool :=
  let ds := u.takeWhile isdigit
  let v : Int := if neg then -(decimal ds : Int) else decimal ds
  if ds = [] then (0, s, false)
  else if longMax < v then (longMax, u.dropWhile isdigit, true)
  else if v < longMin then (longMin, u.dropWhile isdigit, true)
  else (v, u.dropWhile isdigit, false)

/-- `strtol` in base ten: the value, what `end` points to, and whether
`errno` is set. -/
def strtol (s : List Byte) : Int × List Byte × Bool :=
  match s.dropWhile isspace with
  | 45 :: u => strtolDigits s true u
  | 43 :: u => strtolDigits s false u
  | u => strtolDigits s false u

/-- A natural number in decimal. -/
def printNat (n : Nat) : List Byte := bytes (Nat.toDigits 10 n)

/-- `%ld` -/
def printLong : Int → List Byte
  | .ofNat n => printNat n
  | .negSucc n => 45 :: printNat (n + 1)

@[simp] theorem printLong_natCast (n : Nat) : printLong n = printNat n := rfl

theorem toNat_toUInt8_of_isDigit {c : Char} (h : c.isDigit) : c.toUInt8.toNat = c.toNat := by
  simp only [Char.isDigit, Bool.and_eq_true, decide_eq_true_eq, ge_iff_le, UInt32.le_iff_toNat_le]
    at h
  have : c.toNat < 256 := Nat.lt_of_le_of_lt h.2 (by decide)
  simp only [Char.toUInt8, UInt32.toNat_toUInt8]
  exact Nat.mod_eq_of_lt this

theorem isdigit_toUInt8 {c : Char} (h : c.isDigit) : isdigit c.toUInt8 = true := by
  have hn := toNat_toUInt8_of_isDigit h
  simp only [Char.isDigit, Bool.and_eq_true, decide_eq_true_eq, ge_iff_le, UInt32.le_iff_toNat_le]
    at h
  have h1 : 48 ≤ c.toNat := h.1
  have h2 : c.toNat ≤ 57 := h.2
  simp only [isdigit, Bool.and_eq_true, decide_eq_true_eq, UInt8.le_iff_toNat_le, hn]
  exact ⟨h1, h2⟩

theorem isdigit_of_mem_printNat {n : Nat} {b : Byte} (h : b ∈ printNat n) : isdigit b = true := by
  obtain ⟨c, hc, rfl⟩ := List.mem_map.mp h
  exact isdigit_toUInt8 (Nat.isDigit_of_mem_toDigits (by decide) (by decide) hc)

theorem printNat_ne_nil (n : Nat) : printNat n ≠ [] := by
  simp [printNat, bytes, Nat.toDigits_ne_nil]

theorem foldl_decimal_bytes {cs : List Char} (h : ∀ c ∈ cs, c.isDigit) (init : Nat) :
    (bytes cs).foldl (fun v d => 10 * v + (d.toNat - 48)) init = Nat.ofDigitChars 10 cs init := by
  induction cs generalizing init with
  | nil => simp [bytes]
  | cons c cs ih =>
    rw [Nat.ofDigitChars_cons, ← ih fun c hc => h c (List.mem_cons_of_mem _ hc)]
    simp only [bytes, List.map_cons, List.foldl_cons]
    rw [toNat_toUInt8_of_isDigit (h c (List.mem_cons_self ..))]; rfl

@[simp] theorem decimal_printNat (n : Nat) : decimal (printNat n) = n := by
  rw [decimal, printNat, foldl_decimal_bytes fun c hc =>
    Nat.isDigit_of_mem_toDigits (by decide) (by decide) hc]
  exact Nat.ofDigitChars_ten_toDigits

theorem takeWhile_printNat (n : Nat) {rest : List Byte}
    (h : ∀ b ∈ rest.head?, isdigit b = false) :
    (printNat n ++ rest).takeWhile isdigit = printNat n := by
  rw [List.takeWhile_append_of_pos fun b hb => isdigit_of_mem_printNat hb]
  cases rest with
  | nil => simp
  | cons b rest => simp [h b (by simp)]

theorem dropWhile_printNat (n : Nat) {rest : List Byte}
    (h : ∀ b ∈ rest.head?, isdigit b = false) :
    (printNat n ++ rest).dropWhile isdigit = rest := by
  rw [List.dropWhile_append_of_pos fun b hb => isdigit_of_mem_printNat hb]
  cases rest with
  | nil => rfl
  | cons b rest => simp [h b (by simp)]

theorem isspace_of_isdigit {b : Byte} (h : isdigit b = true) :
    isspace b = false ∧ b ≠ 45 ∧ b ≠ 43 := by
  simp only [isdigit, Bool.and_eq_true, decide_eq_true_eq, UInt8.le_iff_toNat_le] at h
  have h1 : 48 ≤ b.toNat := h.1
  refine ⟨?_, ?_, ?_⟩
  · simp only [isspace, Bool.or_eq_false_iff, Bool.and_eq_false_iff, decide_eq_false_iff_not,
      UInt8.le_iff_toNat_le, ← UInt8.toNat_inj]
    simp only [UInt8.reduceToNat]
    omega
  · rintro rfl; exact absurd h1 (by decide)
  · rintro rfl; exact absurd h1 (by decide)

/-- `strtol` reads a printed number up to what follows it. -/
theorem strtol_printNat {n : Nat} (hn : (n : Int) ≤ longMax) {rest : List Byte}
    (h : ∀ b ∈ rest.head?, isdigit b = false) :
    strtol (printNat n ++ rest) = ((n : Int), rest, false) := by
  obtain ⟨b, ds, hb⟩ := List.exists_cons_of_ne_nil (printNat_ne_nil n)
  have hdig := isdigit_of_mem_printNat (n := n) (b := b) (by simp [hb])
  obtain ⟨hsp, hm, hp⟩ := isspace_of_isdigit hdig
  have hdrop : (printNat n ++ rest).dropWhile isspace = printNat n ++ rest := by
    rw [hb, List.cons_append, List.dropWhile_cons, hsp]; rfl
  have hlow : ¬ ((n : Int) < longMin) := by simp only [longMin]; omega
  have hmain : strtolDigits (printNat n ++ rest) false (printNat n ++ rest) = ((n : Int), rest, false) := by
    simp only [strtolDigits, takeWhile_printNat n h, dropWhile_printNat n h, decimal_printNat,
      if_neg (printNat_ne_nil n), Bool.false_eq_true, ↓reduceIte, if_neg (Int.not_lt.mpr hn), if_neg hlow]
  rw [strtol, hdrop]
  rw [hb] at hmain ⊢
  split
  · rename_i u hu
    simp only [List.cons_append, List.cons.injEq] at hu
    exact absurd hu.1 hm
  · rename_i u hu
    simp only [List.cons_append, List.cons.injEq] at hu
    exact absurd hu.1 hp
  · exact hmain

end Csup
