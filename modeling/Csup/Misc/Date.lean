import Csup.Base.Clib

/-!
# Dates: `misc.c`

`rcsdatetotm` and the date as `tag_expand` prints it. `strptime` reads numbers
of at most so many digits in a range, `strftime` prints them.
-/

namespace Csup.Misc

structure Tm where
  year : Nat
  mon : Nat
  mday : Nat
  hour : Nat
  min : Nat
  sec : Nat
  deriving DecidableEq

/-- A number of at most `len` digits between `lo` and `hi`, and what follows. -/
def scanNumber (len lo hi : Nat) (s : List Byte) : Option (Nat × List Byte) :=
  let ds := (s.take len).takeWhile isdigit
  if ds = [] ∨ decimal ds < lo ∨ hi < decimal ds then none
  else some (decimal ds, s.drop ds.length)

/-- A dot, then a number. -/
def scanDotNumber (len lo hi : Nat) : List Byte → Option (Nat × List Byte)
  | 46 :: s => scanNumber len lo hi s
  | _ => none

/-- `strptime` with `%m.%d.%H.%M.%S` behind a year and a dot; the rest must be
empty. -/
def strptimeBehind (year : Nat) (s : List Byte) : Option Tm := do
  let (mon, s) ← scanDotNumber 2 1 12 s
  let (mday, s) ← scanDotNumber 2 1 31 s
  let (hour, s) ← scanDotNumber 2 0 23 s
  let (min, s) ← scanDotNumber 2 0 59 s
  let (sec, s) ← scanDotNumber 2 0 60 s
  if s = [] then some ⟨year, mon, mday, hour, min, sec⟩ else none

/-- `rcsdatetotm`: `%Y`, or `%y` where the year has two digits. -/
def rcsdatetotm (revdate : List Byte) : Option Tm :=
  if 46 ∉ revdate then none
  else
    let len := (revdate.takeWhile (· ≠ 46)).length
    if 4 ≤ len then do
      let (year, s) ← scanNumber 4 0 9999 revdate
      strptimeBehind year s
    else if len = 2 then do
      let (year, s) ← scanNumber 2 0 99 revdate
      strptimeBehind (if year < 69 then 2000 + year else 1900 + year) s
    else none

/-- A number of two digits. -/
def printTwo (n : Nat) : List Byte := if n < 10 then 48 :: printNat n else printNat n

/-- `strftime` with `%Y/%m/%d %H:%M:%S` -/
def cvsdate (tm : Tm) : List Byte :=
  printNat tm.year ++ 47 :: printTwo tm.mon ++ 47 :: printTwo tm.mday ++ 32 :: printTwo tm.hour ++
    58 :: printTwo tm.min ++ 58 :: printTwo tm.sec

end Csup.Misc
