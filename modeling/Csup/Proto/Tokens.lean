import Csup.Base.Radix
import Csup.Proto.Fields

/-!
# Numbers on a protocol line: `proto.c`

`asciitoint` of `misc.c` and the token readers that rest on `strtol`. A number
is the whole token, and an `int` is what fits in 32 bits.
-/

namespace Csup

/-- `asciitoint`; `none` where it returns -1. -/
def asciitoint (base : Nat) (s : List Byte) : Option Int :=
  match strtoll base s with
  | (i, [], false) => if 2147483647 < i ∨ i < -2147483648 then none else some i
  | _ => none

end Csup

namespace Csup.Proto

/-- `proto_get_int` -/
def protoGetInt (base : Nat) (s : Option (List Byte)) : Option Int × Option (List Byte) :=
  match protoGetAscii s with
  | (none, rest) => (none, rest)
  | (some cp, rest) => (asciitoint base cp, rest)

/-- `proto_get_time` -/
def protoGetTime (s : Option (List Byte)) : Option Int × Option (List Byte) :=
  match protoGetAscii s with
  | (none, rest) => (none, rest)
  | (some cp, rest) =>
    match strtoll 10 cp with
    | (tmp, [], false) => (some tmp, rest)
    | _ => (none, rest)

@[simp] theorem protoGetInt_none (base : Nat) : protoGetInt base none = (none, none) := rfl

end Csup.Proto
