import Csup.Fattr.Ops

/-!
# Status records: `status.h`
-/

namespace Csup.Status

open Csup.Attrs (Fattr)

/-- `sr_type` -/
inductive SrType
  | dirdown | checkoutlive | checkoutdead | filelive | filedead | dirup
  deriving DecidableEq

/-- `struct statusrec`; a pointer that is not set is `none`. -/
structure StatusRec where
  type : SrType
  file : List Byte
  tag : Option (List Byte)
  date : Option (List Byte)
  revnum : Option (List Byte)
  revdate : Option (List Byte)
  serverattr : Option Fattr
  clientattr : Option Fattr

end Csup.Status
