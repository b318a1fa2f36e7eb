import Csup.Base.Clib

/-!
# Keyword expansion modes

The modes of `keyword.h` with their names, and the first test of `keyword_expand`: in the modes
`EXPAND_OLD` and `EXPAND_BINARY` a line is left alone. What the other modes do
to a line is the scan of the line, a parameter here.
-/

namespace Csup.Keyword

inductive Expand
  | default | keyvalue | keyvaluelocker | key | old | binary | value
  deriving DecidableEq

/-- `keyword_decode_expand` -/
def keywordDecodeExpand (expand : List Byte) : Option Expand :=
  if expand = [46] then some .default
  else if expand = bytes ['k', 'v'] then some .keyvalue
  else if expand = bytes ['k', 'v', 'l'] then some .keyvaluelocker
  else if expand = bytes ['k'] then some .key
  else if expand = bytes ['o'] then some .old
  else if expand = bytes ['b'] then some .binary
  else if expand = bytes ['v'] then some .value
  else none

/-- `keyword_encode_expand` -/
def keywordEncodeExpand : Expand → List Byte
  | .default => [46]
  | .keyvalue => bytes ['k', 'v']
  | .keyvaluelocker => bytes ['k', 'v', 'l']
  | .key => bytes ['k']
  | .old => bytes ['o']
  | .binary => bytes ['b']
  | .value => bytes ['v']

theorem keywordDecodeExpand_encode (expand : Expand) :
    keywordDecodeExpand (keywordEncodeExpand expand) = some expand := by
  cases expand <;> decide

/-- `keyword_expand`: `none` when it returns 0 and the line stands as it is. -/
def keywordExpand (scan : List Byte → Option (List Byte)) (mode : Expand) (line : List Byte) :
    Option (List Byte) :=
  if mode = .old ∨ mode = .binary then none else scan line

@[simp] theorem keywordExpand_old (scan : List Byte → Option (List Byte)) (line : List Byte) :
    keywordExpand scan .old line = none := rfl

end Csup.Keyword
