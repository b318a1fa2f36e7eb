import Csup.Keyword.Expand
import Csup.Misc.Date
import Mathlib.Algebra.Group.Nat.Defs

/-!
# Keyword tables and the scan of a line: `keyword.c`

The table of keywords, `tag_expand`, and the scan of `keyword_expand`: the
pointers into the line are indices, and `left` is kept as the source keeps it.
`scanStep` is what happens from one `again` to the next.

`tag_expand` ends the program at a date it cannot read; a `Diffinfo` is one
whose date it reads. `%s` of `NULL` prints `(null)`.
-/

namespace Csup.Keyword

open Csup.Misc

inductive Rcskey
  | author | cvsheader | date | header | id | locker | log | name | rcsfile | revision | source
  | state
  deriving DecidableEq

/-- `behind` is what lies in memory behind the NUL of `ident`. -/
structure Tag where
  ident : List Byte
  behind : Nat → Byte
  key : Rcskey
  enabled : Bool

structure Keywords where
  keywords : List Tag
  minkeylen : Nat
  maxkeylen : Nat

/-! ## Tables -/

/-- `tag_new` -/
def tagNew (behind : Nat → Byte) (ident : List Byte) (key : Rcskey) : Tag :=
  ⟨ident, behind, key, true⟩

def tagDefaults : List (List Byte × Rcskey) :=
  [(bytes ['A', 'u', 't', 'h', 'o', 'r'], .author),
   (bytes ['C', 'V', 'S', 'H', 'e', 'a', 'd', 'e', 'r'], .cvsheader),
   (bytes ['D', 'a', 't', 'e'], .date),
   (bytes ['H', 'e', 'a', 'd', 'e', 'r'], .header),
   (bytes ['I', 'd'], .id),
   (bytes ['L', 'o', 'c', 'k', 'e', 'r'], .locker),
   (bytes ['L', 'o', 'g'], .log),
   (bytes ['N', 'a', 'm', 'e'], .name),
   (bytes ['R', 'C', 'S', 'f', 'i', 'l', 'e'], .rcsfile),
   (bytes ['R', 'e', 'v', 'i', 's', 'i', 'o', 'n'], .revision),
   (bytes ['S', 'o', 'u', 'r', 'c', 'e'], .source),
   (bytes ['S', 't', 'a', 't', 'e'], .state)]

/-- `keyword_new`: the bounds on the length of a keyword are computed here only. -/
def keywordNew (behind : Nat → Byte) : Keywords :=
  tagDefaults.foldl
    (fun kw d => ⟨kw.keywords ++ [tagNew behind d.1 d.2], min kw.minkeylen d.1.length,
      max kw.maxkeylen d.1.length⟩)
    ⟨[], 2 ^ 64 - 1, 0⟩

/-- `keyword_alias`: `none` when there is no keyword `rcskey`. -/
def keywordAlias (behind : Nat → Byte) (kw : Keywords) (ident rcskey : List Byte) : Option Keywords :=
  match kw.keywords.find? (·.ident = rcskey) with
  | none => none
  | some tag => some { kw with keywords := tagNew behind ident tag.key :: kw.keywords }

/-- The first keyword `ident` is set; all of them for `.`. -/
def setEnabled (b : Bool) (ident : List Byte) : List Tag → List Tag
  | [] => []
  | tag :: tags =>
    if ident = [46] then { tag with enabled := b } :: setEnabled b ident tags
    else if tag.ident = ident then { tag with enabled := b } :: tags
    else tag :: setEnabled b ident tags

/-- `keyword_enable` -/
def keywordEnable (kw : Keywords) (ident : List Byte) : Keywords :=
  { kw with keywords := setEnabled true ident kw.keywords }

/-- `keyword_disable` -/
def keywordDisable (kw : Keywords) (ident : List Byte) : Keywords :=
  { kw with keywords := setEnabled false ident kw.keywords }

/-- `keyword_prepare` -/
def keywordPrepare (kw : Keywords) : Keywords :=
  { kw with keywords := kw.keywords.filter (·.enabled) }

/-! ## Values -/

structure Diffinfo where
  rcsfile : List Byte
  cvsroot : Option (List Byte)
  revnum : List Byte
  revdate : List Byte
  author : List Byte
  tag : Option (List Byte)
  state : Option (List Byte)
  expand : Expand
  date_ok : (rcsdatetotm revdate).isSome

/-- `%s` -/
def printStr : Option (List Byte) → List Byte
  | some s => s
  | none => bytes ['(', 'n', 'u', 'l', 'l', ')']

/-- The file name behind the last slash. -/
def filename (rcsfile : List Byte) : List Byte :=
  (rcsfile.reverse.takeWhile (· ≠ 47)).reverse

/-- The revision, its date, author and state, as they stand in several values. -/
def revision (di : Diffinfo) (date : List Byte) : List Byte :=
  di.revnum ++ 32 :: date ++ 32 :: di.author ++ 32 :: printStr di.state

/-- `tag_expand`: `none` for a keyword without a value. -/
def tagExpand (tag : Tag) (di : Diffinfo) : Option (List Byte) :=
  let date := cvsdate ((rcsdatetotm di.revdate).get di.date_ok)
  match tag.key with
  | .author => some di.author
  | .cvsheader => some (di.rcsfile ++ 32 :: revision di date)
  | .date => some date
  | .header => some (printStr di.cvsroot ++ 47 :: di.rcsfile ++ 32 :: revision di date)
  | .id => some (filename di.rcsfile ++ 32 :: revision di date)
  | .locker => none
  | .log => none
  | .name => di.tag
  | .rcsfile => some (filename di.rcsfile)
  | .revision => some di.revnum
  | .source => some (printStr di.cvsroot ++ 47 :: di.rcsfile)
  | .state => some (printStr di.state)

/-! ## The scan -/

/-- `memchr(line + start, c, n)` -/
def memchr (line : List Byte) (start : Nat) (c : Byte) (n : Nat) : Option Nat :=
  (((line.drop start).take n).idxOf? c).map (start + ·)

/-- `ident[i]`, also behind the end of the string. -/
def Tag.at (tag : Tag) (i : Nat) : Byte :=
  (tag.ident ++ [0]).getD i (tag.behind (i - (tag.ident.length + 1)))

/-- `strncmp(ident + i, key, n) == 0` where `n` is the length of `key`. -/
def strncmpEq (ident : Nat → Byte) : Nat → List Byte → Bool
  | _, [] => true
  | i, c :: key => ident i = c && (c = 0 || strncmpEq ident (i + 1) key)

/-- The test of a keyword against the bytes of the line. -/
def Tag.named (tag : Tag) (key : List Byte) : Bool :=
  strncmpEq tag.at 0 key && tag.at key.length = 0

/-- The variables of `keyword_expand` at `again`; `newline` is set when the line
is no longer the caller's. -/
structure Scan where
  line : List Byte
  newline : Bool
  cp : Nat
  left : Nat

/-- What a keyword and its field become. -/
def replacement (di : Diffinfo) (tag : Tag) (key : List Byte) : List Byte :=
  match di.expand with
  | .key => 36 :: key ++ [36]
  | .value => (tagExpand tag di).getD []
  | _ => 36 :: key ++ [58, 32] ++ (tagExpand tag di).getD [] ++ [32, 36]

/-- The end of a keyword: the colon, where one lies in front of `vallim`. -/
def valLimit (vallim : Nat) : Option Nat → Nat
  | none => vallim
  | some valstart => if vallim < valstart then vallim else valstart

/-- From one `again` to the next; `none` where `keyword_expand` returns. -/
def scanStep (kw : Keywords) (di : Diffinfo) (s : Scan) : Option Scan :=
  match memchr s.line s.cp 36 s.left with
  | none => none
  | some dollar =>
    let keystart := dollar + 1
    let left := s.left - (keystart - s.cp)
    match memchr s.line keystart 36 left with
    | none => none
    | some vallim =>
      if vallim = keystart then some { s with cp := keystart, left }
      else if memchr s.line keystart 58 left = some keystart then
        some { s with cp := vallim, left := left - (vallim - keystart) }
      else
        let valstart := valLimit vallim (memchr s.line keystart 58 left)
        if valstart < keystart + kw.minkeylen ∨ keystart + kw.maxkeylen < valstart then
          some { s with cp := vallim, left := left - (vallim - keystart) }
        else
          let key := (s.line.drop keystart).take (valstart - keystart)
          match kw.keywords.find? (·.named key) with
          | some tag =>
            let next := s.line.take dollar ++ replacement di tag key
            let line := next ++ s.line.drop (vallim + 1)
            some ⟨line, true, next.length, line.length - next.length⟩
          | none => some { s with cp := vallim, left := s.line.length - vallim }

theorem memchr_lt {line : List Byte} {start n i : Nat} {c : Byte}
    (h : memchr line start c n = some i) : start ≤ i ∧ i < line.length := by
  simp only [memchr, Option.map_eq_some_iff] at h
  obtain ⟨j, hj, rfl⟩ := h
  have hlt : j < ((line.drop start).take n).length := by
    rw [List.idxOf?_eq_some_iff] at hj
    exact hj.1
  simp only [List.length_take, List.length_drop] at hlt
  omega

/-- Every round leaves less of the line. -/
theorem scanStep_lt {kw : Keywords} {di : Diffinfo} {s s' : Scan} (h : scanStep kw di s = some s') :
    s'.line.length - s'.cp < s.line.length - s.cp := by
  simp only [scanStep] at h
  split at h
  · cases h
  rename_i dollar hd
  split at h
  · cases h
  rename_i vallim hv
  have h1 := memchr_lt hd
  have h2 := memchr_lt hv
  split at h
  · cases h
    simp only
    omega
  split at h
  · cases h
    simp only
    omega
  split at h
  · cases h
    simp only
    omega
  split at h
  · cases h
    simp only [List.length_append, List.length_drop]
    omega
  · cases h
    simp only
    omega

/-- The loop of `keyword_expand`. -/
def scanLoop (kw : Keywords) (di : Diffinfo) (s : Scan) : Scan :=
  match _h : scanStep kw di s with
  | none => s
  | some s' => scanLoop kw di s'
  termination_by s.line.length - s.cp
  decreasing_by exact scanStep_lt _h

/-- `keyword_expand` behind its first test. -/
def keywordScan (kw : Keywords) (di : Diffinfo) (line : List Byte) : Option (List Byte) :=
  let s := scanLoop kw di ⟨line, false, 0, line.length⟩
  if s.newline then some s.line else none

end Csup.Keyword
