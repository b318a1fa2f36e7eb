import Csup.Framework.Fields
import Csup.Keyword.Defs
import Csup.Rcs.Tokens
import Mathlib.Data.List.TakeWhile

/-!
# The lexer of RCS files

`rcslex_new` and `rcslex_get` of `rcslex.c`. Pointers into the mapped file are
indices; `last` is that of its last byte. A read outside of the file is a
`Fault`, and there is none in any file (`get_isOk`).

A token that ends with the file is lost, unless it is a word of two bytes or
more: `lexes_iff` says which renderings are read back.
-/

namespace Csup.Lexer

open Csup.Framework
open Csup.Keyword (memchr)

inductive Fault
  | outside
  deriving DecidableEq

/-- `struct rcstok` -/
structure Rcstok where
  type : TokType
  value : Nat
  len : Nat
  deriving DecidableEq

/-- `struct rcslex` -/
structure Rcslex where
  data : List Byte
  last : Nat
  eof : Bool
  offset : Nat

/-- `rcslex_new` of a file that can be opened; nothing cannot be mapped. -/
def rcslexNew (data : List Byte) : Option Rcslex :=
  if data = [] then none else some ⟨data, data.length - 1, false, 0⟩

namespace Rcslex

/-- `*cp` -/
def peek (lex : Rcslex) (cp : Nat) : Except Fault Byte :=
  match lex.data[cp]? with
  | none => .error .outside
  | some b => .ok b

/-- `memchr(cp, c, n)` -/
def find (lex : Rcslex) (cp : Nat) (c : Byte) (n : Nat) : Except Fault (Option Nat) :=
  if lex.data.length < cp + n then .error .outside else .ok (memchr lex.data cp c n)

/-- `cp` behind the bytes with `p`; there are no more than the fuel. -/
def skip (lex : Rcslex) (p : Byte → Bool) : Nat → Nat → Except Fault Nat
  | 0, cp => .ok cp
  | n + 1, cp =>
    if cp ≤ lex.last then
      match lex.peek cp with
      | .error e => .error e
      | .ok b => if p b then skip lex p n (cp + 1) else .ok cp
    else .ok cp

/-- The search for the `@` that ends a string. -/
def closing (lex : Rcslex) : Nat → Nat → Except Fault (Option Nat)
  | 0, _ => .ok none
  | n + 1, cp =>
    if cp ≤ lex.last then
      match lex.find cp 64 (lex.last - cp) with
      | .error e => .error e
      | .ok none => .ok none
      | .ok (some sep) =>
        if sep = lex.last then .ok (some sep)
        else
          match lex.peek (sep + 1) with
          | .error e => .error e
          | .ok b => if b = 64 then closing lex n (sep + 2) else .ok (some sep)
    else .ok none

/-- The token at `cp`, where `c` is. -/
def token (lex : Rcslex) (cp : Nat) (c : Byte) : Except Fault (Option Rcstok × Rcslex) :=
  if c = 64 then
    match lex.closing lex.data.length (cp + 1) with
    | .error e => .error e
    | .ok none => .ok (none, lex)
    | .ok (some sep) =>
      .ok (some ⟨.string, cp + 1, sep - (cp + 1)⟩, { lex with offset := sep + 1 })
  else if c = 59 then .ok (some ⟨.scolon, cp, 1⟩, { lex with offset := cp + 1 })
  else if c = 58 then .ok (some ⟨.colon, cp, 1⟩, { lex with offset := cp + 1 })
  else
    match lex.skip (fun b => !isStop b) lex.data.length cp with
    | .error e => .error e
    | .ok stop => .ok (some ⟨.id, cp, stop - cp⟩, { lex with offset := stop })

/-- `rcslex_get` -/
def get (lex : Rcslex) : Except Fault (Option Rcstok × Rcslex) :=
  if lex.eof then .ok (none, lex)
  else
    match lex.skip isspace lex.data.length lex.offset with
    | .error e => .error e
    | .ok cp =>
      if lex.last ≤ cp then .ok (none, { lex with eof := true })
      else
        match lex.peek cp with
        | .error e => .error e
        | .ok c => lex.token cp c

/-- The bytes of a token. -/
def value (lex : Rcslex) (tok : Rcstok) : List Byte := (lex.data.drop tok.value).take tok.len

/-- Successive calls give these tokens and then the end of the file. -/
def Lexes (lex : Rcslex) : List Token → Prop
  | [] => ∃ lex', lex.get = .ok (none, lex') ∧ lex'.eof = true
  | t :: ts => ∃ tok lex', lex.get = .ok (some tok, lex') ∧ tok.type = t.type ∧
      tok.len = t.raw.length ∧ lex.value tok = t.raw ∧ Lexes lex' ts

end Rcslex

/-! ## Scans -/

section

variable {lex : Rcslex} {pre rest : List Byte}

theorem peek_append {b : Byte} (hd : lex.data = pre ++ b :: rest) :
    lex.peek pre.length = .ok b := by
  simp [Rcslex.peek, hd]

theorem peek_isOk {cp : Nat} (h : cp < lex.data.length) : ∃ b, lex.peek cp = .ok b := by
  refine ⟨lex.data[cp], ?_⟩
  simp [Rcslex.peek, h]

/-- A scan stops at the first byte without `p`, or at the end of the file. -/
theorem skip_append {p : Byte → Bool} {n : Nat} (hl : lex.last + 1 = lex.data.length)
    (hd : lex.data = pre ++ rest) (hn : rest.length ≤ n) :
    lex.skip p n pre.length = .ok (pre.length + (rest.takeWhile p).length) := by
  induction n generalizing pre rest with
  | zero =>
    have : rest = [] := List.length_eq_zero_iff.mp (Nat.le_zero.mp hn)
    simp [Rcslex.skip, this]
  | succ n ih =>
    rcases rest with - | ⟨b, rest⟩
    · have hend : ¬ pre.length ≤ lex.last := by
        rw [hd, List.append_nil] at hl
        omega
      simp [Rcslex.skip, hend]
    · have hin : pre.length ≤ lex.last := by
        rw [hd, List.length_append, List.length_cons] at hl
        omega
      simp only [Rcslex.skip, if_pos hin, peek_append hd]
      by_cases hb : p b = true
      · have h := @ih (pre ++ [b]) rest (by simpa using hd) (by simpa using hn)
        rw [List.length_append, List.length_singleton] at h
        rw [if_pos hb, h, List.takeWhile_cons_of_pos hb, List.length_cons]
        congr 1
        omega
      · rw [if_neg hb, List.takeWhile_cons_of_neg hb]
        rfl

theorem find_isOk {cp : Nat} {c : Byte} {n : Nat} (h : cp + n ≤ lex.data.length) :
    lex.find cp c n = .ok (memchr lex.data cp c n) := if_neg (Nat.not_lt.mpr h)

theorem memchr_append_found {a r : List Byte} {c : Byte} {n : Nat} (ha : c ∉ a)
    (hn : a.length < n) :
    memchr (pre ++ (a ++ c :: r)) pre.length c n = some (pre.length + a.length) := by
  obtain ⟨k, rfl⟩ : ∃ k, n = a.length + (k + 1) := ⟨n - a.length - 1, by omega⟩
  rw [memchr, List.drop_left, List.take_length_add_append, List.take_succ_cons, idxOf?_eq_cut,
    cut_append ha]
  simp [Nat.add_comm]

theorem memchr_append_none {a r : List Byte} {c : Byte} {n : Nat} (ha : c ∉ a)
    (hn : n ≤ a.length) : memchr (pre ++ (a ++ r)) pre.length c n = none := by
  have h : c ∉ a.take n := fun h => ha (List.mem_of_mem_take h)
  rw [memchr, List.drop_left, List.take_append_of_le_length hn, idxOf?_eq_cut, cut_eq_none.mpr h]
  rfl

theorem closing_isOk (hl : lex.last + 1 = lex.data.length) (n cp : Nat) :
    ∃ r, lex.closing n cp = .ok r ∧ ∀ sep ∈ r, cp ≤ sep ∧ sep < lex.data.length := by
  induction n generalizing cp with
  | zero => exact ⟨none, rfl, by simp⟩
  | succ n ih =>
    simp only [Rcslex.closing]
    split
    · rw [find_isOk (by omega)]
      rcases hm : memchr lex.data cp 64 (lex.last - cp) with - | sep
      · exact ⟨none, rfl, by simp⟩
      · have hsep := Keyword.memchr_lt hm
        simp only
        split
        · exact ⟨some sep, rfl, by simpa using hsep⟩
        · obtain ⟨b, hb⟩ := @peek_isOk lex (sep + 1) (by omega)
          rw [hb]
          simp only
          split
          · obtain ⟨r, hr, hle⟩ := ih (sep + 2)
            refine ⟨r, hr, fun s hs => ?_⟩
            have := hle s hs
            omega
          · exact ⟨some sep, rfl, by simpa using hsep⟩
    · exact ⟨none, rfl, by simp⟩

/-- The `@` that ends a string is found, except where it is the last byte of the
file. -/
theorem closing_append {s : List Byte} {n : Nat} (hl : lex.last + 1 = lex.data.length)
    (hd : lex.data = pre ++ (double s ++ 64 :: rest)) (hrest : ∀ b ∈ rest.head?, b ≠ 64)
    (hn : s.length < n) :
    lex.closing n pre.length =
      .ok (if rest = [] then none else some (pre.length + (double s).length)) := by
  induction n generalizing pre s with
  | zero => omega
  | succ n ih =>
    have hlen : lex.last = pre.length + (double s).length + rest.length := by
      rw [hd] at hl
      simp only [List.length_append, List.length_cons] at hl
      omega
    rw [Rcslex.closing, if_pos (by omega), find_isOk (by omega), hd]
    rcases hs : cut 64 s with - | ⟨a, s'⟩
    · -- no `@` in what is left of the string
      have hat := cut_eq_none.mp hs
      rw [double_of_notMem hat] at hd hlen ⊢
      rcases rest with - | ⟨b, rest⟩
      · rw [memchr_append_none hat (by simp only [List.length_nil] at hlen; omega)]
        rfl
      · rw [memchr_append_found hat (by rw [List.length_cons] at hlen; omega)]
        have hne : ¬ pre.length + s.length = lex.last := by
          rw [List.length_cons] at hlen
          omega
        have hpeek : lex.peek (pre.length + s.length + 1) = .ok b := by
          have := @peek_append lex (pre ++ s ++ [64]) rest b (by simpa using hd)
          simpa [Nat.add_assoc] using this
        simp only [if_neg hne, hpeek, if_neg (hrest b rfl), reduceCtorEq, if_false]
    · obtain ⟨rfl, ha⟩ := cut_eq_some.mp hs
      have hdouble : double (a ++ 64 :: s') = a ++ 64 :: 64 :: double s' := by
        rw [double_append, double_of_notMem ha, double_cons, if_pos rfl]
        rfl
      rw [hdouble] at hd hlen ⊢
      simp only [List.length_append, List.length_cons] at hlen hn
      rw [List.append_assoc, List.cons_append, memchr_append_found ha (by omega)]
      have hne : ¬ pre.length + a.length = lex.last := by omega
      have hpeek : lex.peek (pre.length + a.length + 1) = .ok 64 := by
        have := @peek_append lex (pre ++ a ++ [64]) (double s' ++ 64 :: rest) 64
          (by simpa using hd)
        simpa [Nat.add_assoc] using this
      have h := @ih (pre ++ a ++ [64, 64]) s' (by simpa using hd) (by omega)
      have hcp : (pre ++ a ++ [64, 64]).length = pre.length + a.length + 2 := by
        simp [Nat.add_assoc]
      have hend : pre.length + a.length + 2 + (double s').length =
          pre.length + (a ++ 64 :: 64 :: double s').length := by
        simp only [List.length_append, List.length_cons]
        omega
      rw [hcp, hend] at h
      simp only [if_neg hne, hpeek, if_true, h]

/-! ## Reads stay in the file -/

/-- The file as `rcslex_new` maps it and the calls leave it. -/
structure Mapped (lex : Rcslex) : Prop where
  last : lex.last + 1 = lex.data.length
  offset : lex.offset ≤ lex.data.length

theorem rcslexNew_eq_some {data : List Byte} (h : data ≠ []) :
    rcslexNew data = some ⟨data, data.length - 1, false, 0⟩ := if_neg h

theorem rcslexNew_mapped {data : List Byte} (h : rcslexNew data = some lex) :
    Mapped lex := by
  rcases data with - | ⟨b, data⟩
  · cases h
  · cases h
    exact ⟨rfl, Nat.zero_le _⟩

theorem getElem?_length_takeWhile {α : Type*} (p : α → Bool) (l : List α) :
    l[(l.takeWhile p).length]? = (l.dropWhile p).head? := by
  have h : (l.takeWhile p ++ l.dropWhile p)[(l.takeWhile p).length]? = (l.dropWhile p).head? := by
    rw [List.getElem?_append_right (Nat.le_refl _), Nat.sub_self, List.head?_eq_getElem?]
  rwa [List.takeWhile_append_dropWhile] at h

theorem skip_isOk (hl : lex.last + 1 = lex.data.length) (p : Byte → Bool) {cp : Nat}
    (hcp : cp ≤ lex.data.length) : ∃ stop, lex.skip p lex.data.length cp = .ok stop ∧
      cp ≤ stop ∧ stop ≤ lex.data.length ∧ ∀ b, lex.peek stop = .ok b → p b = false := by
  have hd := (List.take_append_drop cp lex.data).symm
  have hlen : (lex.data.take cp).length = cp := List.length_take_of_le hcp
  have h := skip_append (p := p) hl hd (show (lex.data.drop cp).length ≤ lex.data.length by simp)
  rw [hlen] at h
  refine ⟨_, h, Nat.le_add_right .., ?_, fun b hb => ?_⟩
  · have := (List.takeWhile_sublist p (l := lex.data.drop cp)).length_le
    rw [List.length_drop] at this
    omega
  · -- the first byte behind the run
    have hget : lex.data[cp + ((lex.data.drop cp).takeWhile p).length]? = some b := by
      rw [Rcslex.peek] at hb
      split at hb
      · cases hb
      · rename_i b' hb'
        obtain rfl := Except.ok.inj hb
        exact hb'
    rw [← List.getElem?_drop, getElem?_length_takeWhile] at hget
    have := List.head?_dropWhile_not p (lex.data.drop cp)
    rw [hget] at this
    exact this

/-- No call reads outside of the file, whatever is in it; a token takes its bytes, and one at
least. -/
theorem get_moves (h : Mapped lex) : ∃ r lex', lex.get = .ok (r, lex') ∧ Mapped lex' ∧
    lex'.data = lex.data ∧ lex.offset ≤ lex'.offset ∧
      ∀ tok ∈ r, lex.offset < lex'.offset ∧ lex.offset + tok.len ≤ lex'.offset ∧
        tok.value + tok.len ≤ lex.data.length := by
  obtain ⟨hl, ho⟩ := h
  by_cases heof : lex.eof = true
  · exact ⟨none, lex, by simp [Rcslex.get, heof], ⟨hl, ho⟩, rfl, Nat.le_refl _, by simp⟩
  obtain ⟨cp, hskip, hle, hcp, hno⟩ := skip_isOk hl isspace ho
  simp only [Rcslex.get, heof, hskip, Bool.false_eq_true, if_false]
  by_cases hend : lex.last ≤ cp
  · rw [if_pos hend]
    exact ⟨none, _, rfl, ⟨hl, ho⟩, rfl, Nat.le_refl _, by simp⟩
  obtain ⟨c, hc⟩ := @peek_isOk lex cp (by omega)
  have hblank := hno c hc
  simp only [if_neg hend, hc, Rcslex.token]
  split
  · obtain ⟨r, hr, hsep⟩ := closing_isOk hl lex.data.length (cp + 1)
    rw [hr]
    rcases r with - | sep
    · exact ⟨none, lex, rfl, ⟨hl, ho⟩, rfl, Nat.le_refl _, by simp⟩
    · obtain ⟨hlt, hin⟩ := hsep sep rfl
      refine ⟨_, _, rfl, ⟨hl, hin⟩, rfl, ?_, fun tok htok => ?_⟩
      · show lex.offset ≤ sep + 1
        omega
      · obtain rfl := Option.some.inj htok
        show lex.offset < sep + 1 ∧ lex.offset + (sep - (cp + 1)) ≤ sep + 1 ∧
          cp + 1 + (sep - (cp + 1)) ≤ lex.data.length
        omega
  · have hone (type : TokType) : lex.offset < cp + 1 ∧
        lex.offset + (Rcstok.mk type cp 1).len ≤ cp + 1 ∧ cp + 1 ≤ lex.data.length := by
      show lex.offset < cp + 1 ∧ lex.offset + 1 ≤ cp + 1 ∧ cp + 1 ≤ lex.data.length
      omega
    split
    · refine ⟨_, _, rfl, ⟨hl, show cp + 1 ≤ lex.data.length by omega⟩, rfl,
        show lex.offset ≤ cp + 1 by omega, fun tok htok => ?_⟩
      obtain rfl := Option.some.inj htok
      exact hone _
    · rename_i hat hscolon
      split
      · refine ⟨_, _, rfl, ⟨hl, show cp + 1 ≤ lex.data.length by omega⟩, rfl,
          show lex.offset ≤ cp + 1 by omega, fun tok htok => ?_⟩
        obtain rfl := Option.some.inj htok
        exact hone _
      · rename_i hcolon
        obtain ⟨stop, hstop, hge, hin, hstops⟩ :=
          skip_isOk hl (fun b => !isStop b) (show cp ≤ lex.data.length by omega)
        have hgt : cp < stop := by
          rcases Nat.eq_or_lt_of_le hge with rfl | hlt
          · have := hstops c hc
            simp [isStop, hblank, hat, hscolon, hcolon] at this
          · exact hlt
        rw [hstop]
        refine ⟨_, _, rfl, ⟨hl, hin⟩, rfl, show lex.offset ≤ stop by omega, fun tok htok => ?_⟩
        obtain rfl := Option.some.inj htok
        show lex.offset < stop ∧ lex.offset + (stop - cp) ≤ stop ∧
          cp + (stop - cp) ≤ lex.data.length
        omega

/-- No call reads outside of the file, whatever is in it. -/
theorem get_isOk (h : Mapped lex) : ∃ r lex', lex.get = .ok (r, lex') ∧ Mapped lex' := by
  obtain ⟨r, lex', hget, hmapped, -⟩ := get_moves h
  exact ⟨r, lex', hget, hmapped⟩

end

/-! ## Tokens -/

/-- The lexer with `pre` behind it. -/
abbrev lexAt (pre rest : List Byte) : Rcslex :=
  ⟨pre ++ rest, (pre ++ rest).length - 1, false, pre.length⟩

/-- What a call says of a token. -/
structure Gives (lex : Rcslex) (t : Token) (tok : Rcstok) : Prop where
  type : tok.type = t.type
  len : tok.len = t.raw.length
  value : lex.value tok = t.raw

section

variable {lex : Rcslex} {pre rest : List Byte} {t : Token} {b : Byte} {r : List Byte}

theorem value_append {v : List Byte} (hd : lex.data = pre ++ (v ++ rest)) (type : TokType) :
    lex.value ⟨type, pre.length, v.length⟩ = v := by
  simp [Rcslex.value, hd]

theorem token_word {w : Word} (hl : lex.last + 1 = lex.data.length)
    (hd : lex.data = pre ++ (w.text ++ rest)) (hw : w.text = b :: r)
    (hrest : ∀ b ∈ rest.head?, isStop b = true) :
    ∃ tok, lex.token pre.length b = .ok (some tok, { lex with offset := (pre ++ w.text).length }) ∧
      Gives lex (.word w) tok := by
  obtain ⟨-, hat, hsc, hco⟩ := isspace_of_isStop (w.plain b (by rw [hw]; exact List.mem_cons_self ..))
  have hrun : (w.text ++ rest).takeWhile (fun b => !isStop b) = w.text := by
    rw [List.takeWhile_append_of_pos fun b hb => by simp [w.plain b hb]]
    rcases rest with - | ⟨c, rest⟩
    · simp
    · simp [hrest c rfl]
  have hskip := skip_append (p := fun b => !isStop b) hl hd (n := lex.data.length)
    (by rw [hd]; simp)
  rw [hrun] at hskip
  have hlen : pre.length + w.text.length - pre.length = w.text.length := by omega
  refine ⟨⟨.id, pre.length, w.text.length⟩, ?_, rfl, rfl, value_append hd _⟩
  simp only [Rcslex.token, if_neg hat, if_neg hsc, if_neg hco, hskip, hlen, List.length_append]

theorem token_string {s : List Byte} (hl : lex.last + 1 = lex.data.length)
    (hd : lex.data = pre ++ ((Token.string s).text ++ rest)) (hrest : ∀ b ∈ rest.head?, b ≠ 64) :
    (rest = [] ∧ lex.token pre.length 64 = .ok (none, lex)) ∨
      rest ≠ [] ∧ ∃ tok, lex.token pre.length 64 =
          .ok (some tok, { lex with offset := (pre ++ (Token.string s).text).length }) ∧
        Gives lex (.string s) tok := by
  have hd' : lex.data = (pre ++ [64]) ++ (double s ++ 64 :: rest) := by
    simpa [Token.text] using hd
  have hlen : s.length < lex.data.length := by
    have := length_le_double s
    rw [hd']
    simp only [List.length_append, List.length_cons]
    omega
  have hcl := closing_append hl hd' hrest hlen
  rw [List.length_append, List.length_singleton] at hcl
  by_cases hr : rest = []
  · refine .inl ⟨hr, ?_⟩
    simp only [Rcslex.token, if_true, hcl, if_pos hr]
  · refine .inr ⟨hr, ⟨.string, pre.length + 1, (double s).length⟩, ?_, rfl, rfl, ?_⟩
    · have h1 : pre.length + 1 + (double s).length - (pre.length + 1) = (double s).length := by omega
      have h2 : pre.length + 1 + (double s).length + 1 =
          (pre ++ (Token.string s).text).length := by
        simp only [Token.text, List.length_append, List.length_cons, List.length_nil]
        omega
      simp only [Rcslex.token, if_true, hcl, if_neg hr, h1, h2]
    · have := value_append hd' .string
      rwa [List.length_append, List.length_singleton] at this

/-- The token at the place the lexer has come to, unless it is a string that ends
with the file. -/
theorem token_append (hl : lex.last + 1 = lex.data.length)
    (hd : lex.data = pre ++ (t.text ++ rest)) (ht : t.text = b :: r)
    (hword : ∀ w, t = .word w → ∀ b ∈ rest.head?, isStop b = true)
    (hstring : ∀ s, t = .string s → ∀ b ∈ rest.head?, b ≠ 64) :
    (rest = [] ∧ (∃ s, t = .string s) ∧ lex.token pre.length b = .ok (none, lex)) ∨
      (rest ≠ [] ∨ ∀ s, t ≠ .string s) ∧ ∃ tok, lex.token pre.length b =
          .ok (some tok, { lex with offset := (pre ++ t.text).length }) ∧ Gives lex t tok := by
  rcases t with w | - | - | s
  · exact .inr ⟨.inr (by simp), token_word hl hd ht (hword w rfl)⟩
  · obtain ⟨rfl, rfl⟩ := List.cons.inj ht
    refine .inr ⟨.inr (by simp), ⟨.scolon, pre.length, 1⟩, ?_, rfl, rfl, value_append (v := [59]) hd _⟩
    simp [Rcslex.token, Token.text]
  · obtain ⟨rfl, rfl⟩ := List.cons.inj ht
    refine .inr ⟨.inr (by simp), ⟨.colon, pre.length, 1⟩, ?_, rfl, rfl, value_append (v := [58]) hd _⟩
    simp [Rcslex.token, Token.text]
  · obtain ⟨rfl, rfl⟩ := List.cons.inj ht
    rcases token_string hl hd (hstring s rfl) with ⟨hr, h⟩ | ⟨hr, h⟩
    · exact .inl ⟨hr, ⟨s, rfl⟩, h⟩
    · exact .inr ⟨.inl hr, h⟩

end

/-! ## Calls -/

section

variable {pre ws rest data : List Byte} {t : Token} {ts : List Token}

theorem takeWhile_isspace (hws : ∀ b ∈ ws, isspace b = true) (t : Token) :
    (ws ++ (t.text ++ rest)).takeWhile isspace = ws := by
  obtain ⟨b, r, ht, hb, -⟩ := t.text_eq_cons
  rw [List.takeWhile_append_of_pos hws, ht]
  simp [hb]

/-- At the end of the file. -/
theorem get_blank (hpos : pre ++ ws ≠ []) (hws : ∀ b ∈ ws, isspace b = true) :
    (lexAt pre ws).get = .ok (none, { lexAt pre ws with eof := true }) := by
  have hlen := List.length_pos_iff.mpr hpos
  have hskip := @skip_append (lexAt pre ws) _ _ isspace (pre ++ ws).length
    (show (pre ++ ws).length - 1 + 1 = (pre ++ ws).length by omega) rfl (by simp)
  rw [List.takeWhile_eq_self_iff.mpr hws] at hskip
  have hend : (lexAt pre ws).last ≤ pre.length + ws.length := by
    rw [← List.length_append]
    exact Nat.sub_le ..
  simp only [Rcslex.get, Bool.false_eq_true, if_false, hskip, if_pos hend]

/-- In front of a token: it is given, or it ends with the file and is lost. -/
theorem get_token (hws : ∀ b ∈ ws, isspace b = true)
    (hword : ∀ w, t = .word w → ∀ b ∈ rest.head?, isStop b = true)
    (hstring : ∀ s, t = .string s → ∀ b ∈ rest.head?, b ≠ 64) :
    (rest = [] ∧ (∀ w, t = .word w → w.text.length < 2) ∧
        ∃ lex', (lexAt pre (ws ++ (t.text ++ rest))).get = .ok (none, lex')) ∨
      (rest ≠ [] ∨ ∃ w, t = .word w ∧ 2 ≤ w.text.length) ∧
        ∃ tok, (lexAt pre (ws ++ (t.text ++ rest))).get =
            .ok (some tok, lexAt (pre ++ ws ++ t.text) rest) ∧
          Gives (lexAt pre (ws ++ (t.text ++ rest))) t tok := by
  obtain ⟨b, r, ht, -⟩ := t.text_eq_cons
  have hlen : (pre ++ (ws ++ (t.text ++ rest))).length =
      pre.length + ws.length + r.length + rest.length + 1 := by
    simp only [ht, List.length_append, List.length_cons]
    omega
  generalize hlex : lexAt pre (ws ++ (t.text ++ rest)) = lex
  have hdata : lex.data = pre ++ (ws ++ (t.text ++ rest)) := by rw [← hlex]
  have hoff : lex.offset = pre.length := by rw [← hlex]
  have heof : lex.eof = false := by rw [← hlex]
  have hlast : lex.last = pre.length + ws.length + r.length + rest.length := by
    rw [← hlex, show Rcslex.last _ = (pre ++ (ws ++ (t.text ++ rest))).length - 1 from rfl, hlen]
    rfl
  have hl : lex.last + 1 = lex.data.length := by rw [hlast, hdata, hlen]
  have hnext : { lex with offset := (pre ++ ws ++ t.text).length } =
      lexAt (pre ++ ws ++ t.text) rest := by
    rw [← hlex]
    simp [lexAt]
  have hskip : lex.skip isspace lex.data.length lex.offset = .ok (pre ++ ws).length := by
    have := skip_append (p := isspace) hl hdata (show _ ≤ lex.data.length by rw [hdata]; simp)
    rw [takeWhile_isspace hws, ← hoff] at this
    rw [this, List.length_append, hoff]
  have hdata' : lex.data = (pre ++ ws) ++ (t.text ++ rest) := by rw [hdata, List.append_assoc]
  have hpeek : lex.peek (pre ++ ws).length = .ok b :=
    @peek_append _ _ (r ++ rest) _ (by rw [hdata', ht]; rfl)
  have hget : lex.get = if lex.last ≤ (pre ++ ws).length then .ok (none, { lex with eof := true })
      else lex.token (pre ++ ws).length b := by
    simp only [Rcslex.get, heof, Bool.false_eq_true, if_false, hskip, hpeek]
  have hshort : r.length = 0 → ∀ w, t = .word w → w.text.length < 2 := by
    rintro hr w rfl
    rw [show w.text = b :: r from ht, List.length_cons]
    omega
  by_cases hend : lex.last ≤ (pre ++ ws).length
  · -- the token is the last byte of the file
    rw [if_pos hend] at hget
    rw [List.length_append] at hend
    have hrest : rest = [] := List.length_eq_zero_iff.mp (by omega)
    exact .inl ⟨hrest, hshort (by omega), _, hget⟩
  · rw [if_neg hend] at hget
    rw [List.length_append] at hend
    rcases token_append hl hdata' ht hword hstring with
      ⟨hrest, ⟨s, rfl⟩, htok⟩ | ⟨hno, tok, htok, hgives⟩
    · exact .inl ⟨hrest, by rintro w ⟨⟩, lex, hget.trans htok⟩
    · refine .inr ⟨?_, tok, by rw [hget, htok, hnext], hgives⟩
      by_cases hrest : rest = []
      · rw [hrest, List.length_nil] at hlast
        have hr : r ≠ [] := by
          rintro rfl
          rw [List.length_nil] at hlast
          omega
        have hstr := hno.resolve_left (not_not.mpr hrest)
        rcases t with w | - | - | s
        · refine .inr ⟨w, rfl, ?_⟩
          rw [show w.text = b :: r from ht, List.length_cons]
          have := List.length_pos_iff.mpr hr
          omega
        · exact absurd (List.cons.inj ht).2.symm hr
        · exact absurd (List.cons.inj ht).2.symm hr
        · exact absurd rfl (hstr s)
      · exact .inl hrest

/-- The last byte of the file is white space, or the last of a word of two bytes
or more. -/
def EndsWell (ts : List Token) (data : List Byte) : Prop :=
  (∃ b ∈ data.getLast?, isspace b = true) ∨ ∃ w, ts.getLast? = some (.word w) ∧ 2 ≤ w.text.length

theorem not_endsWell_nil : ¬ EndsWell [] [] := by
  rintro (⟨b, hb, -⟩ | ⟨w, hw, -⟩)
  · cases hb
  · cases hw

theorem endsWell_blank (hne : ws ≠ []) (hws : ∀ b ∈ ws, isspace b = true) (ts : List Token) :
    EndsWell ts ws :=
  .inl ⟨ws.getLast hne, List.getLast?_eq_some_getLast hne, hws _ (List.getLast_mem hne)⟩

theorem endsWell_single : EndsWell [t] (ws ++ t.text) ↔ ∃ w, t = .word w ∧ 2 ≤ w.text.length := by
  obtain ⟨b, hb, hsp⟩ := t.getLast?_text
  constructor
  · rintro (⟨c, hc, hc'⟩ | ⟨w, hw, hlen⟩)
    · rw [List.getLast?_append, hb] at hc
      cases hc
      rw [hsp] at hc'
      cases hc'
    · exact ⟨w, Option.some.inj hw, hlen⟩
  · rintro ⟨w, rfl, hw⟩
    exact .inr ⟨w, rfl, hw⟩

theorem endsWell_cons (h : Renders ts rest) (hrest : rest ≠ []) :
    EndsWell (t :: ts) (ws ++ (t.text ++ rest)) ↔ EndsWell ts rest := by
  have hlast : (ws ++ (t.text ++ rest)).getLast? = rest.getLast? := by
    rw [← List.append_assoc, List.getLast?_append_of_ne_nil _ hrest]
  rcases ts with - | ⟨u, us⟩
  · obtain ⟨hws⟩ := h
    have hb := endsWell_blank hrest hws []
    refine ⟨fun _ => hb, fun _ => ?_⟩
    rw [EndsWell, hlast]
    exact endsWell_blank hrest hws [t]
  · rw [EndsWell, EndsWell, hlast, List.getLast?_cons_cons]

/-- The tokens of a rendering are read off, up to one that ends with the file. -/
theorem lexes_lexAt (h : Renders ts rest) (hpos : pre ++ rest ≠ []) :
    (lexAt pre rest).Lexes ts ↔ ts = [] ∨ EndsWell ts rest := by
  induction h generalizing pre with
  | nil hws => exact ⟨fun _ => .inl rfl, fun _ => ⟨_, get_blank hpos hws, rfl⟩⟩
  | @cons ws rest t ts hws hrender hsep ih =>
    have hword : ∀ w, t = .word w → ∀ b ∈ rest.head?, isStop b = true := by
      rintro w rfl
      exact hrender.head?_isStop hsep
    have hstring : ∀ s, t = .string s → ∀ b ∈ rest.head?, b ≠ 64 := by
      rintro s rfl
      exact hrender.head?_ne_at hsep
    have hts : rest = [] → ts = [] := by
      intro hrest
      by_contra hne
      exact hrender.ne_nil hne hrest
    rcases @get_token pre _ _ _ hws hword hstring with
      ⟨hrest, hshort, lex', hget⟩ | ⟨hlong, tok, hget, hgives⟩
    · -- the last token is lost
      rw [hts hrest, hrest, List.append_nil]
      rw [hrest, List.append_nil] at hget
      refine iff_of_false ?_ ?_
      · rintro ⟨tok, lex'', hget', -⟩
        rw [hget] at hget'
        cases hget'
      · rintro (h | h)
        · cases h
        · obtain ⟨w, hw, hlen⟩ := endsWell_single.mp h
          exact absurd hlen (Nat.not_le.mpr (hshort w hw))
    · have hstep : (lexAt pre (ws ++ (t.text ++ rest))).Lexes (t :: ts) ↔
          (lexAt (pre ++ ws ++ t.text) rest).Lexes ts := by
        constructor
        · rintro ⟨tok', lex', hget', -, -, -, hlexes⟩
          rw [hget] at hget'
          cases hget'
          exact hlexes
        · exact fun hlexes => ⟨tok, _, hget, hgives.type, hgives.len, hgives.value, hlexes⟩
      rw [hstep, ih (by simp [Token.text_ne_nil])]
      by_cases hrest : rest = []
      · have hw := hlong.resolve_left (not_not.mpr hrest)
        rw [hts hrest, hrest, List.append_nil, endsWell_single]
        exact ⟨fun _ => .inr hw, fun _ => .inl rfl⟩
      · rw [endsWell_cons hrender hrest]
        refine ⟨?_, fun h => .inr (h.resolve_left (by simp))⟩
        rintro (rfl | h)
        · obtain ⟨hblank⟩ := hrender
          exact .inr (endsWell_blank hrest hblank [])
        · exact .inr h

theorem Lexes.unique {lex : Rcslex} {ts' : List Token} (h : lex.Lexes ts) (h' : lex.Lexes ts') :
    ts = ts' := by
  induction ts generalizing lex ts' with
  | nil =>
    obtain ⟨lex₁, hget, -⟩ := h
    rcases ts' with - | ⟨t', ts'⟩
    · rfl
    · obtain ⟨tok, lex₂, hget', -⟩ := h'
      rw [hget] at hget'
      cases hget'
  | cons t ts ih =>
    obtain ⟨tok, lex₁, hget, htype, -, hvalue, hlexes⟩ := h
    rcases ts' with - | ⟨t', ts'⟩
    · obtain ⟨lex₂, hget', -⟩ := h'
      rw [hget] at hget'
      cases hget'
    · obtain ⟨tok', lex₂, hget', htype', -, hvalue', hlexes'⟩ := h'
      rw [hget] at hget'
      cases hget'
      rw [Token.ext_raw (htype.symm.trans htype') (hvalue.symm.trans hvalue'), ih hlexes hlexes']

/-- With a newline behind it, a rendering is read back. -/
theorem Renders.lexes (h : Renders ts data) : (lexAt [] (data ++ [nl])).Lexes ts := by
  have hnl : ∀ b ∈ [nl], isspace b = true := List.all_eq_true.mp (by decide)
  refine (lexes_lexAt (h.append_blank hnl) (by simp)).mpr (.inr (.inl ⟨nl, ?_, by decide⟩))
  simp

/-- A text renders one list of tokens. -/
theorem Renders.unique {ts' : List Token} (h : Renders ts data) (h' : Renders ts' data) :
    ts = ts' := Lexes.unique h.lexes h'.lexes

/-- A rendering is read back, without a read outside of it, if and only if it ends
with white space or with a word of two bytes or more. -/
theorem lexes_iff (h : Renders ts data) :
    (∃ lex, rcslexNew data = some lex ∧ lex.Lexes ts) ↔ EndsWell ts data := by
  by_cases hne : data = []
  · subst hne
    have hts : ts = [] := by
      by_contra hts
      exact h.ne_nil hts rfl
    subst hts
    refine iff_of_false ?_ not_endsWell_nil
    rintro ⟨lex, hnew, -⟩
    cases hnew
  · have hlex := @lexes_lexAt [] _ _ h (by simpa using hne)
    have hor : ts = [] ∨ EndsWell ts data ↔ EndsWell ts data := by
      refine ⟨?_, .inr⟩
      rintro (rfl | h')
      · obtain ⟨hws⟩ := h
        exact endsWell_blank hne hws []
      · exact h'
    rw [rcslexNew_eq_some hne, ← hor, ← hlex]
    constructor
    · rintro ⟨lex, hnew, hlexes⟩
      cases hnew
      exact hlexes
    · exact fun hlexes => ⟨_, rfl, hlexes⟩

theorem lexes_head : ∃ lex, rcslexNew (bytes "head 1.1;\n".toList) = some lex ∧
    lex.Lexes [.word (wordOf (bytes "head".toList) (by decide)),
      .word (wordOf (bytes "1.1".toList) (by decide)), .scolon] :=
  (lexes_iff
    (.token [] (.word (wordOf (bytes "head".toList) (by decide))) rfl
      (.token [32] (.word (wordOf (bytes "1.1".toList) (by decide))) rfl
        (.token [] .scolon rfl (.blanks rfl) (by simp))
        (by simp [Token.clash]))
      (by decide))).mpr (.inl ⟨10, rfl, by decide⟩)

/-- A separator, a word of one byte or a string at the end of a file is lost. -/
theorem not_lexes_of_last :
    ¬ ∀ ts data, Renders ts data → ∃ lex, rcslexNew data = some lex ∧ lex.Lexes ts := by
  intro h
  obtain ⟨lex, hnew, tok, lex', hget, -⟩ :=
    h [.string (bytes "x".toList)] (bytes "@x@".toList)
      (.token [] _ rfl (.blanks rfl) (by simp))
  cases hnew
  have hlost : (lexAt [] (bytes "@x@".toList)).get.map Prod.fst = .ok none := by decide
  rw [show (lexAt [] (bytes "@x@".toList)).get = _ from hget] at hlost
  cases hlost

end

end Csup.Lexer
