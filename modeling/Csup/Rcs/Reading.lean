import Csup.Rcs.Damaged
import Csup.Rcs.Loaded

/-!
# The parser on tokens

What the parts of the parser make of a file of which the tokens are known. The lexer is in front of
the tokens of the rest of the file (`At`), or behind a word that may be put back (`Behind`).

* `At.get`: one token;
* `runs_parseAdmin`, `runs_parseDeltas`, `runs_parseDeltatexts`: the parts of a file.
-/

namespace Csup.Rcsparse

open Csup.Framework Csup.Keyword Csup.Lexer
open Csup.Framework.Scan (Runs runs_pure)
open Csup.Rcs

/-! ## One token -/

/-- The lexer is in front of the tokens, and a newline ends the file. -/
def At (ts : List Token) (lex : Rcslex) : Prop :=
  ∃ pre rest, lex = lexAt pre rest ∧ Renders ts rest ∧ rest.getLast? = some nl

/-- What the lexer gives of a token. -/
def tok (t : Token) : Tok := ⟨t.type, t.raw⟩

/-- The lexer is behind a token, which may be put back. -/
def Behind (t : Token) (ts : List Token) (lex : Rcslex) : Prop :=
  At ts lex ∧ ∃ lex', rcslexUnget (tok t) lex = .ok ((), lex') ∧ At (t :: ts) lex'

variable {t : Token} {ts : List Token} {lex : Rcslex}

theorem At.mapped (h : At ts lex) : Mapped lex := by
  obtain ⟨pre, rest, rfl, -, hlast⟩ := h
  have hne : rest ≠ [] := fun hnil => by rw [hnil] at hlast; cases hlast
  have := List.length_pos_iff.mpr hne
  constructor
  · show (pre ++ rest).length - 1 + 1 = (pre ++ rest).length
    rw [List.length_append]
    omega
  · show pre.length ≤ (pre ++ rest).length
    rw [List.length_append]
    omega

/-- A token takes a byte at least. -/
theorem length_le_of_renders {data : List Byte} (h : Renders ts data) : ts.length ≤ data.length := by
  induction h with
  | nil _ => exact Nat.zero_le _
  | @cons ws rest t ts _ _ _ ih =>
    have := List.length_pos_iff.mpr t.text_ne_nil
    simp only [List.length_cons, List.length_append]
    omega

theorem At.length_le (h : At ts lex) : ts.length ≤ lex.data.length := by
  obtain ⟨pre, rest, rfl, hr, -⟩ := h
  have := length_le_of_renders hr
  show ts.length ≤ (pre ++ rest).length
  rw [List.length_append]
  omega

theorem rcslexGet_of_gives (hl : Mapped lex) {rt : Rcstok} {lex' : Rcslex}
    (hget : lex.get = .ok (some rt, lex')) (hgives : Lexer.Gives lex t rt) :
    rcslexGet lex = .ok (some (tok t), lex') := by
  obtain ⟨r, lex'', hget', -, -, -, hin⟩ := get_moves hl
  obtain ⟨rfl, rfl⟩ := Prod.mk.inj (Except.ok.inj (hget.symm.trans hget'))
  have hle := (hin rt rfl).2.2
  simp only [rcslexGet, hget, if_pos hle, tok, hgives.type, hgives.value]

theorem rcslexUnget_word {pre rest : List Byte} (w : Word) :
    rcslexUnget (tok (.word w)) (lexAt (pre ++ w.text) rest) = .ok ((), lexAt pre (w.text ++ rest)) := by
  have hle : w.text.length ≤ pre.length + w.text.length := Nat.le_add_left ..
  simp only [rcslexUnget, tok, Token.raw, lexAt, List.length_append, if_pos hle, Nat.add_sub_cancel,
    List.append_assoc]

theorem At.get (h : At (t :: ts) lex) : ∃ lex', rcslexGet lex = .ok (some (tok t), lex') ∧
    At ts lex' ∧ ∀ w, t = .word w → Behind t ts lex' := by
  have hmapped := h.mapped
  obtain ⟨pre, data, rfl, hr, hlast⟩ := h
  cases hr with
  | @cons ws rest _ _ hws hr hsep =>
    have hne : rest ≠ [] := by
      rintro rfl
      obtain ⟨b, hb, hblank⟩ := t.getLast?_text
      rw [List.append_nil, List.getLast?_append, hb] at hlast
      obtain rfl := Option.some.inj hlast
      exact absurd hblank (by decide)
    have hword (w : Word) (hw : t = .word w) : ∀ b ∈ rest.head?, isStop b = true :=
      hr.head?_isStop (w := w) (by rw [← hw]; exact hsep)
    have hstring (s : List Byte) (hs : t = .string s) : ∀ b ∈ rest.head?, b ≠ 64 :=
      hr.head?_ne_at (s := s) (by rw [← hs]; exact hsep)
    rcases @get_token pre _ _ _ hws hword hstring with ⟨hnil, -⟩ | ⟨-, rt, hget, hgives⟩
    · exact absurd hnil hne
    · have hlast' : rest.getLast? = some nl := by
        rw [← List.append_assoc, List.getLast?_append_of_ne_nil _ hne] at hlast
        exact hlast
      have hagain : Renders (t :: ts) ([] ++ (t.text ++ rest)) := .cons (by simp) hr hsep
      have hat : At ts (lexAt (pre ++ ws ++ t.text) rest) := ⟨_, _, rfl, hr, hlast'⟩
      refine ⟨_, rcslexGet_of_gives hmapped hget hgives, hat, fun w hw =>
        ⟨hat, lexAt (pre ++ ws) (t.text ++ rest), ?_, pre ++ ws, t.text ++ rest, rfl,
          hagain, ?_⟩⟩
      · rw [hw]
        exact rcslexUnget_word w
      · rw [List.getLast?_append_of_ne_nil _ hne]
        exact hlast'

/-- Behind the last token. -/
theorem At.get_nil (h : At [] lex) : ∃ lex', rcslexGet lex = .ok (none, lex') ∧ lex'.eof = true := by
  obtain ⟨pre, rest, rfl, hr, hlast⟩ := h
  cases hr with
  | nil hws =>
    have hne : pre ++ rest ≠ [] := fun hnil => by
      rw [(List.append_eq_nil_iff.mp hnil).2] at hlast
      cases hlast
    refine ⟨{ lexAt pre rest with eof := true }, ?_, rfl⟩
    simp only [rcslexGet, get_blank hne hws]

/-! ## Words -/

/-- What a word is made of. -/
def IsWord (l : List Byte) : Prop := l ≠ [] ∧ l.all (fun b => !isStop b) = true

instance (l : List Byte) : Decidable (IsWord l) := inferInstanceAs (Decidable (_ ∧ _))

/-- A word as a token, where it is one. -/
def wordTok (l : List Byte) : Token := if h : IsWord l then .word (wordOf l h) else .scolon

variable {l : List Byte}

theorem wordTok_eq (h : IsWord l) : wordTok l = .word (wordOf l h) := dif_pos h

theorem tok_wordTok (h : IsWord l) : tok (wordTok l) = ⟨.id, l⟩ := by
  rw [wordTok_eq h]
  rfl

/-- A number, and a word that is none. -/
def IsNum (l : List Byte) : Prop := IsWord l ∧ (Tok.mk .id l).validateNum = true

def IsId (l : List Byte) : Prop := IsWord l ∧ (Tok.mk .id l).validateId = true

instance (l : List Byte) : Decidable (IsNum l) := inferInstanceAs (Decidable (_ ∧ _))

instance (l : List Byte) : Decidable (IsId l) := inferInstanceAs (Decidable (_ ∧ _))

theorem IsNum.not_validateId (h : IsNum l) : (Tok.mk .id l).validateId = false := by
  have hall := h.2
  simp only [Tok.validateNum, Bool.and_eq_true, List.all_eq_true] at hall
  by_contra hid
  simp only [Tok.validateId, Bool.not_eq_false, Bool.and_eq_true, List.any_eq_true] at hid
  obtain ⟨-, c, hc, hnot⟩ := hid
  have := hall.2 c hc
  simp_all

theorem IsNum.not_isKw (h : IsNum l) (s : String)
    (hs : (Tok.mk .id (bytes s.toList)).validateNum = false) :
    ¬(Tok.mk .id l).isKw (bytes s.toList) = true := by
  intro hkw
  simp only [Tok.isKw, Bool.and_eq_true, decide_eq_true_eq] at hkw
  rw [← hkw.2, h.2] at hs
  cases hs

/-! ## Tokens that are wanted -/

section

variable {β : Type} {ts : List Token} {Q : Rcslex → Prop}

theorem runs_get (t : Token) (ts : List Token) :
    Runs (At (t :: ts)) rcslexGet (some (tok t)) (At ts) := fun _ h => by
  obtain ⟨lex', hget, hat, -⟩ := h.get
  exact ⟨lex', hget, hat⟩

/-- A word may be put back. -/
theorem runs_get_word (h : IsWord l) (ts : List Token) :
    Runs (At (wordTok l :: ts)) rcslexGet (some ⟨.id, l⟩) (Behind (wordTok l) ts) := fun _ hat => by
  obtain ⟨lex', hget, -, hbehind⟩ := hat.get
  rw [tok_wordTok h] at hget
  exact ⟨lex', hget, hbehind _ (wordTok_eq h)⟩

theorem runs_unget (h : IsWord l) (ts : List Token) :
    Runs (Behind (wordTok l) ts) (rcslexUnget ⟨.id, l⟩) () (At (wordTok l :: ts)) :=
  fun _ ⟨_, lex', hunget, hat⟩ => by
    rw [tok_wordTok h] at hunget
    exact ⟨lex', hunget, hat⟩

theorem runs_need {α : Type} {P Q : Rcslex → Prop} {m : Parser (Option α)} {a : α}
    (h : Runs P m (some a) Q) : Runs P (need m) a Q := h.bind (runs_pure fun _ h => h)

variable (ts)

theorem runs_want {p : Tok → Bool} (t : Token) (hp : p (tok t) = true) :
    Runs (At (t :: ts)) (rcslexWant p) (some (tok t)) (At ts) := by
  have hfilter : (some (tok t)).filter p = some (tok t) := by simp [Option.filter, hp]
  refine (runs_get t ts).bind ?_
  rw [hfilter]
  exact runs_pure fun _ h => h

theorem runs_wantKw {kw : String} (h : IsWord (bytes kw.toList)) :
    Runs (At (wordTok (bytes kw.toList) :: ts)) (need (wantKw kw)) ⟨.id, bytes kw.toList⟩ (At ts) := by
  rw [← tok_wordTok h]
  refine runs_need (runs_want ts _ ?_)
  rw [tok_wordTok h]
  simp [Tok.isKw]

theorem runs_scolon : Runs (At (.scolon :: ts)) (need (wantType .scolon)) ⟨.scolon, [59]⟩ (At ts) :=
  runs_need (runs_want ts (p := fun tok => decide (tok.type = .scolon)) .scolon rfl)

theorem runs_colon : Runs (At (.colon :: ts)) (need (wantType .colon)) ⟨.colon, [58]⟩ (At ts) :=
  runs_need (runs_want ts (p := fun tok => decide (tok.type = .colon)) .colon rfl)

theorem runs_num (h : IsNum l) : Runs (At (wordTok l :: ts)) getNum (some l) (At ts) := by
  have hw := runs_want ts (p := fun tok => decide (tok.type = .id)) (wordTok l) (by
    rw [tok_wordTok h.1]
    rfl)
  rw [tok_wordTok h.1] at hw
  refine hw.bind ?_
  have : ((some (Tok.mk .id l)).filter Tok.validateNum).map Tok.text = some l := by
    simp [Option.filter, h.2]
  rw [this]
  exact runs_pure fun _ h => h

theorem runs_getNum (h : IsNum l) : Runs (At (wordTok l :: ts)) (need getNum) l (At ts) :=
  runs_need (runs_num ts h)

theorem runs_getId (h : IsId l) : Runs (At (wordTok l :: ts)) (need getId) l (At ts) := by
  have hw := runs_want ts (p := fun tok => decide (tok.type = .id)) (wordTok l) (by
    rw [tok_wordTok h.1]
    rfl)
  rw [tok_wordTok h.1] at hw
  refine runs_need (hw.bind ?_)
  have : ((some (Tok.mk .id l)).filter Tok.validateId).map Tok.text = some l := by
    simp [Option.filter, h.2]
  rw [this]
  exact runs_pure fun _ h => h

theorem runs_getString (s : List Byte) :
    Runs (At (.string s :: ts)) (need getString) (double s) (At ts) := by
  have hw := runs_want ts (p := fun tok => decide (tok.type = .string)) (.string s) rfl
  refine runs_need (hw.bind ?_)
  exact runs_pure fun _ h => h

theorem runs_endsPhrase (t : Token) (ht : t = .scolon) :
    Runs (At ts) (endsPhrase (some (tok t))) () (At ts) := by
  subst ht
  exact runs_pure fun _ h => h

end

/-! ## Loops -/

section

variable {β γ ι : Type} {P Q : Rcslex → Prop} {b : β} {c : γ}

/-- A loop of `k` rounds and the last one. -/
theorem runs_loop {body : β → Parser (β ⊕ γ)} {k : Nat}
    (hk : ∀ lex, P lex → k ≤ lex.data.length)
    (h : ∀ n, k < n → Runs P (Scan.rounds .spins body n b) c Q) : Runs P (loop body b) c Q :=
  fun lex hlex => h _ (by have := hk lex hlex; omega) lex hlex

theorem length_le_flatMap {f : ι → List Token} (hf : ∀ i, f i ≠ []) (items : List ι) :
    items.length ≤ (items.flatMap f).length := by
  induction items with
  | nil => exact Nat.zero_le _
  | cons i items ih =>
    have := List.length_pos_iff.mpr (hf i)
    rw [List.flatMap_cons, List.length_append, List.length_cons]
    omega

/-- A round of `eachId`. -/
def eachRound (body : β → Tok → Parser (β ⊕ β)) (b : β) : Parser (β ⊕ β × Option Tok) := do
  match ← rcslexGet with
  | none => return .inr (b, none)
  | some tok =>
    if tok.type = .id then
      match ← body b tok with
      | .inl b => return .inl b
      | .inr b => return .inr (b, some tok)
    else return .inr (b, some tok)

theorem eachId_eq (body : β → Tok → Parser (β ⊕ β)) : eachId body = loop (eachRound body) := rfl

variable {l : List Byte}

theorem runs_eachRound {body : β → Tok → Parser (β ⊕ β)} (h : IsWord l) {ts : List Token} {b' : β}
    (hbody : Runs (At ts) (body b ⟨.id, l⟩) (.inl b') Q) :
    Runs (At (wordTok l :: ts)) (eachRound body b) (.inl b') Q := by
  refine (runs_get _ _).bind ?_
  rw [tok_wordTok h]
  dsimp only
  rw [if_pos rfl]
  exact hbody.bind (runs_pure fun _ h => h)

/-- The items of a list of the admin part, each with a word in front. -/
theorem runs_listOf {m : β → Tok → Parser β} (f : β → ι → β) (word : ι → List Byte)
    (more : ι → List Token) (items : List ι) (b : β) (hword : ∀ i ∈ items, IsWord (word i))
    (hbody : ∀ b, ∀ i ∈ items, ∀ ts, Runs (At (more i ++ ts)) (m b ⟨.id, word i⟩) (f b i) (At ts))
    (ts : List Token) :
    Runs (At (items.flatMap (fun i => wordTok (word i) :: more i) ++ .scolon :: ts)) (listOf m b)
      (items.foldl f b) (At ts) := by
  have hrounds : ∀ n, items.length < n → ∀ b,
      Runs (At (items.flatMap (fun i => wordTok (word i) :: more i) ++ .scolon :: ts))
        (Scan.rounds .spins (eachRound fun b tok => do return .inl (← m b tok)) n b)
        (items.foldl f b, some ⟨.scolon, [59]⟩) (At ts) := by
    induction items with
    | nil =>
      intro n hn b
      obtain ⟨n, rfl⟩ := Nat.exists_eq_succ_of_ne_zero (Nat.ne_of_gt hn)
      exact Runs.last ((runs_get .scolon ts).bind (runs_pure fun _ h => h))
    | cons i items ih =>
      intro n hn b
      obtain ⟨n, rfl⟩ := Nat.exists_eq_succ_of_ne_zero (Nat.ne_of_gt (Nat.zero_lt_of_lt hn))
      have hi : i ∈ i :: items := List.mem_cons_self
      refine Runs.round ?_ (ih (fun i hi => hword i (.tail _ hi))
        (fun b i hi => hbody b i (.tail _ hi)) n (Nat.lt_of_succ_lt_succ hn) (f b i))
      rw [List.flatMap_cons, List.append_assoc, List.cons_append]
      exact runs_eachRound (hword i hi) ((hbody b i hi _).bind (runs_pure fun _ h => h))
  refine Runs.bind (runs_loop (k := items.length) (fun lex hlex => ?_) fun n hn => hrounds n hn b)
    ((runs_endsPhrase ts .scolon rfl).bind (runs_pure fun _ h => h))
  have hle := hlex.length_le
  have := length_le_flatMap (f := fun i => wordTok (word i) :: more i) (fun i => List.cons_ne_nil _ _)
    items
  rw [List.length_append] at hle
  omega

theorem runs_listOf_nil {m : β → Tok → Parser β} (b : β) (ts : List Token) :
    Runs (At (.scolon :: ts)) (listOf m b) b (At ts) :=
  runs_listOf (fun b (_ : Empty) => b) (fun _ => []) (fun _ => []) [] b (by simp) (by simp) ts

end

/-! ## Strings -/

/-- The string of a raw form. -/
def halve : List Byte → List Byte
  | 64 :: 64 :: s => 64 :: halve s
  | b :: s => b :: halve s
  | [] => []

theorem halve_double (s : List Byte) : halve (double s) = s := by
  induction s with
  | nil => rfl
  | cons b s ih =>
    rw [double_cons]
    by_cases hb : b = 64
    · subst hb
      rw [if_pos rfl]
      show 64 :: halve (double s) = _
      rw [ih]
    · rw [if_neg hb, List.singleton_append, halve, ih]
      exact fun _ heq _ => hb heq

/-- A raw form of a string. -/
def IsRaw (l : List Byte) : Prop := double (halve l) = l

instance (l : List Byte) : Decidable (IsRaw l) := inferInstanceAs (Decidable (_ = _))

theorem isRaw_double (s : List Byte) : IsRaw (double s) := by rw [IsRaw, halve_double]

/-! ## The admin part -/

/-- A keyword. -/
def kw (s : String) : Token := wordTok (bytes s.toList)

def branchToks : Option Revnum → List Token
  | none => []
  | some num => [kw "branch", wordTok num, .scolon]

def tagToks (t : List Byte × Revnum) : List Token := [wordTok t.1, .colon, wordTok t.2]

def strictToks (strict : Bool) : List Token := if strict then [kw "strict", .scolon] else []

def commentToks : Option (List Byte) → List Token
  | none => []
  | some c => [kw "comment", .string (halve c), .scolon]

def expandToks (expand : Expand) : List Token :=
  if expand = .default then [] else [kw "expand", .string (keywordEncodeExpand expand), .scolon]

/-- The tokens of the admin part, without those of an access list. -/
def adminToks (adm : Admin) : List Token :=
  kw "head" :: wordTok adm.head :: .scolon :: (branchToks adm.branch ++ (kw "access" :: .scolon ::
    kw "symbols" :: (adm.taglist.flatMap tagToks ++ .scolon :: kw "locks" :: .scolon ::
      (strictToks adm.strictlock ++ (commentToks adm.comment ++ expandToks adm.expand)))))

/-- What can be printed of an admin part. -/
structure Printable (adm : Admin) : Prop where
  head : IsNum adm.head
  branch : ∀ b ∈ adm.branch, IsNum b
  accesslist : adm.accesslist = []
  taglist : ∀ t ∈ adm.taglist, IsWord t.1 ∧ 0 ∉ t.1 ∧ IsNum t.2
  comment : ∀ c ∈ adm.comment, IsRaw c

section

variable {r : Revnum} (ts : List Token)

theorem runs_kw {s : String} (h : IsWord (bytes s.toList)) :
    Runs (At (kw s :: ts)) (need (wantKw s)) ⟨.id, bytes s.toList⟩ (At ts) := runs_wantKw ts h

theorem runs_parseHead (hr : IsNum r) :
    Runs (At (kw "head" :: wordTok r :: .scolon :: ts)) parseHead r (At ts) :=
  (runs_kw _ (by decide)).bind ((runs_getNum _ hr).bind ((runs_scolon _).bind (runs_pure fun _ h => h)))

theorem runs_parseBranch {branch : Option Revnum} (hb : ∀ b ∈ branch, IsNum b) :
    Runs (At (branchToks branch ++ kw "access" :: ts)) parseBranch
      (branch, some ⟨.id, bytes "access".toList⟩) (At ts) := by
  have hword {s : String} (h : IsWord (bytes s.toList)) (ts : List Token) :
      Runs (At (kw s :: ts)) (need (wantType .id)) ⟨.id, bytes s.toList⟩ (At ts) := by
    rw [← tok_wordTok h]
    refine runs_need (runs_want ts _ ?_)
    rw [kw, tok_wordTok h]
    rfl
  cases branch with
  | none => exact (hword (by decide) ts).bind (runs_pure fun _ h => h)
  | some num =>
    refine (hword (by decide) _).bind ((runs_getNum _ (hb num rfl)).bind ((runs_scolon _).bind ?_))
    have hget := runs_get (kw "access") ts
    rw [kw, tok_wordTok (by decide)] at hget
    exact hget.bind (runs_pure fun _ h => h)

theorem runs_parseAccess :
    Runs (At (.scolon :: ts)) (parseAccess (some ⟨.id, bytes "access".toList⟩)) [] (At ts) :=
  runs_listOf_nil [] ts

theorem foldl_snoc {α : Type} (l l' : List α) : l.foldl (fun acc a => acc ++ [a]) l' = l' ++ l := by
  induction l generalizing l' with
  | nil => exact (List.append_nil l').symm
  | cons a l ih => rw [List.foldl_cons, ih, List.append_assoc, List.singleton_append]

theorem runs_parseSymbols {taglist : List (List Byte × Revnum)}
    (ht : ∀ t ∈ taglist, IsWord t.1 ∧ 0 ∉ t.1 ∧ IsNum t.2) :
    Runs (At (kw "symbols" :: (taglist.flatMap tagToks ++ .scolon :: ts))) parseSymbols taglist
      (At ts) := by
  refine (runs_kw _ (by decide)).bind ?_
  have hfold : taglist.foldl (fun tags t => tags ++ [t]) [] = taglist := foldl_snoc taglist []
  have hlist := runs_listOf (m := fun tags sym => do
      let _ ← need (wantType .colon)
      let num ← need getNum
      return tags ++ [(sym.text, num)])
    (fun tags t => tags ++ [t]) Prod.fst (fun t => [.colon, wordTok t.2]) taglist []
    (fun t h => (ht t h).1) (fun tags t h ts => ?_) ts
  · rwa [hfold] at hlist
  exact (runs_colon _).bind ((runs_getNum _ (ht t h).2.2).bind (runs_pure fun _ h => h))

theorem runs_parseLocks : Runs (At (kw "locks" :: .scolon :: ts)) parseLocks () (At ts) :=
  (runs_kw _ (by decide)).bind (runs_listOf_nil () ts)

theorem keywordDecodeExpand_cstr (e : Expand) :
    keywordDecodeExpand (cstr (double (keywordEncodeExpand e))) = some e := by
  cases e <;> rfl

section

variable {adm : Admin} {Q : Rcslex → Prop} {n : Nat} {c : Admin × Option Tok}

/-- The rounds that have no phrase to read, and one that has one. -/
theorem runs_option {s : String} (h : IsWord (bytes s.toList)) {more : List Token} {adm' : Admin}
    (hopt : Runs (At (more ++ ts)) (parseOption adm ⟨.id, bytes s.toList⟩) (.inl adm') (At ts))
    (hn : Runs (At ts) (Scan.rounds .spins (eachRound parseOption) n adm') c Q) :
    Runs (At (kw s :: (more ++ ts))) (Scan.rounds .spins (eachRound parseOption) (n + 1) adm) c Q :=
  Runs.round (runs_eachRound h hopt) hn

/-- A number ends them. -/
theorem runs_lastOption (hr : IsNum r) (adm : Admin) :
    Runs (At (wordTok r :: ts)) (Scan.rounds .spins (eachRound parseOption) (n + 1) adm)
      (adm, some ⟨.id, r⟩) (At (wordTok r :: ts)) := by
  refine Runs.last ((runs_get_word hr.1 ts).bind ?_)
  dsimp only
  rw [if_pos rfl]
  refine Runs.bind (a := .inr adm) ?_ (runs_pure fun _ h => h)
  rw [parseOption, if_neg (hr.not_isKw "strict" (by decide)),
    if_neg (hr.not_isKw "comment" (by decide)), if_neg (hr.not_isKw "expand" (by decide)),
    if_neg (by simp [hr.not_validateId])]
  exact (runs_unget hr.1 ts).bind (runs_pure fun _ h => h)

theorem runs_expand (hr : IsNum r) (expand : Expand) (adm : Admin) (he : adm.expand = .default)
    (hn : (expandToks expand).length < n) :
    Runs (At (expandToks expand ++ wordTok r :: ts))
      (Scan.rounds .spins (eachRound parseOption) n adm)
      ({ adm with expand }, some ⟨.id, r⟩) (At (wordTok r :: ts)) := by
  obtain ⟨n, rfl⟩ := Nat.exists_eq_succ_of_ne_zero (Nat.ne_of_gt (Nat.zero_lt_of_lt hn))
  by_cases hd : expand = .default
  · have hadm : ({ adm with expand } : Admin) = adm := by rw [hd, ← he]
    rw [hadm, expandToks, if_pos hd]
    exact runs_lastOption ts hr adm
  · rw [expandToks, if_neg hd] at hn ⊢
    obtain ⟨n, rfl⟩ := Nat.exists_eq_succ_of_ne_zero (n := n) (by simp at hn; omega)
    refine runs_option _ (by decide) ?_ (runs_lastOption ts hr _)
    rw [parseOption, if_neg (by decide), if_neg (by decide), if_pos (by decide)]
    refine (runs_getString _ _).bind (Runs.bind (runs_need ?_) ((runs_scolon _).bind
      (runs_pure fun _ h => h)))
    rw [keywordDecodeExpand_cstr]
    exact runs_pure fun _ h => h

theorem runs_comment (hr : IsNum r) {comment : Option (List Byte)} (hc : ∀ c ∈ comment, IsRaw c)
    (expand : Expand) (adm : Admin) (hcomment : adm.comment = none) (he : adm.expand = .default)
    (hn : (commentToks comment).length + (expandToks expand).length < n) :
    Runs (At (commentToks comment ++ (expandToks expand ++ wordTok r :: ts)))
      (Scan.rounds .spins (eachRound parseOption) n adm)
      ({ adm with comment, expand }, some ⟨.id, r⟩) (At (wordTok r :: ts)) := by
  cases comment with
  | none =>
    have hadm : ({ adm with comment := none, expand } : Admin) = { adm with expand } := by
      rw [hcomment]
    rw [hadm]
    exact runs_expand ts hr expand adm he (by simpa [commentToks] using hn)
  | some c =>
    obtain ⟨n, rfl⟩ := Nat.exists_eq_succ_of_ne_zero (Nat.ne_of_gt (Nat.zero_lt_of_lt hn))
    refine runs_option _ (by decide) ?_
      (runs_expand ts hr expand { adm with comment := some c } he (by simp [commentToks] at hn; omega))
    rw [parseOption, if_neg (by decide), if_pos (by decide)]
    refine (runs_getString _ _).bind ((runs_scolon _).bind ?_)
    rw [show double (halve c) = c from hc c rfl]
    exact runs_pure fun _ h => h

/-- The phrases behind the locks. -/
theorem runs_options (hr : IsNum r) (strict : Bool) {comment : Option (List Byte)}
    (hc : ∀ c ∈ comment, IsRaw c) (expand : Expand) (adm : Admin) (hstrict : adm.strictlock = false)
    (hcomment : adm.comment = none) (he : adm.expand = .default) :
    Runs (At (strictToks strict ++ (commentToks comment ++ (expandToks expand ++ wordTok r :: ts))))
      (eachId parseOption adm)
      ({ adm with strictlock := strict, comment, expand }, some ⟨.id, r⟩) (At (wordTok r :: ts)) := by
  refine runs_loop (k := (strictToks strict).length + ((commentToks comment).length +
    (expandToks expand).length)) (fun lex h => ?_) fun n hn => ?_
  · have hle := h.length_le
    simp only [List.length_append] at hle
    omega
  · cases strict with
    | false =>
      have hadm : ({ adm with strictlock := false, comment, expand } : Admin) =
          { adm with comment, expand } := by
        rw [hstrict]
      rw [hadm]
      exact runs_comment ts hr hc expand adm hcomment he (by simpa [strictToks] using hn)
    | true =>
      obtain ⟨n, rfl⟩ := Nat.exists_eq_succ_of_ne_zero (Nat.ne_of_gt (Nat.zero_lt_of_lt hn))
      refine runs_option _ (by decide) ?_ (runs_comment ts hr hc expand
        { adm with strictlock := true } hcomment he (by simp [strictToks] at hn; omega))
      rw [parseOption, if_pos (by decide)]
      exact (runs_scolon _).bind (runs_pure fun _ h => h)

end

/-- The admin part, with the number of a delta behind it. -/
theorem runs_parseAdmin {adm : Admin} (h : Printable adm) (hr : IsNum r) :
    Runs (At (adminToks adm ++ wordTok r :: ts)) parseAdmin adm (At (wordTok r :: ts)) := by
  have hadm : ({ (⟨adm.head, adm.branch, [], adm.taglist, false, none, .default⟩ : Admin) with
      strictlock := adm.strictlock, comment := adm.comment, expand := adm.expand } : Admin) = adm := by
    rw [← h.accesslist]
  rw [adminToks]
  simp only [List.cons_append, List.append_assoc]
  refine (runs_parseHead _ h.head).bind ((runs_parseBranch _ h.branch).bind ((runs_parseAccess _).bind
    ((runs_parseSymbols _ h.taglist).bind ((runs_parseLocks _).bind ?_))))
  refine (runs_options ts hr adm.strictlock h.comment adm.expand _ rfl rfl rfl).bind ?_
  rw [hadm]
  exact runs_pure fun _ h => h

end

/-! ## The deltas -/

/-- The tokens of a header, behind its number. -/
def headerTail (e : HeaderEntry) : List Token :=
  kw "date" :: wordTok e.revdate :: .scolon :: kw "author" :: wordTok e.author :: .scolon ::
    kw "state" :: (e.state.toList.map wordTok ++ .scolon :: kw "branches" ::
      (e.branches.map wordTok ++ .scolon :: kw "next" :: (e.next.toList.map wordTok ++ [.scolon])))

/-- What can be printed of a header. -/
structure PrintableHeader (e : HeaderEntry) : Prop where
  revnum : IsNum e.revnum
  revdate : IsNum e.revdate
  author : IsId e.author
  state : ∀ s ∈ e.state, IsId s
  branches : ∀ r ∈ e.branches, IsNum r
  next : ∀ r ∈ e.next, IsNum r

section

variable {α : Type} {a : α} {Q : Rcslex → Prop} {l : List Byte} (ts : List Token)

/-- A token that need not be there, with a semicolon behind it. -/
theorem runs_optional {valid : Tok → Bool} {o : Option (List Byte)}
    (ho : ∀ l ∈ o, IsWord l ∧ valid ⟨.id, l⟩ = true) (hs : valid (tok .scolon) = false) :
    ∃ t P, Runs (At (o.toList.map wordTok ++ .scolon :: ts)) (need rcslexGet) t P ∧
      Runs P (optional valid t) (o, some (tok .scolon)) (At ts) := by
  cases o with
  | none =>
    refine ⟨_, _, runs_need (runs_get .scolon ts), ?_⟩
    rw [optional, if_neg (by rw [hs]; decide)]
    exact runs_pure fun _ h => h
  | some l =>
    obtain ⟨hw, hv⟩ := ho l rfl
    have hget := runs_get (wordTok l) (.scolon :: ts)
    rw [tok_wordTok hw] at hget
    refine ⟨_, _, runs_need hget, ?_⟩
    rw [optional, if_pos hv]
    exact (runs_get .scolon ts).bind (runs_pure fun _ h => h)

theorem runs_numRounds {bs : List Revnum} (hbs : ∀ b ∈ bs, IsNum b) {n : Nat} (hn : bs.length < n)
    {t : Token} {rest : List Token} (heq : bs.map wordTok ++ .scolon :: ts = t :: rest) :
    Runs (At rest) (Scan.rounds .spins (fun tok : Option Tok => do
      if tok.any Tok.validateNum then return .inl (← rcslexGet) else return .inr tok) n (some (tok t)))
      (some (tok .scolon)) (At ts) := by
  induction bs generalizing n t rest with
  | nil =>
    obtain ⟨rfl, rfl⟩ := List.cons.inj heq
    obtain ⟨n, rfl⟩ := Nat.exists_eq_succ_of_ne_zero (Nat.ne_of_gt hn)
    exact Runs.last (runs_pure fun _ h => h)
  | cons b bs ih =>
    obtain ⟨rfl, rfl⟩ := List.cons.inj heq
    obtain ⟨n, rfl⟩ := Nat.exists_eq_succ_of_ne_zero (Nat.ne_of_gt (Nat.zero_lt_of_lt hn))
    have hb := hbs b List.mem_cons_self
    obtain ⟨t, rest, hrest⟩ : ∃ t rest, bs.map wordTok ++ .scolon :: ts = t :: rest := by
      cases bs <;> exact ⟨_, _, rfl⟩
    refine Runs.round ?_
      (ih (fun b hb => hbs b (.tail _ hb)) (Nat.lt_of_succ_lt_succ hn) hrest)
    rw [tok_wordTok hb.1, if_pos (by simpa using hb.2)]
    show Runs (At (bs.map wordTok ++ .scolon :: ts)) _ _ _
    rw [hrest]
    exact (runs_get t rest).bind (runs_pure fun _ h => h)

/-- The numbers behind `branches`. -/
theorem runs_skipNums {bs : List Revnum} (hbs : ∀ b ∈ bs, IsNum b) :
    ∃ t P, Runs (At (bs.map wordTok ++ .scolon :: ts)) (need rcslexGet) t P ∧
      Runs P (skipNums (some t)) (some (tok .scolon)) (At ts) := by
  obtain ⟨t, rest, hrest⟩ : ∃ t rest, bs.map wordTok ++ .scolon :: ts = t :: rest := by
    cases bs <;> exact ⟨_, _, rfl⟩
  have hlen := congrArg List.length hrest
  rw [hrest]
  refine ⟨_, _, runs_need (runs_get t rest), runs_loop (k := bs.length) (fun lex h => ?_)
    fun n hn => runs_numRounds ts hbs hn hrest⟩
  have := h.length_le
  simp only [List.length_append, List.length_map, List.length_cons] at hlen
  omega

/-- There is no new phrase. -/
theorem runs_skipPhrases {s : String}
    (h : (!(Tok.mk .id l).isKw (bytes s.toList) && (Tok.mk .id l).validateId) = false) :
    Runs (Behind (wordTok l) ts) (need (skipPhrases s (some ⟨.id, l⟩))) ⟨.id, l⟩
      (Behind (wordTok l) ts) := by
  refine runs_need (runs_loop (k := 0) (fun _ _ => Nat.zero_le _) fun n hn => ?_)
  obtain ⟨n, rfl⟩ := Nat.exists_eq_succ_of_ne_zero (Nat.ne_of_gt hn)
  refine Runs.last ?_
  rw [if_neg (by simp [Option.any, h])]
  exact runs_pure fun _ h => h

/-- What comes behind a delta. -/
def EndsDelta (l : List Byte) : Prop := IsNum l ∨ l = bytes "desc".toList

theorem runs_parseDelta {e : HeaderEntry} (he : PrintableHeader e) (hl : EndsDelta l) :
    Runs (At (headerTail e ++ wordTok l :: ts)) (parseDelta e.revnum) (e.entry, ⟨.id, l⟩)
      (Behind (wordTok l) ts) := by
  have hend : IsWord l ∧
      (!(Tok.mk .id l).isKw (bytes "desc".toList) && (Tok.mk .id l).validateId) = false := by
    rcases hl with hl | rfl
    · exact ⟨hl.1, by rw [hl.not_validateId, Bool.and_false]⟩
    · exact ⟨by decide, by decide⟩
  rw [headerTail]
  simp only [List.cons_append, List.append_assoc]
  obtain ⟨t₁, P₁, hstate, hstate'⟩ := runs_optional _ he.state rfl
  obtain ⟨t₂, P₂, hbranches, hbranches'⟩ := runs_skipNums _ he.branches
  obtain ⟨t₃, P₃, hnext, hnext'⟩ := runs_optional (wordTok l :: ts) he.next rfl
  refine (runs_kw _ (by decide)).bind ((runs_getNum _ he.revdate).bind ((runs_scolon _).bind
    ((runs_kw _ (by decide)).bind ((runs_getId _ he.author).bind ((runs_scolon _).bind
      ((runs_kw _ (by decide)).bind (hstate.bind (hstate'.bind ?_))))))))
  refine (runs_endsPhrase _ .scolon rfl).bind ((runs_kw _ (by decide)).bind (hbranches.bind
    (hbranches'.bind ((runs_endsPhrase _ .scolon rfl).bind ((runs_kw _ (by decide)).bind (hnext.bind
      (hnext'.bind ((runs_endsPhrase _ .scolon rfl).bind ?_))))))))
  exact (runs_get_word hend.1 ts).bind ((runs_skipPhrases ts hend.2).bind (runs_pure fun _ h => h))

/-- The tokens of the headers and the keyword behind them. -/
def headerToks (es : List HeaderEntry) : List Token :=
  es.flatMap (fun e => wordTok e.revnum :: headerTail e) ++ kw "desc" :: ts

/-- The first of them. -/
def firstWord : List HeaderEntry → List Byte
  | [] => bytes "desc".toList
  | e :: _ => e.revnum

theorem headerToks_eq (es : List HeaderEntry) :
    headerToks ts es = wordTok (firstWord es) :: (headerToks ts es).tail := by
  cases es <;> rfl

theorem endsDelta_firstWord {es : List HeaderEntry} (hes : ∀ e ∈ es, PrintableHeader e) :
    EndsDelta (firstWord es) := by
  cases es with
  | nil => exact .inr rfl
  | cons e es => exact .inl (hes e List.mem_cons_self).revnum

variable {ρ : Type} {importdelta : ρ → DeltaEntry → Except Stop ρ} {rf rf' : ρ}

theorem runs_deltaRounds {es : List HeaderEntry} (hes : ∀ e ∈ es, PrintableHeader e)
    (hf : (es.map HeaderEntry.entry).foldlM importdelta rf = .ok rf') {n : Nat} (hn : es.length < n) :
    Runs (Behind (wordTok (firstWord es)) (headerToks ts es).tail)
      (Scan.rounds .spins (deltaRound importdelta) n (some ⟨.id, firstWord es⟩, rf)) rf'
      (At (kw "desc" :: ts)) := by
  induction es generalizing rf n with
  | nil =>
    obtain ⟨n, rfl⟩ := Nat.exists_eq_succ_of_ne_zero (Nat.ne_of_gt hn)
    obtain rfl := Except.ok.inj hf
    refine Runs.last ?_
    rw [deltaRound, if_neg (by decide)]
    exact (runs_unget (by decide) ts).bind (runs_pure fun _ h => h)
  | cons e es ih =>
    obtain ⟨n, rfl⟩ := Nat.exists_eq_succ_of_ne_zero (Nat.ne_of_gt (Nat.zero_lt_of_lt hn))
    have he := hes e List.mem_cons_self
    have hes' : ∀ e ∈ es, PrintableHeader e := fun e he => hes e (.tail _ he)
    rw [List.map_cons, List.foldlM_cons] at hf
    cases himp : importdelta rf e.entry with
    | error err =>
      rw [himp] at hf
      cases hf
    | ok rf₁ =>
      rw [himp] at hf
      refine Runs.round ?_
        (ih hes' hf (Nat.lt_of_succ_lt_succ hn))
      rw [deltaRound, if_pos (show (Tok.mk .id (firstWord (e :: es))).validateNum = true from he.revnum.2)]
      have htail : (headerToks ts (e :: es)).tail =
          headerTail e ++ wordTok (firstWord es) :: (headerToks ts es).tail := by
        rw [← headerToks_eq]
        simp [headerToks, List.flatMap_cons]
      rw [htail]
      refine ((runs_parseDelta _ he (endsDelta_firstWord hes')).weaken fun _ h => h.1).bind ?_
      dsimp only
      rw [himp]
      exact Runs.bind (a := rf₁) (fun lex h => ⟨lex, rfl, h⟩) (runs_pure fun _ h => h)

/-- The headers. -/
theorem runs_parseDeltas {es : List HeaderEntry} (hes : ∀ e ∈ es, PrintableHeader e)
    (hf : (es.map HeaderEntry.entry).foldlM importdelta rf = .ok rf') :
    Runs (At (headerToks ts es)) (parseDeltas importdelta rf) rf' (At (kw "desc" :: ts)) := by
  have hfirst : IsWord (firstWord es) := by
    rcases endsDelta_firstWord hes with h | h
    · exact h.1
    · rw [h]
      decide
  rw [headerToks_eq]
  refine (runs_get_word hfirst _).bind (runs_loop (k := es.length) (fun lex h => ?_)
    fun n hn => runs_deltaRounds ts hes hf hn)
  obtain ⟨-, lex', hunget, hat⟩ := h
  have hlen := hat.length_le
  have hdata : lex'.data = lex.data := by
    rw [rcslexUnget] at hunget
    split at hunget
    · obtain ⟨-, rfl⟩ := Prod.mk.inj (Except.ok.inj hunget)
      rfl
    · cases hunget
  rw [← headerToks_eq, hdata] at hlen
  have := length_le_flatMap (f := fun e => wordTok e.revnum :: headerTail e)
    (fun e => List.cons_ne_nil _ _) es
  rw [headerToks, List.length_append] at hlen
  omega

end

/-! ## The texts -/

/-- The tokens of a text. -/
def textToks (t : TextEntry) : List Token :=
  [wordTok t.revnum, kw "log", .string (halve t.log), kw "text", .string (halve t.text)]

/-- What can be printed of a text. -/
structure PrintableText (t : TextEntry) : Prop where
  revnum : IsNum t.revnum
  log : IsRaw t.log
  text : IsRaw t.text

section

variable {rf : RcsFile}

theorem runs_textRound {t : TextEntry} (ht : PrintableText t) {p : Ptr}
    (hp : rf.getdelta t.revnum = some p) (ts : List Token) :
    Runs (At (textToks t ++ ts)) (textRound rf) (.inl (rf.modify p (Delta.addText t))) (At ts) := by
  have htext : (!(Tok.mk .id (bytes "text".toList)).isKw (bytes "text".toList) &&
      (Tok.mk .id (bytes "text".toList)).validateId) = false := by decide
  refine (runs_num _ ht.revnum).bind ?_
  dsimp only
  rw [hp]
  refine (runs_kw _ (by decide)).bind ((runs_getString _ _).bind ((runs_get_word (by decide) _).bind
    ((runs_skipPhrases _ htext).bind (Runs.weaken ?_ fun _ h => h.1))))
  rw [if_pos (by decide)]
  refine (runs_getString _ _).bind ?_
  rw [show double (halve t.log) = t.log from ht.log, show double (halve t.text) = t.text from ht.text]
  exact runs_pure fun _ h => h

/-- The texts, up to the end of the file. -/
theorem runs_parseDeltatexts {texts : List TextEntry} (ht : ∀ t ∈ texts, PrintableText t)
    (hfound : ∀ t ∈ texts, (rf.getdelta t.revnum).isSome) :
    Runs (At (texts.flatMap textToks)) (parseDeltatexts rf) (rf.parseDeltatexts texts)
      fun _ => True := by
  have hrounds : ∀ n, texts.length < n → Runs (At (texts.flatMap textToks))
      (Scan.rounds .spins textRound n rf) (rf.parseDeltatexts texts) fun _ => True := by
    induction texts generalizing rf with
    | nil =>
      intro n hn
      obtain ⟨n, rfl⟩ := Nat.exists_eq_succ_of_ne_zero (Nat.ne_of_gt hn)
      refine Runs.last fun lex h => ?_
      obtain ⟨lex', hget, heof⟩ := h.get_nil
      have hnum : getNum lex = .ok (none, lex') := by
        rw [getNum, Scan.bind_ok (show wantType .id lex = .ok (none, lex') from (Scan.bind_ok hget).trans rfl)]
        rfl
      refine ⟨lex', (Scan.bind_ok hnum).trans ?_, trivial⟩
      show (if lex'.eof = true then (pure (.inr rf) : Parser (RcsFile ⊕ RcsFile)) else throw .error) lex' = _
      rw [if_pos heof]
      rfl
    | cons t texts ih =>
      intro n hn
      obtain ⟨n, rfl⟩ := Nat.exists_eq_succ_of_ne_zero (Nat.ne_of_gt (Nat.zero_lt_of_lt hn))
      obtain ⟨p, hp⟩ := Option.isSome_iff_exists.mp (hfound t List.mem_cons_self)
      rw [parseDeltatexts_cons hp, List.flatMap_cons]
      refine Runs.round (runs_textRound (ht t List.mem_cons_self) hp _) (ih (fun t h => ht t (.tail _ h))
        (fun t h => ?_) n (Nat.lt_of_succ_lt_succ hn))
      rw [getdelta_modify (fills_addText _)]
      exact hfound t (.tail _ h)
  refine runs_loop (k := texts.length) (fun lex h => ?_) hrounds
  have hlen := h.length_le
  have := length_le_flatMap (f := textToks) (fun t => List.cons_ne_nil _ _) texts
  omega

end

end Csup.Rcsparse
