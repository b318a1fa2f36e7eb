import Csup.Rcs.Parse

/-!
# What the parser reads of an RCS file

A part of the parser `Goes` so far if it ends with success or with -1; most of them do,
from every place of every file. The tokens behind `branch` are the exception, and what is done
with the entries of `parse_deltas`.

* `ends_parseAdmin`, `parseAdmin_absent`: where `parse_admin` looks into a token that is not
  there;
* `fileParts`: the admin part and the entries of a file;
* `rcsparse_survives`, `rcsparse_ok`: the parser returns if the entries can be imported, and
  what it returns.
-/

namespace Csup.Rcsparse

open Csup.Framework Csup.Keyword Csup.Lexer
open Csup.Rcs (DeltaEntry)

/-! ## What a run takes of the file -/

/-- The file stays, and the lexer has come `n` bytes further. -/
structure Moves (n : Nat) (lex lex' : Rcslex) : Prop where
  mapped : Mapped lex'
  data : lex'.data = lex.data
  offset : lex.offset + n ≤ lex'.offset

theorem moves_refl {lex : Rcslex} (h : Mapped lex) : Moves 0 lex lex := ⟨h, rfl, Nat.le_refl _⟩

theorem Moves.trans {m n : Nat} {lex lex' lex'' : Rcslex} (h : Moves m lex lex')
    (h' : Moves n lex' lex'') : Moves (m + n) lex lex'' := by
  have := h.offset
  have := h'.offset
  exact ⟨h'.mapped, h'.data.trans h.data, by omega⟩

theorem Moves.mono {m n : Nat} {lex lex' : Rcslex} (h : Moves n lex lex') (hmn : m ≤ n) :
    Moves m lex lex' := by
  have := h.offset
  exact ⟨h.mapped, h.data, by omega⟩

section

variable {α β γ : Type} {m : Parser α} {n : Nat}

/-- The parser ends with success or with -1, at least `n` bytes further. -/
def Goes (n : Nat) (m : Parser α) : Prop :=
  ∀ lex, Mapped lex → Scan.Ends (· = .error) m lex fun _ lex' => Moves n lex lex'

/-- With success or -1, and where it has found something, it has come further. -/
def Takes (m : Parser (Option α)) : Prop :=
  ∀ lex, Mapped lex → Scan.Ends (· = .error) m lex fun r lex' =>
    Moves 0 lex lex' ∧ (r.isSome → Moves 1 lex lex')

theorem Goes.mono {k : Nat} (h : Goes n m) (hk : k ≤ n) : Goes k m :=
  fun lex hl => (h lex hl).mono fun _ _ hm => hm.mono hk

theorem goes_pure (a : α) : Goes 0 (pure a : Parser α) := fun _ hl => moves_refl hl

theorem goes_throw : Goes n (throw .error : Parser α) := fun _ _ => rfl

theorem Goes.bind {k : α → Parser β} {l : Nat} (hm : Goes n m) (hk : ∀ a, Goes l (k a)) :
    Goes (n + l) (m >>= k) := fun lex hl =>
  (hm lex hl).bind fun a lex' h => (hk a lex' h.mapped).mono fun _ _ h' => h.trans h'

/-- A part, however far it goes, and the rest. -/
theorem Goes.andThen {k : α → Parser β} (hm : Goes n m) (hk : ∀ a, Goes 0 (k a)) :
    Goes 0 (m >>= k) := (hm.bind hk).mono (Nat.zero_le _)

theorem Takes.goes {m : Parser (Option α)} (h : Takes m) : Goes 0 m :=
  fun lex hl => (h lex hl).mono fun _ _ hm => hm.1

theorem Takes.need {m : Parser (Option α)} (h : Takes m) : Goes 1 (need m) := fun lex hl =>
  (h lex hl).bind fun r lex' hr => by
    match r, hr with
    | some a, hr => exact Scan.ends_pure (hr.2 rfl)
    | none, _ => exact Scan.ends_throw rfl

/-- What is found is passed on, or not. -/
theorem Takes.bind_filter {m : Parser (Option α)} (h : Takes m) (f : Option α → Option β)
    (hf : ∀ r, (f r).isSome → r.isSome) : Takes (do return f (← m)) := fun lex hl =>
  (h lex hl).bind fun r _ hr => Scan.ends_pure ⟨hr.1, fun hs => hr.2 (hf r hs)⟩

theorem rcslexGet_isOk {lex : Rcslex} (hl : Mapped lex) :
    ∃ tok lex', rcslexGet lex = .ok (tok, lex') := by
  obtain ⟨r, lex', hget, -, -, -, htok⟩ := get_moves hl
  match r, htok with
  | none, _ => exact ⟨none, lex', by simp only [rcslexGet, hget]⟩
  | some tok, htok =>
    exact ⟨some ⟨tok.type, lex.value tok⟩, lex',
      by simp only [rcslexGet, hget, if_pos (htok tok rfl).2.2]⟩

theorem ends_rcslexGet {lex : Rcslex} (hl : Mapped lex) :
    Scan.Ends (· = .error) rcslexGet lex fun r lex' => Moves 0 lex lex' ∧
      ∀ tok, r = some tok → Moves 1 lex lex' ∧ Moves tok.text.length lex lex' := by
  obtain ⟨r, lex', hget, hmapped, hdata, hle, htok⟩ := get_moves hl
  match r, htok with
  | none, _ =>
    have hrun : rcslexGet lex = .ok (none, lex') := by simp only [rcslexGet, hget]
    exact Scan.ends_of_ok hrun ⟨⟨hmapped, hdata, hle⟩, by simp⟩
  | some tok, htok =>
    obtain ⟨hlt, hlen, hin⟩ := htok tok rfl
    have hrun : rcslexGet lex = .ok (some ⟨tok.type, lex.value tok⟩, lex') := by
      simp only [rcslexGet, hget, if_pos hin]
    refine Scan.ends_of_ok hrun ⟨⟨hmapped, hdata, hle⟩, fun tok' h => ?_⟩
    obtain rfl := Option.some.inj h
    refine ⟨⟨hmapped, hdata, hlt⟩, hmapped, hdata, ?_⟩
    rw [show (lex.value tok).length = tok.len by
      rw [Rcslex.value, List.length_take, List.length_drop]
      omega]
    exact hlen

theorem takes_rcslexGet : Takes rcslexGet := fun _ hl =>
  (ends_rcslexGet hl).mono fun r _ hr => by
    refine ⟨hr.1, fun hs => ?_⟩
    obtain ⟨tok, rfl⟩ := Option.isSome_iff_exists.mp hs
    exact (hr.2 tok rfl).1

theorem takes_rcslexWant (p : Tok → Bool) : Takes (rcslexWant p) :=
  takes_rcslexGet.bind_filter _ fun r h => by cases r <;> simp_all

theorem takes_getNum : Takes getNum :=
  (takes_rcslexWant _).bind_filter _ fun r h => by cases r <;> simp_all

theorem takes_getId : Takes getId :=
  (takes_rcslexWant _).bind_filter _ fun r h => by cases r <;> simp_all

theorem takes_getString : Takes getString :=
  (takes_rcslexWant _).bind_filter _ fun r h => by cases r <;> simp_all

/-- A loop with the invariant `I`: a round that is not the last takes something of the file, or of
the weight of what the next one is given. -/
theorem ends_loop {body : β → Parser (β ⊕ γ)} {Q : γ → Rcslex → Prop} (w : β → Nat)
    (hw : ∀ b, w b ≤ 1) (I : β → Rcslex → Prop) (hI : ∀ b lex, I b lex → Mapped lex)
    (hbody : ∀ b lex, I b lex → Scan.Ends (· = .error) (body b) lex fun r lex' =>
      (∀ b', r = .inl b' → I b' lex' ∧ lex'.data = lex.data ∧
        lex.offset + w b' < lex'.offset + w b) ∧ ∀ c, r = .inr c → Q c lex')
    {b : β} {lex : Rcslex} (h : I b lex) : Scan.Ends (· = .error) (loop body b) lex Q := by
  refine Scan.ends_rounds (fun b lex => lex.data.length - lex.offset + w b) I
    (fun b lex h => ?_) h (by have := hw b; omega)
  refine (hbody b lex h).mono fun r lex' hr => ⟨fun b' hb' => ?_, hr.2⟩
  obtain ⟨h', hdata, hlt⟩ := hr.1 b' hb'
  have hend := (hI b' lex' h').offset
  have hend' := (hI b lex h).offset
  rw [hdata] at hend ⊢
  exact ⟨h', by omega⟩

/-- A loop that takes something in every round but the last. -/
theorem goes_loop {body : β → Parser (β ⊕ γ)} (hbody : ∀ b lex, Mapped lex →
      Scan.Ends (· = .error) (body b) lex fun r lex' =>
        Moves 0 lex lex' ∧ ∀ b', r = .inl b' → Moves 1 lex lex') (b : β) :
    Goes 0 (loop body b) := by
  intro lex hl
  refine ends_loop (fun _ => 0) (fun _ => Nat.zero_le 1) (fun _ lex' => Moves 0 lex lex')
    (fun _ _ h => h.mapped) (fun b lex' hI => ?_) (moves_refl hl)
  refine (hbody b lex' hI.mapped).mono fun r lex'' hr => ⟨fun b' hb' => ?_, fun c _ => hI.trans hr.1⟩
  have hone := hr.2 b' hb'
  exact ⟨hI.trans hr.1, hone.data, hone.offset⟩

theorem goes_endsPhrase (tok : Option Tok) : Goes 0 (endsPhrase tok) := by
  match tok with
  | none => exact goes_throw
  | some tok =>
    show Goes 0 (if tok.type = .scolon then pure () else throw .error)
    by_cases h : tok.type = .scolon
    · rw [if_pos h]
      exact goes_pure ()
    · rw [if_neg h]
      exact goes_throw

theorem goes_skipPhrase : Goes 0 skipPhrase := by
  refine goes_loop (fun _ lex hl => ?_) ()
  refine (takes_rcslexGet lex hl).bind fun tok lex' htok => ?_
  split
  · rename_i hany
    refine Scan.ends_pure ⟨htok.1, fun _ _ => htok.2 ?_⟩
    cases tok <;> simp_all
  · exact (goes_endsPhrase tok lex' htok.1.mapped).bind fun _ _ h =>
      Scan.ends_pure ⟨htok.1.trans h, by simp⟩

theorem goes_eachId {body : β → Tok → Parser (β ⊕ β)} (hbody : ∀ b tok lex lex', Moves 1 lex lex' →
      Moves tok.text.length lex lex' → Scan.Ends (· = .error) (body b tok) lex' fun r lex'' =>
        Moves 0 lex lex'' ∧ ∀ b', r = .inl b' → Moves 1 lex lex'') (b : β) :
    Goes 0 (eachId body b) := by
  refine goes_loop (fun b lex hl => ?_) b
  refine (ends_rcslexGet hl).bind fun r lex' hr => ?_
  match r, hr with
  | none, hr => exact Scan.ends_pure ⟨hr.1, by simp⟩
  | some tok, hr =>
    obtain ⟨hone, hlen⟩ := hr.2 tok rfl
    dsimp only
    split
    · refine (hbody b tok lex lex' hone hlen).bind fun r lex'' hr' => ?_
      match r, hr' with
      | .inl b, hr' => exact Scan.ends_pure ⟨hr'.1, fun _ _ => hr'.2 b rfl⟩
      | .inr b, hr' => exact Scan.ends_pure ⟨hr'.1, by simp⟩
    · exact Scan.ends_pure ⟨hr.1, by simp⟩

theorem goes_listOf {body : β → Tok → Parser β} (hbody : ∀ b tok, Goes 0 (body b tok)) (b : β) :
    Goes 0 (listOf body b) := by
  refine (goes_eachId (fun b tok lex lex' hone _ => ?_) b).andThen fun r =>
    (goes_endsPhrase r.2).andThen fun _ => goes_pure r.1
  refine (hbody b tok lex' hone.mapped).bind fun b lex'' h => Scan.ends_pure ?_
  exact ⟨(hone.trans h).mono (Nat.zero_le _), fun _ _ => hone.trans h⟩

theorem goes_ite {c : Prop} [Decidable c] {m' : Parser α} (hm : c → Goes n m)
    (hm' : ¬c → Goes n m') : Goes n (if c then m else m') := by
  split
  · exact hm ‹_›
  · exact hm' ‹_›

/-- A wanted token, and the rest. -/
theorem Takes.andThen {m : Parser (Option α)} {k : α → Parser β} (hm : Takes m)
    (hk : ∀ a, Goes 0 (k a)) : Goes 0 (Rcsparse.need m >>= k) := hm.need.andThen hk

end

/-! ### The admin part -/

theorem goes_parseHead : Goes 0 parseHead :=
  (takes_rcslexWant _).andThen fun _ => takes_getNum.andThen fun num =>
    (takes_rcslexWant _).andThen fun _ => goes_pure num

theorem goes_parseBranch : Goes 0 parseBranch :=
  (takes_rcslexWant _).andThen fun tok => goes_ite
    (fun _ => takes_getNum.andThen fun num => (takes_rcslexWant _).andThen fun _ =>
      takes_rcslexGet.goes.andThen fun tok => goes_pure (some num, tok))
    fun _ => goes_pure (none, some tok)

/-- The token behind `branch` is there. -/
theorem goes_parseAccess (tok : Tok) : Goes 0 (parseAccess (some tok)) :=
  goes_ite (fun _ => goes_listOf (fun _ _ => goes_pure _) []) fun _ => goes_throw

theorem goes_parseSymbols : Goes 0 parseSymbols :=
  (takes_rcslexWant _).andThen fun _ => goes_listOf (fun _ _ =>
    (takes_rcslexWant _).andThen fun _ => takes_getNum.andThen fun _ => goes_pure _) []

theorem goes_parseLocks : Goes 0 parseLocks :=
  (takes_rcslexWant _).andThen fun _ => goes_listOf (fun _ _ =>
    (takes_rcslexWant _).andThen fun _ => (takes_rcslexWant _).andThen fun _ => goes_pure _) ()

/-- Behind a token, one phrase; where it is no phrase, the lexer goes back to the token. -/
theorem ends_parseOption (adm : Admin) (tok : Tok) {lex lex' : Rcslex} (hone : Moves 1 lex lex')
    (hlen : Moves tok.text.length lex lex') :
    Scan.Ends (· = .error) (parseOption adm tok) lex' fun r lex'' =>
      Moves 0 lex lex'' ∧ ∀ adm', r = .inl adm' → Moves 1 lex lex'' := by
  have hgoes {m : Parser (Admin ⊕ Admin)} (hm : Goes 0 m) :
      Scan.Ends (· = .error) m lex' fun r lex'' =>
        Moves 0 lex lex'' ∧ ∀ adm', r = .inl adm' → Moves 1 lex lex'' :=
    (hm lex' hone.mapped).mono fun _ _ h =>
      ⟨(hone.trans h).mono (Nat.zero_le _), fun _ _ => hone.trans h⟩
  unfold parseOption
  split
  · exact hgoes ((takes_rcslexWant _).andThen fun _ => goes_pure _)
  split
  · exact hgoes (takes_getString.andThen fun _ => (takes_rcslexWant _).andThen fun _ => goes_pure _)
  split
  · refine hgoes (takes_getString.andThen fun str => ?_)
    have hdecode : Goes 0 (need (pure (keywordDecodeExpand (cstr str)))) := by
      cases keywordDecodeExpand (cstr str) with
      | none => exact goes_throw
      | some expand => exact goes_pure expand
    exact hdecode.andThen fun _ => (takes_rcslexWant _).andThen fun _ => goes_pure _
  split
  · exact hgoes (goes_skipPhrase.andThen fun _ => goes_pure _)
  · have hoff := hlen.offset
    have hback : rcslexUnget tok lex' =
        .ok ((), { lex' with offset := lex'.offset - tok.text.length }) := if_pos (by omega)
    have hend := hone.mapped.offset
    have hmoves : Moves 0 lex { lex' with offset := lex'.offset - tok.text.length } :=
      ⟨⟨hone.mapped.last, show lex'.offset - tok.text.length ≤ lex'.data.length by omega⟩,
        hone.data, show lex.offset + 0 ≤ lex'.offset - tok.text.length by omega⟩
    exact (Scan.ends_of_ok hback hmoves).bind fun _ _ h => Scan.ends_pure ⟨h, by simp⟩

/-- The admin part, but for the token behind `branch`, which must be there. -/
theorem goes_parseRest (head : Revnum) (branch : Option Revnum) (tok : Tok) : Goes 0 (do
    let accesslist ← parseAccess (some tok)
    let taglist ← parseSymbols
    parseLocks
    let (adm, _) ← eachId parseOption ⟨head, branch, accesslist, taglist, false, none, .default⟩
    return adm) :=
  (goes_parseAccess tok).andThen fun _ => goes_parseSymbols.andThen fun _ =>
    goes_parseLocks.andThen fun _ => (goes_eachId (fun adm tok _ _ hone hlen =>
      ends_parseOption adm tok hone hlen) _).andThen fun r => goes_pure r.1

/-! ### Deltas -/

/-- The lexer has come over the token. -/
def Held (tok : Option Tok) (lex : Rcslex) : Prop :=
  ∀ t, tok = some t → t.text.length ≤ lex.offset

theorem ends_get_held {lex : Rcslex} (hl : Mapped lex) :
    Scan.Ends (· = .error) rcslexGet lex fun r lex' =>
      Moves 0 lex lex' ∧ Held r lex' ∧ (r.isSome → Moves 1 lex lex') :=
  (ends_rcslexGet hl).mono fun r lex' hr => by
    refine ⟨hr.1, fun t ht => ?_, fun hs => ?_⟩
    · have := (hr.2 t ht).2.offset
      omega
    · obtain ⟨tok, rfl⟩ := Option.isSome_iff_exists.mp hs
      exact (hr.2 tok rfl).1

/-- A loop that is given a token and takes the next one. -/
theorem ends_tokens {body : Option Tok → Parser (Option Tok ⊕ Option Tok)}
    (J : Option Tok → Rcslex → Prop)
    (hbody : ∀ tok lex, Mapped lex → J tok lex → Scan.Ends (· = .error) (body tok) lex
      fun r lex' => Moves 0 lex lex' ∧
        (∀ tok', r = .inl tok' → tok.isSome ∧ J tok' lex' ∧ (tok'.isSome → Moves 1 lex lex')) ∧
        ∀ tok', r = .inr tok' → J tok' lex')
    {tok : Option Tok} {lex : Rcslex} (hl : Mapped lex) (htok : J tok lex) :
    Scan.Ends (· = .error) (loop body tok) lex fun r lex' => Moves 0 lex lex' ∧ J r lex' := by
  refine ends_loop (fun tok => if tok.isSome then 1 else 0) (fun tok => by split <;> omega)
    (fun tok lex' => Moves 0 lex lex' ∧ J tok lex') (fun _ _ h => h.1.mapped)
    (fun tok lex' hI => ?_) ⟨moves_refl hl, htok⟩
  refine (hbody tok lex' hI.1.mapped hI.2).mono fun r lex'' hr => ⟨fun tok' h => ?_, fun tok' h => ?_⟩
  · obtain ⟨hsome, hheld, hone⟩ := hr.2.1 tok' h
    refine ⟨⟨hI.1.trans hr.1, hheld⟩, hr.1.data, ?_⟩
    have hle := hr.1.offset
    rw [if_pos hsome]
    split
    · have := (hone ‹_›).offset
      omega
    · omega
  · exact ⟨hI.1.trans hr.1, hr.2.2 tok' h⟩

theorem goes_skipNums (tok : Option Tok) : Goes 0 (skipNums tok) := by
  intro lex hl
  refine (ends_tokens (fun _ _ => True) (fun tok lex hl _ => ?_) hl trivial).mono fun _ _ h => h.1
  split
  · rename_i hany
    refine (ends_get_held hl).bind fun r lex' hr => Scan.ends_pure ⟨hr.1, fun tok' h => ?_, by simp⟩
    obtain rfl := Sum.inl.inj h
    exact ⟨by cases tok <;> simp_all, trivial, hr.2.2⟩
  · exact Scan.ends_pure ⟨moves_refl hl, by simp, fun _ _ => trivial⟩

theorem ends_skipPhrases (kw : String) {tok : Option Tok} {lex : Rcslex} (hl : Mapped lex)
    (htok : Held tok lex) : Scan.Ends (· = .error) (skipPhrases kw tok) lex
      fun r lex' => Moves 0 lex lex' ∧ Held r lex' := by
  refine ends_tokens Held (fun tok lex hl htok => ?_) hl htok
  split
  · rename_i hany
    refine (goes_skipPhrase lex hl).bind fun _ lex' hskip => ?_
    refine (ends_get_held hskip.mapped).bind fun r lex'' hr =>
      Scan.ends_pure ⟨hskip.trans hr.1, fun tok' h => ?_, by simp⟩
    obtain rfl := Sum.inl.inj h
    exact ⟨by cases tok <;> simp_all, hr.2.1, fun hs => hskip.trans (hr.2.2 hs)⟩
  · exact Scan.ends_pure ⟨moves_refl hl, by simp, fun tok' h => Sum.inr.inj h ▸ htok⟩

theorem goes_optional (valid : Tok → Bool) (tok : Tok) : Goes 0 (optional valid tok) :=
  goes_ite (fun _ => takes_rcslexGet.goes.andThen fun _ => goes_pure _) fun _ => goes_pure _

/-- A part, and a rest that says something of where it ends. -/
theorem Goes.ends {α β : Type} {m : Parser α} {k : α → Parser β} {P : β → Rcslex → Prop}
    (hm : Goes 0 m) (hk : ∀ a lex, Mapped lex → Scan.Ends (· = .error) (k a) lex fun b lex' =>
      Moves 0 lex lex' ∧ P b lex') (lex : Rcslex) (hl : Mapped lex) :
    Scan.Ends (· = .error) (m >>= k) lex fun b lex' => Moves 0 lex lex' ∧ P b lex' :=
  (hm lex hl).bind fun a lex' h => (hk a lex' h.mapped).mono fun _ _ h' => ⟨h.trans h'.1, h'.2⟩

theorem Takes.ends {α β : Type} {m : Parser (Option α)} {k : α → Parser β} {P : β → Rcslex → Prop}
    (hm : Takes m) (hk : ∀ a lex, Mapped lex → Scan.Ends (· = .error) (k a) lex fun b lex' =>
      Moves 0 lex lex' ∧ P b lex') (lex : Rcslex) (hl : Mapped lex) :
    Scan.Ends (· = .error) (Rcsparse.need m >>= k) lex fun b lex' => Moves 0 lex lex' ∧ P b lex' :=
  (hm.need.mono (Nat.zero_le 1)).ends hk lex hl

/-- An entry takes something of the file, and the lexer has come over the token behind it. -/
theorem ends_parseDelta (revnum : Revnum) {lex : Rcslex} (hl : Mapped lex) :
    Scan.Ends (· = .error) (parseDelta revnum) lex fun r lex' =>
      Moves 1 lex lex' ∧ Held (some r.2) lex' := by
  unfold parseDelta
  refine ((takes_rcslexWant _).need lex hl).bind fun _ lex' hone => ?_
  refine Scan.Ends.mono (P := fun r lex'' => Moves 0 lex' lex'' ∧ Held (some r.2) lex'') ?_
    fun _ _ h => ⟨hone.trans h.1, h.2⟩
  have hwant (p : Tok → Bool) := takes_rcslexWant p
  refine takes_getNum.ends (fun revdate => ?_) lex' hone.mapped
  refine (hwant _).ends fun _ => (hwant _).ends fun _ => takes_getId.ends fun author => ?_
  refine (hwant _).ends fun _ => (hwant _).ends fun _ => takes_rcslexGet.ends fun tok => ?_
  refine (goes_optional _ tok).ends fun state => (goes_endsPhrase _).ends fun _ => ?_
  refine (hwant _).ends fun _ => takes_rcslexGet.ends fun tok => (goes_skipNums _).ends fun tok => ?_
  refine (goes_endsPhrase tok).ends fun _ => (hwant _).ends fun _ => takes_rcslexGet.ends fun tok => ?_
  refine (goes_optional _ tok).ends fun next => (goes_endsPhrase _).ends fun _ lex hl => ?_
  refine (ends_get_held hl).bind fun tok lex' htok => ?_
  refine Scan.Ends.bind (P := fun tok lex'' => Moves 0 lex lex'' ∧ Held (some tok) lex'') ?_
    fun tok lex'' h => Scan.ends_pure h
  refine (ends_skipPhrases "desc" htok.1.mapped htok.2.1).bind fun tok lex'' h => ?_
  match tok, h with
  | none, _ => exact Scan.ends_throw rfl
  | some tok, h => exact Scan.ends_pure ⟨htok.1.trans h.1, h.2⟩

/-- What is not done with the entries. -/
def skipDelta (_ : Unit) (_ : DeltaEntry) : Except Stop Unit := .ok ()

theorem ends_parseDeltas {lex : Rcslex} (hl : Mapped lex) :
    Scan.Ends (· = .error) (parseDeltas skipDelta ()) lex fun _ lex' => Mapped lex' := by
  refine (ends_get_held hl).bind fun tok lex' htok => ?_
  refine ends_loop (fun b => if b.1.isSome then 1 else 0) (fun b => by split <;> omega)
    (fun b lex => Mapped lex ∧ Held b.1 lex) (fun _ _ h => h.1) (fun b lex h => ?_)
    ⟨htok.1.mapped, htok.2.1⟩
  match b, h with
  | (none, rf), h => exact Scan.ends_pure ⟨by simp, fun _ _ => h.1⟩
  | (some tok, rf), h =>
    unfold deltaRound
    dsimp only
    split
    · refine (ends_parseDelta tok.text h.1).bind fun r lex' hr => ?_
      refine Scan.ends_pure ⟨fun b' hb' => ?_, by simp⟩
      obtain rfl := Sum.inl.inj hb'
      exact ⟨⟨hr.1.mapped, hr.2⟩, hr.1.data, by have := hr.1.offset; simp; omega⟩
    · have hback : rcslexUnget tok lex =
          .ok ((), { lex with offset := lex.offset - tok.text.length }) := if_pos (h.2 tok rfl)
      have hend := h.1.offset
      have hmapped : Mapped { lex with offset := lex.offset - tok.text.length } :=
        ⟨h.1.last, show lex.offset - tok.text.length ≤ lex.data.length by omega⟩
      refine Scan.Ends.bind (P := fun _ => Mapped) (Scan.ends_of_ok hback hmapped) fun _ _ h => ?_
      exact Scan.ends_pure ⟨by simp, fun _ _ => h⟩

/-! ## The entries of a file -/

/-- The entries from a token on. -/
def entriesFrom : Nat → Option Tok → Rcslex → List DeltaEntry
  | n + 1, some tok, lex =>
    if tok.validateNum then
      match parseDelta tok.text lex with
      | .ok ((entry, tok), lex) => entry :: entriesFrom n (some tok) lex
      | .error _ => []
    else []
  | _, _, _ => []

/-- The admin part of a file, and its delta entries, up to one that is cut short. -/
def fileParts (content : List Byte) : Option (Admin × List DeltaEntry) :=
  match rcslexNew content with
  | none => none
  | some lex =>
    match parseAdmin lex with
    | .error _ => none
    | .ok (adm, lex) =>
      match rcslexGet lex with
      | .error _ => none
      | .ok (tok, lex) => some (adm, entriesFrom (lex.data.length + 2) tok lex)

section

variable {ρ : Type} (importdelta : ρ → DeltaEntry → Except Stop ρ)

theorem deltaRound_some (tok : Tok) (rf : ρ) (lex : Rcslex) :
    deltaRound importdelta (some tok, rf) lex =
      if tok.validateNum then
        match parseDelta tok.text lex with
        | .error e => .error e
        | .ok ((entry, tok), lex) =>
          match importdelta rf entry with
          | .error e => .error e
          | .ok rf => .ok (.inl (some tok, rf), lex)
      else
        match rcslexUnget tok lex with
        | .error e => .error e
        | .ok (_, lex) => .ok (.inr rf, lex) := by
  unfold deltaRound
  dsimp only
  split
  · show (parseDelta tok.text lex).bind _ = _
    match parseDelta tok.text lex with
    | .error e => rfl
    | .ok ((entry, tok), lex) =>
      dsimp only
      cases himp : importdelta rf entry with
      | error e =>
        show ((importdelta rf entry).bind fun rf => Except.ok (rf, lex)).bind _ = _
        rw [himp]
        rfl
      | ok rf' =>
        show ((importdelta rf entry).bind fun rf => Except.ok (rf, lex)).bind _ = _
        rw [himp]
        rfl
  · show (rcslexUnget tok lex).bind _ = _
    cases rcslexUnget tok lex <;> rfl

/-- The entries are imported in their order, and the rest does not depend on them. -/
theorem rounds_deltaRound (n : Nat) (tok : Option Tok) (rf : ρ) (lex : Rcslex) :
    Scan.rounds .spins (deltaRound importdelta) n (tok, rf) lex =
      match (entriesFrom n tok lex).foldlM importdelta rf with
      | .error e => .error e
      | .ok rf => (Scan.rounds .spins (deltaRound skipDelta) n (tok, ()) lex).map
          fun r => (rf, r.2) := by
  induction n generalizing tok rf lex with
  | zero => rfl
  | succ n ih =>
    rw [Scan.rounds_succ, Scan.rounds_succ]
    match tok with
    | none => rfl
    | some tok =>
      rw [deltaRound_some, deltaRound_some, entriesFrom]
      by_cases hnum : tok.validateNum = true
      · rw [if_pos hnum, if_pos hnum, if_pos hnum]
        match parseDelta tok.text lex with
        | .error e => rfl
        | .ok ((entry, tok), lex) =>
          dsimp only
          rw [List.foldlM_cons]
          cases importdelta rf entry with
          | error e => rfl
          | ok rf => exact ih (some tok) rf lex
      · rw [if_neg hnum, if_neg hnum, if_neg hnum]
        cases rcslexUnget tok lex <;> rfl

end

/-! ## Where the file ends behind `branch` -/

/-- The next calls of `rcslex_get` give these tokens and then `NULL`. -/
def Gives (lex : Rcslex) : List Tok → Prop
  | [] => ∃ lex', rcslexGet lex = .ok (none, lex')
  | tok :: toks => ∃ lex', rcslexGet lex = .ok (some tok, lex') ∧ Gives lex' toks

/-- There is nothing behind `head {num}; branch {num};`. -/
def BranchLast (lex : Rcslex) : Prop :=
  ∃ kw num semi kw' num' semi', Gives lex [kw, num, semi, kw', num', semi'] ∧
    kw.isKw (bytes "head".toList) ∧ num.validateNum ∧ semi.type = .scolon ∧
    kw'.isKw (bytes "branch".toList) ∧ num'.validateNum ∧ semi'.type = .scolon

theorem bind_eq_ok {α β : Type} {m : Parser α} {k : α → Parser β} {lex : Rcslex}
    {r : β × Rcslex} : (m >>= k) lex = .ok r ↔ ∃ a lex', m lex = .ok (a, lex') ∧ k a lex' = .ok r := by
  cases hm : m lex with
  | ok v =>
    obtain ⟨a, lex'⟩ := v
    simp [Scan.bind_ok hm]
  | error e => simp [Scan.bind_error hm]

theorem map_eq_ok {α β : Type} {x : Except Stop α} {f : α → β} {b : β} :
    x.map f = .ok b ↔ ∃ a, x = .ok a ∧ f a = b := by
  cases x <;> simp [Except.map]

theorem need_eq_ok {α : Type} {m : Parser (Option α)} {lex : Rcslex} {r : α × Rcslex} :
    need m lex = .ok r ↔ m lex = .ok (some r.1, r.2) := by
  obtain ⟨a, lex'⟩ := r
  refine bind_eq_ok.trans ⟨fun ⟨v, lex'', hm, hv⟩ => ?_, fun hm => ⟨some a, lex', hm, rfl⟩⟩
  match v, hv with
  | none, hv => cases hv
  | some v, hv =>
    obtain ⟨rfl, rfl⟩ := Prod.mk.inj (Except.ok.inj hv)
    exact hm

theorem rcslexWant_eq_ok {p : Tok → Bool} {lex lex' : Rcslex} {tok : Tok} :
    rcslexWant p lex = .ok (some tok, lex') ↔ rcslexGet lex = .ok (some tok, lex') ∧ p tok := by
  refine bind_eq_ok.trans ⟨fun ⟨v, lex'', hm, hv⟩ => ?_, fun ⟨hm, hp⟩ => ⟨some tok, lex', hm, ?_⟩⟩
  · obtain ⟨hfilter, rfl⟩ := Prod.mk.inj (Except.ok.inj hv)
    obtain ⟨rfl, hp⟩ := Option.filter_eq_some_iff.mp hfilter
    exact ⟨hm, hp⟩
  · show Except.ok (Option.filter p (some tok), lex') = _
    rw [Option.filter_some_pos hp]

theorem getNum_eq_ok {lex lex' : Rcslex} {num : List Byte} :
    getNum lex = .ok (some num, lex') ↔
      ∃ tok, rcslexGet lex = .ok (some tok, lex') ∧ tok.validateNum ∧ tok.text = num := by
  refine bind_eq_ok.trans ⟨fun ⟨v, lex'', hm, hv⟩ => ?_, fun ⟨tok, hm, hp, hnum⟩ => ?_⟩
  · obtain ⟨hmap, rfl⟩ := Prod.mk.inj (Except.ok.inj hv)
    obtain ⟨tok, hfilter, rfl⟩ := Option.map_eq_some_iff.mp hmap
    obtain ⟨rfl, hp⟩ := Option.filter_eq_some_iff.mp hfilter
    exact ⟨tok, (rcslexWant_eq_ok.mp hm).1, hp, rfl⟩
  · have htype : tok.type = .id := by
      simp only [Tok.validateNum, Bool.and_eq_true, decide_eq_true_eq] at hp
      exact hp.1
    refine ⟨some tok, lex', rcslexWant_eq_ok.mpr ⟨hm, by simpa using htype⟩, ?_⟩
    show Except.ok (((some tok).filter Tok.validateNum).map Tok.text, lex') = _
    rw [Option.filter_some_pos hp, Option.map_some, hnum]

theorem parseHead_eq_ok {lex : Rcslex} {r : Revnum × Rcslex} : parseHead lex = .ok r ↔
    ∃ kw num semi lex₁ lex₂, rcslexGet lex = .ok (some kw, lex₁) ∧
      kw.isKw (bytes "head".toList) ∧ rcslexGet lex₁ = .ok (some num, lex₂) ∧ num.validateNum ∧
      num.text = r.1 ∧ rcslexGet lex₂ = .ok (some semi, r.2) ∧ semi.type = .scolon := by
  unfold parseHead
  simp only [bind_eq_ok, need_eq_ok, wantKw, wantType, rcslexWant_eq_ok, getNum_eq_ok]
  constructor
  · rintro ⟨kw, lex₁, ⟨hkw, hhead⟩, _, lex₂, ⟨num, hnum, hvalid, rfl⟩, semi, lex₃, ⟨hsemi, htype⟩, hr⟩
    obtain rfl := Except.ok.inj hr
    exact ⟨kw, num, semi, lex₁, lex₂, hkw, hhead, hnum, hvalid, rfl, hsemi, by simpa using htype⟩
  · rintro ⟨kw, num, semi, lex₁, lex₂, hkw, hhead, hnum, hvalid, htext, hsemi, htype⟩
    exact ⟨kw, lex₁, ⟨hkw, hhead⟩, r.1, lex₂, ⟨num, hnum, hvalid, htext⟩, semi, r.2,
      ⟨hsemi, by simpa using htype⟩, rfl⟩

theorem parseBranch_eq_none {lex lex' : Rcslex} {branch : Option Revnum} :
    parseBranch lex = .ok ((branch, none), lex') ↔
      ∃ kw num semi lex₁ lex₂ lex₃, rcslexGet lex = .ok (some kw, lex₁) ∧
        kw.isKw (bytes "branch".toList) ∧ rcslexGet lex₁ = .ok (some num, lex₂) ∧
        num.validateNum ∧ some num.text = branch ∧ rcslexGet lex₂ = .ok (some semi, lex₃) ∧
        semi.type = .scolon ∧ rcslexGet lex₃ = .ok (none, lex') := by
  unfold parseBranch
  rw [bind_eq_ok]
  simp only [need_eq_ok, wantType, rcslexWant_eq_ok]
  constructor
  · rintro ⟨kw, lex₁, ⟨hkw, -⟩, hrun⟩
    by_cases hbranch : kw.isKw (bytes "branch".toList) = true
    · rw [if_pos hbranch] at hrun
      simp only [bind_eq_ok, need_eq_ok, rcslexWant_eq_ok, getNum_eq_ok] at hrun
      obtain ⟨_, lex₂, ⟨num, hnum, hvalid, rfl⟩, semi, lex₃, ⟨hsemi, htype⟩, tok, lex₄, hlast, hr⟩ := hrun
      obtain ⟨hpair, rfl⟩ := Prod.mk.inj (Except.ok.inj hr)
      obtain ⟨rfl, rfl⟩ := Prod.mk.inj hpair
      exact ⟨kw, num, semi, lex₁, lex₂, lex₃, hkw, hbranch, hnum, hvalid, rfl, hsemi,
        by simpa using htype, hlast⟩
    · rw [if_neg hbranch] at hrun
      cases hrun
  · rintro ⟨kw, num, semi, lex₁, lex₂, lex₃, hkw, hbranch, hnum, hvalid, rfl, hsemi, htype, hlast⟩
    have hid : kw.type = .id := by
      simp only [Tok.isKw, Bool.and_eq_true, decide_eq_true_eq] at hbranch
      exact hbranch.1
    refine ⟨kw, lex₁, ⟨hkw, by simpa using hid⟩, ?_⟩
    rw [if_pos hbranch]
    simp only [bind_eq_ok, need_eq_ok, rcslexWant_eq_ok, getNum_eq_ok]
    exact ⟨num.text, lex₂, ⟨num, hnum, hvalid, rfl⟩, semi, lex₃, ⟨hsemi, by simpa using htype⟩, none,
      lex', hlast, rfl⟩

theorem branchLast_iff {lex : Rcslex} : BranchLast lex ↔ ∃ head lex₁ branch lex₂,
    parseHead lex = .ok (head, lex₁) ∧ parseBranch lex₁ = .ok ((branch, none), lex₂) := by
  constructor
  · rintro ⟨kw, num, semi, kw', num', semi', hgives, hkw, hnum, hsemi, hkw', hnum', hsemi'⟩
    obtain ⟨lex₁, h₁, lex₂, h₂, lex₃, h₃, lex₄, h₄, lex₅, h₅, lex₆, h₆, lex₇, h₇⟩ := hgives
    exact ⟨num.text, lex₃, some num'.text, lex₇,
      parseHead_eq_ok.mpr ⟨kw, num, semi, lex₁, lex₂, h₁, hkw, h₂, hnum, rfl, h₃, hsemi⟩,
      parseBranch_eq_none.mpr
        ⟨kw', num', semi', lex₄, lex₅, lex₆, h₄, hkw', h₅, hnum', rfl, h₆, hsemi', h₇⟩⟩
  · rintro ⟨head, lex₃, branch, lex₇, hhead, hbranch⟩
    obtain ⟨kw, num, semi, lex₁, lex₂, h₁, hkw, h₂, hnum, -, h₃, hsemi⟩ := parseHead_eq_ok.mp hhead
    obtain ⟨kw', num', semi', lex₄, lex₅, lex₆, h₄, hkw', h₅, hnum', -, h₆, hsemi', h₇⟩ :=
      parseBranch_eq_none.mp hbranch
    exact ⟨kw, num, semi, kw', num', semi',
      ⟨lex₁, h₁, lex₂, h₂, lex₃, h₃, lex₄, h₄, lex₅, h₅, lex₆, h₆, lex₇, h₇⟩, hkw, hnum, hsemi, hkw',
      hnum', hsemi'⟩

/-- `parse_admin` looks into an absent token where the file ends behind `branch`, and nowhere
else. -/
theorem ends_parseAdmin {lex : Rcslex} (hl : Mapped lex) (hno : ¬BranchLast lex) :
    Scan.Ends (· = .error) parseAdmin lex fun _ lex' => Mapped lex' := by
  refine (goes_parseHead lex hl).and_ok.bind fun head lex₁ h₁ => ?_
  refine (goes_parseBranch lex₁ h₁.1.mapped).and_ok.bind fun r lex₂ h₂ => ?_
  match r, h₂ with
  | (branch, none), h₂ =>
    exact absurd (branchLast_iff.mpr ⟨head, lex₁, branch, lex₂, h₁.2, h₂.2⟩) hno
  | (branch, some tok), h₂ =>
    exact (goes_parseRest head branch tok lex₂ h₂.1.mapped).mono fun _ _ h => h.mapped

theorem parseAdmin_absent {lex : Rcslex} (h : BranchLast lex) : parseAdmin lex = .error .absent := by
  obtain ⟨head, lex₁, branch, lex₂, hhead, hbranch⟩ := branchLast_iff.mp h
  show (parseHead >>= _) lex = _
  rw [Scan.bind_ok hhead]
  show (parseBranch >>= _) lex₁ = _
  rw [Scan.bind_ok hbranch]
  rfl

/-! ## The parser -/

section

variable {ρ : Type} {importdelta : ρ → DeltaEntry → Except Stop ρ} {start : Revnum → ρ}
  {texts : ρ → Parser ρ} {content : List Byte}

theorem fileParts_eq_some {adm : Admin} {es : List DeltaEntry} :
    fileParts content = some (adm, es) ↔ ∃ lex lex₁ tok lex₂, rcslexNew content = some lex ∧
      parseAdmin lex = .ok (adm, lex₁) ∧ rcslexGet lex₁ = .ok (tok, lex₂) ∧
      es = entriesFrom (lex₂.data.length + 2) tok lex₂ := by
  unfold fileParts
  constructor
  · intro h
    split at h
    · cases h
    rename_i lex hnew
    split at h
    · cases h
    rename_i adm' lex₁ hadm
    split at h
    · cases h
    rename_i tok lex₂ hget
    obtain ⟨rfl, rfl⟩ := Prod.mk.inj (Option.some.inj h)
    exact ⟨lex, lex₁, tok, lex₂, hnew, hadm, hget, rfl⟩
  · rintro ⟨lex, lex₁, tok, lex₂, hnew, hadm, hget, rfl⟩
    simp only [hnew, hadm, hget]

/-- What `parse_deltas` does with the entries, and where it leaves the lexer. -/
theorem parseDeltas_eq {rf : ρ} {lex lex' : Rcslex} {tok : Option Tok}
    (hget : rcslexGet lex = .ok (tok, lex')) : parseDeltas importdelta rf lex =
      match (entriesFrom (lex'.data.length + 2) tok lex').foldlM importdelta rf with
      | .error e => .error e
      | .ok rf => (parseDeltas skipDelta () lex).map fun r => (rf, r.2) := by
  have hskip : parseDeltas skipDelta () lex =
      Scan.rounds .spins (deltaRound skipDelta) (lex'.data.length + 2) (tok, ()) lex' :=
    Scan.bind_ok hget
  rw [hskip]
  exact (Scan.bind_ok hget).trans (rounds_deltaRound importdelta _ tok rf lex')

/-- The parser returns. -/
def Survives {α : Type} (r : Except Stop α) : Prop := (∃ v, r = .ok v) ∨ r = .error .error

theorem survives_of_ends {α : Type} {m : Parser α} {lex : Rcslex} {Q : α → Rcslex → Prop}
    (h : Scan.Ends (· = .error) m lex Q) : Survives ((m lex).map Prod.fst) := by
  cases hm : m lex with
  | ok r => exact .inl ⟨r.1, rfl⟩
  | error e =>
    obtain rfl := h.error hm
    exact .inr rfl

theorem rcsparse_absent {lex : Rcslex} (hnew : rcslexNew content = some lex) (h : BranchLast lex) :
    rcsparse importdelta start texts content = .error .absent := by
  simp only [rcsparse, hnew]
  rw [show parseFile importdelta start texts lex = .error .absent from
    Scan.bind_error (parseAdmin_absent h)]
  rfl

/-- An entry that cannot be imported. -/
theorem rcsparse_of_error {adm : Admin} {es : List DeltaEntry} {e : Stop}
    (hparts : fileParts content = some (adm, es))
    (hfold : es.foldlM importdelta (start adm.head) = .error e) :
    rcsparse importdelta start texts content = .error e := by
  obtain ⟨lex, lex₁, tok, lex₂, hnew, hadm, hget, rfl⟩ := fileParts_eq_some.mp hparts
  have hdeltas : parseDeltas importdelta (start adm.head) lex₁ = .error e := by
    rw [parseDeltas_eq hget, hfold]
  have hfile : parseFile importdelta start texts lex = .error e :=
    (Scan.bind_ok hadm).trans (Scan.bind_error hdeltas)
  simp only [rcsparse, hnew, hfile]
  rfl

/-- The other files: the parser returns if all of their entries can be imported. -/
theorem rcsparse_survives
    (hbranch : ∀ lex, rcslexNew content = some lex → ¬BranchLast lex)
    (hfold : ∀ adm es, fileParts content = some (adm, es) →
      ∃ rf, es.foldlM importdelta (start adm.head) = .ok rf)
    (htexts : ∀ rf, Goes 0 (texts rf)) : Survives (rcsparse importdelta start texts content) := by
  unfold rcsparse
  split
  · exact .inr rfl
  rename_i lex hnew
  have hl : Mapped lex := rcslexNew_mapped hnew
  refine survives_of_ends (Q := fun _ _ => True) ?_
  refine (ends_parseAdmin hl (hbranch lex hnew)).and_ok.bind fun adm lex₁ hadm => ?_
  obtain ⟨tok, lex₂, hget⟩ := rcslexGet_isOk hadm.1
  obtain ⟨rf, hrf⟩ := hfold adm _
    (fileParts_eq_some.mpr ⟨lex, lex₁, tok, lex₂, hnew, hadm.2, hget, rfl⟩)
  have hdeltas : Scan.Ends (· = .error) (parseDeltas importdelta (start adm.head)) lex₁
      fun _ lex' => Mapped lex' := by
    have hskip := ends_parseDeltas hadm.1
    unfold Scan.Ends at hskip ⊢
    rw [parseDeltas_eq hget, hrf]
    cases hrun : parseDeltas skipDelta () lex₁ with
    | ok r =>
      rw [hrun] at hskip
      exact hskip
    | error e =>
      rw [hrun] at hskip
      exact hskip
  refine hdeltas.bind fun rf lex₃ hl₃ => ?_
  have hrest : Goes 0 (parseRest texts rf) :=
    (takes_rcslexWant _).andThen fun _ => takes_getString.andThen fun _ => htexts rf
  exact (hrest lex₃ hl₃).bind fun rf _ _ => Scan.ends_pure trivial

/-- What is known of a file that is parsed. -/
theorem rcsparse_ok {adm : Admin} {rf : ρ}
    (h : rcsparse importdelta start texts content = .ok (adm, rf)) :
    ∃ es rf' lex lex', fileParts content = some (adm, es) ∧
      es.foldlM importdelta (start adm.head) = .ok rf' ∧
      parseRest texts rf' lex = .ok (rf, lex') := by
  unfold rcsparse at h
  split at h
  · cases h
  rename_i lex hnew
  obtain ⟨r, hrun, hr⟩ := map_eq_ok.mp h
  obtain ⟨adm', lex₁, hadm, hrun⟩ := bind_eq_ok.mp hrun
  obtain ⟨rf', lex₃, hdeltas, hrun⟩ := bind_eq_ok.mp hrun
  obtain ⟨rf'', lex₄, hrest, hrun⟩ := bind_eq_ok.mp hrun
  obtain rfl := Except.ok.inj hrun
  obtain ⟨rfl, rfl⟩ := Prod.mk.inj hr
  obtain ⟨tok, lex₂, hget, -⟩ := bind_eq_ok.mp hdeltas
  refine ⟨_, rf', lex₃, lex₄,
    fileParts_eq_some.mpr ⟨lex, lex₁, tok, lex₂, hnew, hadm, hget, rfl⟩, ?_, hrest⟩
  rw [parseDeltas_eq hget] at hdeltas
  split at hdeltas
  · cases hdeltas
  · rename_i rf₀ hfold
    obtain ⟨s, -, hs⟩ := map_eq_ok.mp hdeltas
    obtain ⟨rfl, -⟩ := Prod.mk.inj hs
    exact hfold

end

/-! ## Numbers -/

theorem zero_notMem_of_validateNum {tok : Tok} (h : tok.validateNum = true) : 0 ∉ tok.text := by
  simp only [Tok.validateNum, Bool.and_eq_true, List.all_eq_true] at h
  intro h0
  exact absurd (h.2 0 h0) (by decide)

theorem returns_getNum : Scan.Returns (need getNum) fun num => 0 ∉ num := by
  intro lex num lex' h
  obtain ⟨tok, -, hvalid, rfl⟩ := getNum_eq_ok.mp (need_eq_ok.mp h)
  exact zero_notMem_of_validateNum hvalid

theorem returns_loop {β γ : Type} {body : β → Parser (β ⊕ γ)} {I : β → Prop} {Q : γ → Prop}
    (hbody : ∀ b, I b → Scan.Returns (body b) (Sum.elim I Q)) {b : β} (hI : I b) :
    Scan.Returns (loop body b) Q :=
  fun lex c lex' h => Scan.returns_rounds hbody (lex.data.length + 2) hI lex c lex' h

theorem returns_eachId {β : Type} {body : β → Tok → Parser (β ⊕ β)} {I : β → Prop}
    (hbody : ∀ b tok, I b → Scan.Returns (body b tok) (Sum.elim I I)) {b : β} (hI : I b) :
    Scan.Returns (eachId body b) fun r => I r.1 := by
  refine returns_loop (fun b hI => Scan.returns_bind _ fun tok => ?_) hI
  match tok with
  | none => exact Scan.returns_pure hI
  | some tok =>
    refine Scan.returns_ite ((hbody b tok hI).bind fun r hr => ?_) (Scan.returns_pure hI)
    match r, hr with
    | .inl b, hr => exact Scan.returns_pure hr
    | .inr b, hr => exact Scan.returns_pure hr

theorem returns_listOf {β : Type} {body : β → Tok → Parser β} {I : β → Prop}
    (hbody : ∀ b tok, I b → Scan.Returns (body b tok) I) {b : β} (hI : I b) :
    Scan.Returns (listOf body b) I := by
  have heach : Scan.Returns (eachId (fun b tok => do return .inl (← body b tok)) b)
      fun r => I r.1 :=
    returns_eachId (fun b tok h => (hbody b tok h).bind fun b' h' =>
      @Scan.returns_pure _ _ _ (Sum.inl b') (Sum.elim I I) h') hI
  exact heach.bind fun r hr => Scan.returns_bind _ fun _ => Scan.returns_pure hr

/-- The numbers of the symbols. -/
def NumTags (taglist : List (List Byte × Revnum)) : Prop := ∀ t ∈ taglist, 0 ∉ t.2

theorem returns_parseSymbols : Scan.Returns parseSymbols NumTags := by
  refine Scan.returns_bind _ fun _ => returns_listOf (fun tags sym h => ?_) (by simp [NumTags])
  refine Scan.returns_bind _ fun _ => returns_getNum.bind fun num hnum =>
    Scan.returns_pure fun t ht => ?_
  rcases List.mem_append.mp ht with ht | ht
  · exact h t ht
  · rw [List.mem_singleton.mp ht]
    exact hnum

theorem returns_parseOption (adm : Admin) (tok : Tok) (h : NumTags adm.taglist) :
    Scan.Returns (parseOption adm tok)
      (Sum.elim (fun adm => NumTags adm.taglist) fun adm => NumTags adm.taglist) := by
  refine Scan.returns_ite (Scan.returns_bind _ fun _ => Scan.returns_pure h) ?_
  refine Scan.returns_ite (Scan.returns_bind _ fun _ => Scan.returns_bind _ fun _ =>
    Scan.returns_pure h) ?_
  refine Scan.returns_ite (Scan.returns_bind _ fun _ => Scan.returns_bind _ fun _ =>
    Scan.returns_bind _ fun _ => Scan.returns_pure h) ?_
  exact Scan.returns_ite (Scan.returns_bind _ fun _ => Scan.returns_pure h)
    (Scan.returns_bind _ fun _ => Scan.returns_pure h)

theorem returns_parseAdmin : Scan.Returns parseAdmin fun adm => NumTags adm.taglist := by
  refine Scan.returns_bind _ fun head => Scan.returns_bind _ fun branch => ?_
  refine Scan.returns_bind _ fun ids => returns_parseSymbols.bind fun tags htags => ?_
  refine Scan.returns_bind _ fun _ => ?_
  have := returns_eachId (I := fun adm : Admin => NumTags adm.taglist) returns_parseOption
    (b := ⟨head, branch.1, ids, tags, false, none, .default⟩) htags
  exact this.bind fun r hr => Scan.returns_pure hr

theorem returns_parseDelta (revnum : Revnum) :
    Scan.Returns (parseDelta revnum) fun r => r.1.revnum = revnum ∧ 0 ∉ r.1.revdate := by
  refine Scan.returns_bind _ fun _ => returns_getNum.bind fun revdate hdate => ?_
  refine Scan.returns_bind _ fun _ => Scan.returns_bind _ fun _ => Scan.returns_bind _ fun _ => ?_
  refine Scan.returns_bind _ fun _ => Scan.returns_bind _ fun _ => Scan.returns_bind _ fun _ => ?_
  refine Scan.returns_bind _ fun _ => Scan.returns_bind _ fun _ => Scan.returns_bind _ fun _ => ?_
  refine Scan.returns_bind _ fun _ => Scan.returns_bind _ fun _ => Scan.returns_bind _ fun _ => ?_
  refine Scan.returns_bind _ fun _ => Scan.returns_bind _ fun _ => Scan.returns_bind _ fun _ => ?_
  refine Scan.returns_bind _ fun _ => Scan.returns_bind _ fun _ => Scan.returns_bind _ fun _ => ?_
  exact Scan.returns_pure ⟨rfl, hdate⟩

theorem zero_notMem_entriesFrom {n : Nat} {tok : Option Tok} {lex : Rcslex} :
    ∀ e ∈ entriesFrom n tok lex, 0 ∉ e.revnum ∧ 0 ∉ e.revdate := by
  induction n generalizing tok lex with
  | zero => simp [entriesFrom]
  | succ n ih =>
    match tok with
    | none => simp [entriesFrom]
    | some tok =>
      rw [entriesFrom]
      by_cases hnum : tok.validateNum = true
      · rw [if_pos hnum]
        split
        · rename_i entry tok' lex' hrun
          obtain ⟨hrev, hdate⟩ := returns_parseDelta _ _ _ _ hrun
          intro e he
          rcases List.mem_cons.mp he with rfl | he
          · rw [hrev]
            exact ⟨zero_notMem_of_validateNum hnum, hdate⟩
          · exact ih e he
        · simp
      · simp [hnum]

/-- The numbers and the dates of a file have no NUL in them. -/
theorem zero_notMem_fileParts {content : List Byte} {adm : Admin} {es : List DeltaEntry}
    (h : fileParts content = some (adm, es)) :
    NumTags adm.taglist ∧ ∀ e ∈ es, 0 ∉ e.revnum ∧ 0 ∉ e.revdate := by
  obtain ⟨lex, lex₁, tok, lex₂, -, hadm, -, rfl⟩ := fileParts_eq_some.mp h
  exact ⟨returns_parseAdmin _ _ _ hadm, zero_notMem_entriesFrom⟩

end Csup.Rcsparse
