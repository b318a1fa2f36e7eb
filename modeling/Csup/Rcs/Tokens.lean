import Csup.Base.Clib

/-!
# The tokens of an RCS file and their renderings

A token is a word (a number, an identifier or a keyword), one of the two
separators, or a string. A string is written between `@`, with every `@` of it
doubled. In a rendering there may be white space around the tokens, and there
is some where two words or two strings follow each other.
-/

namespace Csup.Lexer

/-- The bytes that end a word. -/
def isStop (b : Byte) : Bool := isspace b || b = 64 || b = 59 || b = 58

/-- A number, an identifier or a keyword. -/
structure Word where
  text : List Byte
  ne_nil : text ≠ []
  plain : ∀ b ∈ text, isStop b = false

/-- A word whose bytes are given. -/
def wordOf (text : List Byte) (h : text ≠ [] ∧ text.all (fun b => !isStop b) = true) : Word where
  text := text
  ne_nil := h.1
  plain := by simpa using h.2

inductive Token
  | word (w : Word)
  | scolon
  | colon
  | string (s : List Byte)

/-- `RCSLEX_ID` and so on. -/
inductive TokType
  | scolon | colon | id | string
  deriving DecidableEq, Repr

/-- The raw form of a string. -/
def double (s : List Byte) : List Byte := s.flatMap fun b => if b = 64 then [64, 64] else [b]

namespace Token

def type : Token → TokType
  | word _ => .id
  | scolon => .scolon
  | colon => .colon
  | string _ => .string

/-- The value that the lexer gives: a string without the `@` around it. -/
def raw : Token → List Byte
  | word w => w.text
  | scolon => [59]
  | colon => [58]
  | string s => double s

def text : Token → List Byte
  | word w => w.text
  | scolon => [59]
  | colon => [58]
  | string s => 64 :: (double s ++ [64])

/-- Whether the second of two tokens would be read as part of the first. -/
def clash : Token → Token → Bool
  | word _, word _ => true
  | string _, string _ => true
  | _, _ => false

end Token

/-- Whether a list begins with white space. -/
def startsBlank (l : List Byte) : Bool := l.head?.any isspace

/-- `data` is a rendering of the tokens. -/
inductive Renders : List Token → List Byte → Prop
  | nil {ws : List Byte} : (∀ b ∈ ws, isspace b = true) → Renders [] ws
  | cons {ws rest : List Byte} {t : Token} {ts : List Token} : (∀ b ∈ ws, isspace b = true) →
    Renders ts rest → (∀ u ∈ ts.head?, t.clash u = true → startsBlank rest = true) →
    Renders (t :: ts) (ws ++ (t.text ++ rest))

/-- Blanks that are given. -/
theorem Renders.blanks {ws : List Byte} (h : ws.all isspace = true) : Renders [] ws :=
  .nil (List.all_eq_true.mp h)

/-- Blanks that are given, and a token. -/
theorem Renders.token (ws : List Byte) (t : Token) {ts : List Token} {rest : List Byte}
    (h : ws.all isspace = true) (hr : Renders ts rest)
    (hsep : ∀ u ∈ ts.head?, t.clash u = true → startsBlank rest = true) :
    Renders (t :: ts) (ws ++ (t.text ++ rest)) :=
  .cons (List.all_eq_true.mp h) hr hsep

/-! ## Texts -/

@[simp] theorem double_nil : double [] = [] := rfl

@[simp] theorem double_cons (b : Byte) (s : List Byte) :
    double (b :: s) = (if b = 64 then [64, 64] else [b]) ++ double s := List.flatMap_cons ..

@[simp] theorem double_append (s t : List Byte) : double (s ++ t) = double s ++ double t :=
  List.flatMap_append

theorem double_of_notMem {s : List Byte} (h : 64 ∉ s) : double s = s := by
  induction s with
  | nil => rfl
  | cons b s ih =>
    obtain ⟨hb, hs⟩ := not_or.mp (mt List.mem_cons.mpr h)
    rw [double_cons, if_neg (Ne.symm hb), ih hs]
    rfl

theorem length_le_double (s : List Byte) : s.length ≤ (double s).length := by
  induction s with
  | nil => exact Nat.le_refl 0
  | cons b s ih =>
    rw [double_cons, List.length_append, List.length_cons]
    split
    · rw [show ([64, 64] : List Byte).length = 2 from rfl]
      omega
    · rw [List.length_singleton]
      omega

theorem double_injective {s t : List Byte} (h : double s = double t) : s = t := by
  induction s generalizing t with
  | nil =>
    rcases t with - | ⟨c, t⟩
    · rfl
    · rw [double_nil, double_cons] at h
      split at h <;> cases h
  | cons b s ih =>
    rcases t with - | ⟨c, t⟩
    · rw [double_nil, double_cons] at h
      split at h <;> cases h
    · rw [double_cons, double_cons] at h
      by_cases hb : b = 64
      · by_cases hc : c = 64
        · rw [if_pos hb, if_pos hc] at h
          rw [hb, hc, ih (List.append_cancel_left h)]
        · rw [if_pos hb, if_neg hc] at h
          exact absurd (List.cons.inj h).1.symm hc
      · by_cases hc : c = 64
        · rw [if_neg hb, if_pos hc] at h
          exact absurd (List.cons.inj h).1 hb
        · rw [if_neg hb, if_neg hc] at h
          obtain ⟨rfl, hst⟩ := List.cons.inj h
          rw [ih hst]

theorem isspace_of_isStop {b : Byte} (h : isStop b = false) :
    isspace b = false ∧ b ≠ 64 ∧ b ≠ 59 ∧ b ≠ 58 := by
  simpa [isStop, and_assoc] using h

theorem Token.ext_raw {t t' : Token} (htype : t.type = t'.type) (hraw : t.raw = t'.raw) :
    t = t' := by
  cases t with
  | word w =>
    cases t' with
    | word w' =>
      obtain ⟨v, hv, hp⟩ := w
      obtain ⟨v', hv', hp'⟩ := w'
      rw [Token.word.injEq, Word.mk.injEq]
      exact hraw
    | _ => cases htype
  | scolon => cases t' <;> first | rfl | cases htype
  | colon => cases t' <;> first | rfl | cases htype
  | string s =>
    cases t' with
    | string s' => exact congrArg Token.string (double_injective hraw)
    | _ => cases htype

/-- The first byte of a token tells its kind. -/
theorem Token.text_eq_cons (t : Token) :
    ∃ b r, t.text = b :: r ∧ isspace b = false ∧
      (isStop b = false ↔ ∃ w, t = .word w) ∧ (b = 64 ↔ ∃ s, t = .string s) := by
  rcases t with w | - | - | s
  · obtain ⟨b, r, hw⟩ := List.exists_cons_of_ne_nil w.ne_nil
    have hb := w.plain b (by rw [hw]; exact List.mem_cons_self ..)
    obtain ⟨hsp, hat, -⟩ := isspace_of_isStop hb
    refine ⟨b, r, hw, hsp, ⟨fun _ => ⟨w, rfl⟩, fun _ => hb⟩, fun h => absurd h hat, ?_⟩
    rintro ⟨s, hs⟩
    cases hs
  · exact ⟨59, [], rfl, by decide, by simp [isStop], by simp⟩
  · exact ⟨58, [], rfl, by decide, by simp [isStop], by simp⟩
  · exact ⟨64, double s ++ [64], rfl, by decide, by simp [isStop], by simp⟩

theorem Token.text_ne_nil (t : Token) : t.text ≠ [] := by
  obtain ⟨b, r, h, -⟩ := t.text_eq_cons
  rw [h]
  exact List.cons_ne_nil b r

/-- The last byte of a token is no white space. -/
theorem Token.getLast?_text (t : Token) : ∃ b, t.text.getLast? = some b ∧ isspace b = false := by
  rcases t with w | - | - | s
  · refine ⟨w.text.getLast w.ne_nil, List.getLast?_eq_some_getLast w.ne_nil, ?_⟩
    exact (isspace_of_isStop (w.plain _ (List.getLast_mem w.ne_nil))).1
  · exact ⟨59, rfl, by decide⟩
  · exact ⟨58, rfl, by decide⟩
  · exact ⟨64, by simp [Token.text, List.getLast?_cons], by decide⟩

/-! ## Renderings -/

variable {t : Token} {ts : List Token} {data rest : List Byte}

theorem Renders.ne_nil (h : Renders ts data) (hts : ts ≠ []) : data ≠ [] := by
  rcases h with h | ⟨-, -, -⟩
  · exact absurd rfl hts
  · simp [Token.text_ne_nil]

/-- A rendering begins with white space or with its first token. -/
theorem Renders.mem_head? (h : Renders ts rest) {b : Byte} (hb : b ∈ rest.head?) :
    isspace b = true ∨ startsBlank rest = false ∧ ∃ u ∈ ts.head?, b ∈ u.text.head? := by
  rcases h with hws | ⟨hws, -, -⟩
  · exact .inl (hws b (List.mem_of_mem_head? hb))
  · rename_i ws r u us
    rcases ws with - | ⟨c, ws⟩
    · obtain ⟨c, v, htext, hsp, -⟩ := u.text_eq_cons
      have hc : c = b := by simpa [htext] using hb
      subst hc
      exact .inr ⟨by simp [startsBlank, htext, hsp], u, rfl, by simp [htext]⟩
    · have hc : c = b := by simpa using hb
      exact .inl (hc ▸ hws c (List.mem_cons_self ..))

/-- What follows a word is no part of it. -/
theorem Renders.head?_isStop (h : Renders ts rest) {w : Word}
    (hsep : ∀ u ∈ ts.head?, (Token.word w).clash u = true → startsBlank rest = true) :
    ∀ b ∈ rest.head?, isStop b = true := by
  intro b hb
  rcases h.mem_head? hb with hsp | ⟨hno, u, hu, hub⟩
  · simp [isStop, hsp]
  · obtain ⟨c, v, htext, -, hword, -⟩ := u.text_eq_cons
    have hc : c = b := by simpa [htext] using hub
    subst hc
    by_contra hstop
    obtain ⟨w', rfl⟩ := hword.mp (by simpa using hstop)
    rw [hsep _ hu rfl] at hno
    cases hno

/-- What follows a string does not go on with it. -/
theorem Renders.head?_ne_at (h : Renders ts rest) {s : List Byte}
    (hsep : ∀ u ∈ ts.head?, (Token.string s).clash u = true → startsBlank rest = true) :
    ∀ b ∈ rest.head?, b ≠ 64 := by
  rintro b hb rfl
  rcases h.mem_head? hb with hsp | ⟨hno, u, hu, hub⟩
  · exact absurd hsp (by decide)
  · obtain ⟨c, v, htext, -, -, hstring⟩ := u.text_eq_cons
    have hc : c = 64 := by simpa [htext] using hub
    obtain ⟨s', rfl⟩ := hstring.mp hc
    rw [hsep _ hu rfl] at hno
    cases hno

/-! ## More white space -/

variable {ws : List Byte}

theorem blank_append {l l' : List Byte} (h : ∀ b ∈ l, isspace b = true)
    (h' : ∀ b ∈ l', isspace b = true) : ∀ b ∈ l ++ l', isspace b = true := by
  intro b hb
  rcases List.mem_append.mp hb with hb | hb
  · exact h b hb
  · exact h' b hb

theorem Renders.blank_append (h : Renders ts data) (hws : ∀ b ∈ ws, isspace b = true) :
    Renders ts (ws ++ data) := by
  rcases h with hws' | ⟨hws', hrest, hsep⟩
  · exact .nil (Lexer.blank_append hws hws')
  · rw [← List.append_assoc]
    exact .cons (Lexer.blank_append hws hws') hrest hsep

theorem Renders.append_blank (h : Renders ts data) (hws : ∀ b ∈ ws, isspace b = true) :
    Renders ts (data ++ ws) := by
  induction h with
  | nil hws' => exact .nil (Lexer.blank_append hws' hws)
  | @cons ws' rest t ts hws' _ hsep ih =>
    rw [List.append_assoc, List.append_assoc]
    refine .cons hws' ih fun u hu hc => ?_
    have := hsep u hu hc
    rcases rest with - | ⟨b, rest⟩
    · cases this
    · exact this

end Csup.Lexer
