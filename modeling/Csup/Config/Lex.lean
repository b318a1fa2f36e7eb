import Csup.Base.Clib
import Mathlib.Data.List.TakeWhile

/-!
# The tokens of a supfile: `token.l`

The rules of the scanner share no first byte but those of words, where the longest match is a whole
word, and a keyword wins over a string. What no rule matches is echoed.

* `Renders`: the bytes of some tokens, with white space and comments between them;
* `tokens_of_renders`: the tokens of such bytes.
-/

namespace Csup.Config

/-! ## The scanner -/

/-- `PT_BASE` and so on. -/
inductive Pt
  | base | date | host | pre | release | tag | umask | compress | delete | useRelSuffix | list
  | norsync
  deriving DecidableEq

inductive Token
  | default
  | name (i : Pt)
  | boolean (i : Pt)
  | equal
  | string (str : List Byte)
  deriving DecidableEq

/-- `[a-zA-Z0-9./_-]` -/
def wordByte (b : Byte) : Bool :=
  (97 ≤ b && b ≤ 122) || (65 ≤ b && b ≤ 90) || isdigit b || b = 46 || b = 47 || b = 95 || b = 45

/-- The words that are no strings. -/
def keywords : List (List Byte × Token) :=
  [(bytes "base".toList, .name .base),
   (bytes "date".toList, .name .date),
   (bytes "host".toList, .name .host),
   (bytes "prefix".toList, .name .pre),
   (bytes "release".toList, .name .release),
   (bytes "tag".toList, .name .tag),
   (bytes "umask".toList, .name .umask),
   (bytes "list".toList, .name .list),
   (bytes "norsync".toList, .name .norsync),
   (bytes "compress".toList, .boolean .compress),
   (bytes "delete".toList, .boolean .delete),
   (bytes "use-rel-suffix".toList, .boolean .useRelSuffix)]

def wordToken (w : List Byte) : Token := ((keywords.find? (·.1 = w)).map Prod.snd).getD (.string w)

/-- `*default` -/
def defaultText : List Byte := bytes "*default".toList

/-- The tokens `yylex` returns, to the end of the file. -/
def tokens : List Byte → List Token
  | [] => []
  | b :: s =>
    if b = 35 then tokens (s.dropWhile (· ≠ nl))   -- a comment
    else if defaultText <+: b :: s then .default :: tokens (s.drop 7)
    else if b = 61 then .equal :: tokens s
    else if wordByte b then wordToken (b :: s.takeWhile wordByte) :: tokens (s.dropWhile wordByte)
    else tokens s   -- white space, and what is echoed
termination_by s => s.length
decreasing_by
  all_goals simp only [List.length_cons, List.length_drop]
  · exact Nat.lt_succ_of_le (List.length_dropWhile_le _ _)
  · omega
  · omega
  · exact Nat.lt_succ_of_le (List.length_dropWhile_le _ _)
  · omega

/-! ## Renderings -/

/-- A word that is no keyword. -/
def IsString (w : List Byte) : Prop :=
  w ≠ [] ∧ w.all wordByte = true ∧ (keywords.find? (·.1 = w)).isNone = true

instance (w : List Byte) : Decidable (IsString w) := inferInstanceAs (Decidable (_ ∧ _))

/-- The bytes of a token. -/
inductive Token.IsText : Token → List Byte → Prop
  | default : IsText .default defaultText
  | equal : IsText .equal [61]
  | keyword {w : List Byte} {t : Token} : (w, t) ∈ keywords → IsText t w
  | string {w : List Byte} : IsString w → IsText (.string w) w

/-- White space and whole comments. -/
inductive Gap : List Byte → Prop
  | nil : Gap []
  | blank {b : Byte} {ws : List Byte} : b = 32 ∨ b = 9 ∨ b = nl → Gap ws → Gap (b :: ws)
  | comment {text ws : List Byte} : nl ∉ text → Gap ws → Gap (35 :: text ++ nl :: ws)

/-- The bytes of some tokens. Behind a word comes something else. -/
inductive Renders : List Token → List Byte → Prop
  | nil {ws : List Byte} : Gap ws → Renders [] ws
  | token {ws text rest : List Byte} {t : Token} {ts : List Token} : Gap ws → t.IsText text →
      Renders ts rest → (text.all wordByte = true → ∀ b ∈ rest.head?, wordByte b = false) →
      Renders (t :: ts) (ws ++ (text ++ rest))

theorem not_default_of_ne {b : Byte} {s : List Byte} (h : b ≠ 42) : ¬defaultText <+: b :: s := by
  intro hp
  exact h (List.cons_prefix_cons.mp hp).1.symm

theorem tokens_blank {b : Byte} (h : b = 32 ∨ b = 9 ∨ b = nl) (s : List Byte) :
    tokens (b :: s) = tokens s := by
  rcases h with rfl | rfl | rfl <;>
    rw [tokens, if_neg (by decide), if_neg (not_default_of_ne (by decide)), if_neg (by decide),
      if_neg (by decide)]

theorem tokens_gap {ws : List Byte} (h : Gap ws) (s : List Byte) : tokens (ws ++ s) = tokens s := by
  induction h with
  | nil => rfl
  | blank hb _ ih => rw [List.cons_append, tokens_blank hb, ih]
  | @comment text ws htext _ ih =>
    have hdrop : (text ++ nl :: (ws ++ s)).dropWhile (· ≠ nl) = nl :: (ws ++ s) := by
      have hne : ∀ b ∈ text, decide (b ≠ nl) = true := fun b hb => by
        simpa using ne_of_mem_of_not_mem hb htext
      rw [List.dropWhile_append_of_pos hne]
      exact List.dropWhile_cons_of_neg (by simp)
    rw [List.cons_append, List.cons_append, List.append_assoc, List.cons_append, tokens, if_pos rfl,
      hdrop, tokens_blank (.inr (.inr rfl)), ih]

/-- A word. -/
theorem tokens_word {w rest : List Byte} (hne : w ≠ []) (hw : w.all wordByte = true)
    (hrest : ∀ b ∈ rest.head?, wordByte b = false) :
    tokens (w ++ rest) = wordToken w :: tokens rest := by
  obtain ⟨b, w, rfl⟩ := List.exists_cons_of_ne_nil hne
  rw [List.all_cons, Bool.and_eq_true] at hw
  have hb : b ≠ 35 ∧ b ≠ 42 ∧ b ≠ 61 := by
    refine ⟨?_, ?_, ?_⟩ <;> rintro rfl <;> exact absurd hw.1 (by decide)
  have htake : (w ++ rest).takeWhile wordByte = w := by
    rw [List.takeWhile_append_of_pos (List.all_eq_true.mp hw.2)]
    cases rest with
    | nil => simp
    | cons c cs => rw [List.takeWhile_cons_of_neg (by simp [hrest c rfl]), List.append_nil]
  have hdrop : (w ++ rest).dropWhile wordByte = rest := by
    rw [List.dropWhile_append_of_pos (List.all_eq_true.mp hw.2)]
    cases rest with
    | nil => rfl
    | cons c cs => rw [List.dropWhile_cons_of_neg (by simp [hrest c rfl])]
  rw [List.cons_append, tokens, if_neg hb.1, if_neg (not_default_of_ne hb.2.1), if_neg hb.2.2,
    if_pos hw.1, htake, hdrop]

theorem wordToken_keyword {w : List Byte} {t : Token} (h : (w, t) ∈ keywords) :
    w ≠ [] ∧ w.all wordByte = true ∧ wordToken w = t := by
  have hall : ∀ p ∈ keywords, p.1 ≠ [] ∧ p.1.all wordByte = true ∧ wordToken p.1 = p.2 := by decide
  exact hall _ h

theorem tokens_text {t : Token} {text rest : List Byte} (ht : t.IsText text)
    (hrest : text.all wordByte = true → ∀ b ∈ rest.head?, wordByte b = false) :
    tokens (text ++ rest) = t :: tokens rest := by
  cases ht with
  | default =>
    rw [show defaultText ++ rest = 42 :: (bytes "default".toList ++ rest) from rfl, tokens,
      if_neg (by decide), if_pos ⟨rest, rfl⟩]
    rfl
  | equal =>
    rw [List.singleton_append, tokens, if_neg (by decide), if_neg (not_default_of_ne (by decide)),
      if_pos rfl]
  | keyword hmem =>
    obtain ⟨hne, hw, htok⟩ := wordToken_keyword hmem
    rw [tokens_word hne hw (hrest hw), htok]
  | string hs =>
    obtain ⟨hne, hw, hnone⟩ := hs
    rw [tokens_word hne hw (hrest hw), wordToken, Option.isNone_iff_eq_none.mp hnone]
    rfl

/-- The tokens of a rendering. -/
theorem tokens_of_renders {ts : List Token} {s : List Byte} (h : Renders ts s) : tokens s = ts := by
  induction h with
  | @nil ws hws =>
    have := tokens_gap hws []
    rw [List.append_nil] at this
    rw [this, tokens]
  | token hws ht _ hrest ih => rw [tokens_gap hws, tokens_text ht hrest, ih]

end Csup.Config
