import Csup.Rcs.Lex
import Csup.Stream.Md5rcs

/-!
# What the checksum of an RCS file is of

Of a rendering of tokens the filter feeds the digest the tokens with one space
where two words or two strings follow each other and none elsewhere
(`fed_render`). This is a rendering itself, and renderings can be read in one way
(`Renders.unique`), so that the digest is fed the same for the same tokens only.

`IS_WS` has one byte that `isspace` has not, the backspace: words must lack it.
-/

namespace Csup.Stream

open Csup.Lexer
open Md5filter (step printed foldl_step_print)

/-- No word has one of these bytes. -/
def Lacks (cs : List Byte) (ts : List Token) : Prop :=
  ∀ w : Word, .word w ∈ ts → ∀ b ∈ w.text, b ∉ cs

theorem lacks_of_all {cs : List Byte} {ts : List Token}
    (h : (ts.all fun
      | .word w => w.text.all fun b => !cs.contains b
      | _ => true) = true) : Lacks cs ts := by
  intro w hw b hb
  simpa using List.all_eq_true.mp (List.all_eq_true.mp h _ hw) b hb

/-- What is put between two tokens. -/
def gap (t : Token) (ts : List Token) : List Byte := if ts.head?.any t.clash then [32] else []

/-- The tokens with no more space than they need. -/
def canon : List Token → List Byte
  | [] => []
  | t :: ts => t.text ++ (gap t ts ++ canon ts)

variable {t u : Token} {ts ts' : List Token} {data data' ws : List Byte} {mf : Md5filter}

theorem renders_canon (ts : List Token) : Renders ts (canon ts) := by
  induction ts with
  | nil => exact @Renders.nil [] (by simp)
  | cons t ts ih =>
    have hgap : ∀ b ∈ gap t ts, isspace b = true := by
      intro b hb
      simp only [gap] at hb
      split at hb
      · rw [List.mem_singleton.mp hb]
        decide
      · cases hb
    refine @Renders.cons [] _ _ _ (by simp) (ih.blank_append hgap) fun u hu hc => ?_
    have : ts.head?.any t.clash = true := by simp [Option.mem_def.mp hu, hc]
    rw [gap, if_pos this]
    rfl

/-! ## The filter between tokens -/

/-- The filter behind a token. -/
def Behind (mf : Md5filter) : Token → Prop
  | .word _ => mf.state = .print ∧ isSpecial mf.lastc = false
  | .scolon | .colon => mf.state = .print ∧ isSpecial mf.lastc = true ∧ mf.lastc ≠ 64
  | .string _ => mf.state = .seen

/-- The filter in the white space behind a token. -/
def BehindBlank (mf : Md5filter) : Token → Prop
  | .word _ => mf.state = .ws ∧ isSpecial mf.lastc = false
  | .scolon | .colon => mf.state = .ws ∧ isSpecial mf.lastc = true ∧ mf.lastc ≠ 64
  | .string _ => mf.state = .ws ∧ mf.lastc = 64

theorem isWs_of_isspace {b : Byte} (h : isspace b = true) : isWs b = true := by
  have hb : b = 32 ∨ (9 ≤ b ∧ b ≤ 13) := by simpa [isspace] using h
  rcases hb with rfl | ⟨h9, h13⟩
  · decide
  · have h9' : 9 ≤ b.toNat := UInt8.le_iff_toNat_le.mp h9
    have h13' : b.toNat ≤ 13 := UInt8.le_iff_toNat_le.mp h13
    have hval : b.toNat = 9 ∨ b.toNat = 10 ∨ b.toNat = 11 ∨ b.toNat = 12 ∨ b.toNat = 13 := by
      change 9 ≤ b.toNat at h9'
      change b.toNat ≤ 13 at h13'
      omega
    rcases hval with h | h | h | h | h <;>
    · rw [← UInt8.ofNat_toNat (x := b), h]
      decide

/-- The bytes of a word are printed, and none is special. -/
theorem print_of_word {w : Word} (hl : ∀ b ∈ w.text, b ∉ ([36, 44, 8] : List Byte)) {b : Byte}
    (hb : b ∈ w.text) : isPrint b = true ∧ isSpecial b = false := by
  obtain ⟨hsp, hat, hsc, hco⟩ := isspace_of_isStop (w.plain b hb)
  have hlack := hl b hb
  simp only [List.mem_cons, List.not_mem_nil, or_false, not_or] at hlack
  obtain ⟨hdollar, hcomma, hbs⟩ := hlack
  constructor
  · simp only [isspace, Bool.or_eq_false_iff, decide_eq_false_iff_not] at hsp
    have hne : ∀ c : Byte, 9 ≤ c → c ≤ 13 → b ≠ c := by
      rintro c h9 h13 rfl
      exact absurd hsp.2 (by simp [h9, h13])
    simp [isPrint, isWs, hat, hbs, hsp.1, hne 9 (by decide) (by decide),
      hne 10 (by decide) (by decide), hne 11 (by decide) (by decide),
      hne 12 (by decide) (by decide), hne 13 (by decide) (by decide)]
  · simp [isSpecial, hat, hsc, hco, hdollar, hcomma]

theorem foldl_blank (h : Behind mf t) (hne : ws ≠ []) (hws : ∀ b ∈ ws, isspace b = true) :
    BehindBlank (ws.foldl step mf) t ∧ (ws.foldl step mf).fed = mf.fed := by
  obtain ⟨b, ws, rfl⟩ := List.exists_cons_of_ne_nil hne
  have hb : isWs b = true := isWs_of_isspace (hws b (List.mem_cons_self ..))
  have hat : b ≠ 64 := by
    rintro rfl
    exact absurd hb (by decide)
  have hrest : ∀ c ∈ ws, isWs c = true := fun c hc => isWs_of_isspace (hws c (List.mem_cons_of_mem _ hc))
  have hstep : (mf.step b).state = .ws ∧ BehindBlank (mf.step b) t ∧ (mf.step b).fed = mf.fed := by
    cases t with
    | word w =>
      obtain ⟨hs, hsp⟩ := h
      simp [step, BehindBlank, hs, hat, hb, hsp]
    | scolon =>
      obtain ⟨hs, hsp⟩ := h
      simp [step, BehindBlank, hs, hat, hb, hsp]
    | colon =>
      obtain ⟨hs, hsp⟩ := h
      simp [step, BehindBlank, hs, hat, hb, hsp]
    | string s =>
      have hs : mf.state = .seen := h
      simp [step, BehindBlank, hs, hat, hb]
  obtain ⟨hws', hblank, hfed⟩ := hstep
  rw [List.foldl_cons, Md5filter.foldl_step_ws hws' hrest]
  exact ⟨hblank, hfed⟩

/-! ## The filter on a token -/

/-- The filter on the first byte of a token: `pre` is put in front of it. -/
structure Enters (mf : Md5filter) (pre : List Byte) (c : Byte) : Prop where
  at_string : c = 64 → (mf.step c).state = .string ∧ (mf.step c).fed = mf.fed ++ (pre ++ [c])
  at_print : isPrint c = true → mf.step c = (mf.update pre).printed c

/-- A string that begins is fed to its end. -/
theorem foldl_string (s : List Byte) {mf : Md5filter} (h : mf.state = .string) :
    (double s).foldl step mf = mf.update (double s) := by
  induction s generalizing mf with
  | nil => simp
  | cons b s ih =>
    rw [double_cons, List.foldl_append]
    by_cases hb : b = 64
    · have hstep : [64, 64].foldl step mf = mf.update [64, 64] := by
        simp [step, Md5filter.update, h]
      rw [if_pos hb, hstep, @ih (mf.update [64, 64]) h, Md5filter.update_update]
    · have hstep : [b].foldl step mf = mf.update [b] := by
        simp [step, Md5filter.update, h, hb]
      rw [if_neg hb, hstep, @ih (mf.update [b]) h, Md5filter.update_update]

/-- A token is fed whole, once its first byte is taken. -/
theorem foldl_text {pre : List Byte} (hl : Lacks [36, 44, 8] [t])
    (h : ∀ b ∈ t.text.head?, Enters mf pre b) :
    Behind (t.text.foldl step mf) t ∧ (t.text.foldl step mf).fed = mf.fed ++ (pre ++ t.text) := by
  cases t with
  | word w =>
    have hw := fun b hb => print_of_word (w := w) (hl w (List.mem_singleton_self _)) (b := b) hb
    obtain ⟨b, r, htext⟩ := List.exists_cons_of_ne_nil w.ne_nil
    have hmem : ∀ c ∈ b :: r, c ∈ w.text := fun c hc => htext ▸ hc
    have hstep := (h b (by simp [Token.text, htext])).at_print (hw b (hmem b (List.mem_cons_self ..))).1
    have hrun := @foldl_step_print ((mf.update pre).printed b) r rfl
      fun c hc => (hw c (hmem c (List.mem_cons_of_mem _ hc))).1
    rw [show (Token.word w).text = b :: r from htext, List.foldl_cons, hstep, hrun]
    refine ⟨⟨rfl, ?_⟩, ?_⟩
    · show isSpecial (r.getLastD b) = false
      have hlast : r.getLastD b ∈ b :: r := List.getLastD_mem_cons ..
      exact (hw _ (hmem _ hlast)).2
    · simp [printed, Md5filter.update]
  | scolon =>
    have hstep := (h 59 rfl).at_print (by decide)
    rw [show Token.scolon.text = [59] from rfl, List.foldl_cons, List.foldl_nil, hstep]
    exact ⟨⟨rfl, show isSpecial 59 = true by decide, show (59 : Byte) ≠ 64 by decide⟩,
      by simp [printed, Md5filter.update]⟩
  | colon =>
    have hstep := (h 58 rfl).at_print (by decide)
    rw [show Token.colon.text = [58] from rfl, List.foldl_cons, List.foldl_nil, hstep]
    exact ⟨⟨rfl, show isSpecial 58 = true by decide, show (58 : Byte) ≠ 64 by decide⟩,
      by simp [printed, Md5filter.update]⟩
  | string s =>
    obtain ⟨hs, hfed⟩ := (h 64 rfl).at_string rfl
    rw [show (Token.string s).text = 64 :: (double s ++ [64]) from rfl, List.foldl_cons,
      List.foldl_append, foldl_string s hs, List.foldl_cons, List.foldl_nil]
    generalize mf.step 64 = mf' at hs hfed
    refine ⟨?_, ?_⟩
    · show ((mf'.update (double s)).step 64).state = .seen
      simp [step, hs]
    · simp [step, hs, hfed]

/-- Whether there is a space in front of a word or a string. -/
theorem clash_behindBlank (h : BehindBlank mf t) :
    mf.state = .ws ∧ (∀ w, t.clash (.word w) = !isSpecial mf.lastc) ∧
      ∀ s, t.clash (.string s) = decide (mf.lastc = 64) := by
  cases t with
  | word w =>
    obtain ⟨hs, hsp⟩ := h
    have hat : mf.lastc ≠ 64 := by
      intro hat
      rw [hat] at hsp
      exact absurd hsp (by decide)
    exact ⟨hs, fun _ => by simp [Token.clash, hsp], fun _ => by simp [Token.clash, hat]⟩
  | scolon =>
    obtain ⟨hs, hsp, hat⟩ := h
    exact ⟨hs, fun _ => by simp [Token.clash, hsp], fun _ => by simp [Token.clash, hat]⟩
  | colon =>
    obtain ⟨hs, hsp, hat⟩ := h
    exact ⟨hs, fun _ => by simp [Token.clash, hsp], fun _ => by simp [Token.clash, hat]⟩
  | string s =>
    obtain ⟨hs, hat⟩ := h
    exact ⟨hs, fun _ => by simp [Token.clash, hat, isSpecial], fun _ => by simp [Token.clash, hat]⟩

theorem step_ws_print (hs : mf.state = .ws) {b : Byte} (hb : isPrint b = true) :
    mf.step b = (mf.update (if !isSpecial b && !isSpecial mf.lastc then [32] else [])).printed b := by
  obtain ⟨hws, hat⟩ := Md5filter.isPrint_iff.mp hb
  simp only [step, hs, if_neg hat, hws, Bool.false_eq_true, if_false]
  split <;> simp

theorem step_print (hs : mf.state = .print ∨ mf.state = .seen) {b : Byte} (hb : isPrint b = true) :
    mf.step b = mf.printed b := by
  obtain ⟨hws, hat⟩ := Md5filter.isPrint_iff.mp hb
  rcases hs with hs | hs <;> simp [step, hs, hat, hws]

/-- In front of the next token there is a space where it would run into the last. -/
theorem enters_blank (h : BehindBlank mf t) {b : Byte} (hb : b ∈ u.text.head?)
    (hl : Lacks [36, 44, 8] [u]) : Enters mf (if t.clash u then [32] else []) b := by
  obtain ⟨hs, hword, hstring⟩ := clash_behindBlank h
  cases u with
  | word w =>
    have hp := print_of_word (hl w (List.mem_singleton_self _)) (List.mem_of_mem_head? hb)
    refine ⟨?_, fun hprint => ?_⟩
    · rintro rfl
      exact absurd hp.1 (by decide)
    · rw [step_ws_print hs hprint, hp.2, hword]
      rfl
  | scolon =>
    obtain rfl : 59 = b := Option.some.inj hb
    refine ⟨fun h => absurd h (by decide), fun hprint => ?_⟩
    rw [step_ws_print hs hprint]
    cases t <;> rfl
  | colon =>
    obtain rfl : 58 = b := Option.some.inj hb
    refine ⟨fun h => absurd h (by decide), fun hprint => ?_⟩
    rw [step_ws_print hs hprint]
    cases t <;> rfl
  | string s =>
    obtain rfl : 64 = b := Option.some.inj hb
    refine ⟨fun _ => ?_, fun hprint => absurd hprint (by decide)⟩
    rw [hstring]
    by_cases hat : mf.lastc = 64 <;> simp [step, hs, hat]

theorem enters (h : Behind mf t) {b : Byte} (hb : b ∈ u.text.head?) (hc : t.clash u = false) :
    Enters mf [] b := by
  have hs : mf.state = .print ∨ mf.state = .seen := by
    cases t with
    | word w => exact .inl h.1
    | scolon => exact .inl h.1
    | colon => exact .inl h.1
    | string s => exact .inr h
  refine ⟨?_, fun hprint => ?_⟩
  · rintro rfl
    rcases hs with hs | hs <;> simp [step, hs]
  · rw [step_print hs hprint, Md5filter.update_nil]

/-- What is fed of a rendering, with a token behind the filter. -/
theorem foldl_render (h : Renders ts data) (hl : Lacks [36, 44, 8] ts) (hb : Behind mf t)
    (hsep : ∀ u ∈ ts.head?, t.clash u = true → startsBlank data = true) :
    (data.foldl step mf).fed = mf.fed ++ (gap t ts ++ canon ts) := by
  induction h generalizing t mf with
  | @nil ws hws =>
    by_cases hne : ws = []
    · simp [hne, gap, canon]
    · rw [(foldl_blank hb hne hws).2]
      simp [gap, canon]
  | @cons ws rest u ts hws hrender hsep' ih =>
    have hlu : Lacks [36, 44, 8] [u] := by
      intro w hw
      rw [List.mem_singleton] at hw
      exact hl w (hw ▸ List.mem_cons_self ..)
    have hlts : Lacks [36, 44, 8] ts := fun w hw => hl w (List.mem_cons_of_mem _ hw)
    -- the filter behind the white space
    have hent : (ws.foldl step mf).fed = mf.fed ∧
        ∀ b ∈ u.text.head?, Enters (ws.foldl step mf) (gap t (u :: ts)) b := by
      by_cases hne : ws = []
      · subst hne
        have hc : t.clash u = false := by
          by_contra hc
          have := hsep u rfl (by simpa using hc)
          obtain ⟨c, r, htext, hsp, -⟩ := u.text_eq_cons
          rw [List.nil_append, htext] at this
          exact absurd this (by simp [startsBlank, hsp])
        refine ⟨rfl, fun b hb' => ?_⟩
        rw [show gap t (u :: ts) = [] by simp [gap, hc]]
        exact enters hb hb' hc
      · obtain ⟨hblank, hfed⟩ := foldl_blank hb hne hws
        refine ⟨hfed, fun b hb' => ?_⟩
        rw [show gap t (u :: ts) = if t.clash u then [32] else [] from rfl]
        exact enters_blank hblank hb' hlu
    obtain ⟨hfed, hent⟩ := hent
    obtain ⟨hbehind, htext⟩ := foldl_text hlu hent
    rw [List.foldl_append, List.foldl_append, ih hlts hbehind hsep', htext, hfed]
    simp [canon]

/-- The digest is fed the tokens, with a space where two of them would run into
each other. -/
theorem fed_render (h : Renders ts data) (hl : Lacks [36, 44, 8] ts) :
    (md5rcsfilterFlush md5filterInit data).fed = canon ts := by
  rw [md5rcsfilterFlush_eq]
  -- the filter begins as behind a semicolon
  have hgap : gap .scolon ts = [] := by
    rw [gap, if_neg]
    rcases ts with - | ⟨u, ts⟩
    · simp
    · cases u <;> simp [Token.clash]
  have := @foldl_render .scolon ts data md5filterInit h hl ⟨rfl, by decide, by decide⟩
    (by rintro (w | - | - | s) - hc <;> cases hc)
  rw [this, hgap]
  rfl

theorem canon_injective {ts ts' : List Token} (h : canon ts = canon ts') : ts = ts' :=
  (renders_canon ts).unique (h ▸ renders_canon ts')

/-- Two renderings feed the digest the same if and only if they are of the same
tokens. -/
theorem fed_eq_iff (h : Renders ts data) (h' : Renders ts' data') (hl : Lacks [36, 44, 8] ts)
    (hl' : Lacks [36, 44, 8] ts') :
    (md5rcsfilterFlush md5filterInit data).fed = (md5rcsfilterFlush md5filterInit data').fed ↔
      ts = ts' := by
  rw [fed_render h hl, fed_render h' hl']
  exact ⟨canon_injective, congrArg canon⟩

theorem fed_eq_iff_head :
    (md5rcsfilterFlush md5filterInit (bytes "head ;\n".toList)).fed =
        (md5rcsfilterFlush md5filterInit (bytes "head;".toList)).fed ↔
      [Token.word (wordOf (bytes "head".toList) (by decide)), .scolon] =
        [Token.word (wordOf (bytes "head".toList) (by decide)), .scolon] :=
  fed_eq_iff
    (.token [] (.word (wordOf (bytes "head".toList) (by decide))) rfl
      (.token [32] .scolon rfl (.blanks rfl) (by simp)) (by simp [Token.clash]))
    (.token [] (.word (wordOf (bytes "head".toList) (by decide))) rfl
      (.token [] .scolon rfl (.blanks rfl) (by simp)) (by simp [Token.clash]))
    (lacks_of_all rfl) (lacks_of_all rfl)

/-- A backspace in a word is taken for white space. -/
theorem not_fed_eq_iff : ¬ ∀ (ts ts' : List Token) (data data' : List Byte), Renders ts data →
    Renders ts' data' → Lacks [36, 44] ts → Lacks [36, 44] ts' →
      ((md5rcsfilterFlush md5filterInit data).fed = (md5rcsfilterFlush md5filterInit data').fed ↔
        ts = ts') := by
  intro h
  have := h [.word (wordOf [97, 8, 98] (by decide))]
    [.word (wordOf [97] (by decide)), .word (wordOf [98] (by decide))] [97, 8, 98] [97, 32, 98]
    (.token [] _ rfl (.blanks rfl) (by simp))
    (.token [] _ rfl (.token [32] _ rfl (.blanks rfl) (by simp)) fun _ _ _ => rfl)
    (lacks_of_all rfl) (lacks_of_all rfl)
  have hts := this.mp (by decide)
  cases hts

end Csup.Stream
