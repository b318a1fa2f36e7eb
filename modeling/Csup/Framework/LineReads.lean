import Csup.Framework.Lines

/-!
# Reading lines off a stream

A line reader returns what it made of some lines and the lines it leaves. It need
not look at all of the last line it takes (`TakesLines`): `same l l'` says that
it reads `l'` as it reads `l`. On a stream it is settled by the lines it takes,
whatever is behind them (`onLines_append`), unless the last of them is the end
of the stream and lacks its separator. Then it depends on the line that the
stream goes on with (`lineOf`).
-/

namespace Csup.Framework

variable {α E β : Type*} {nl : α}

/-- A reader that reads `b` takes some lines. -/
def TakesLines (same : List α → List α → Prop)
    (f : List (List α) → Except E (β × List (List α))) (b : β) : Prop :=
  ∀ ls rest, f ls = .ok (b, rest) →
    ∃ used l, ls = used ++ l :: rest ∧ ∀ l' t, same l l' → f (used ++ l' :: t) = .ok (b, t)

/-- The reader of one line. -/
def oneLine (eof : E) (parse : List α → Except E β) :
    List (List α) → Except E (β × List (List α))
  | [] => .error eof
  | l :: ls => (parse l).map fun b => (b, ls)

theorem oneLine_takes (eof : E) (parse : List α → Except E β) (b : β) :
    TakesLines (fun l l' => parse l' = parse l) (oneLine eof parse) b := by
  intro ls rest h
  rcases ls with - | ⟨l, ls⟩
  · cases h
  · rcases hp : parse l with e | b'
    · rw [oneLine, hp] at h
      cases h
    · rw [oneLine, hp] at h
      obtain ⟨rfl, rfl⟩ := Prod.mk.inj (Except.ok.inj h)
      refine ⟨[], l, rfl, fun l' t hsame => ?_⟩
      rw [List.nil_append, oneLine, hsame, hp]
      rfl

variable [DecidableEq α]

/-- A line reader on a stream. -/
def onLines (nl : α) (f : List (List α) → Except E (β × List (List α))) (p : List α) :
    Except E (β × List α) :=
  (f (splitLines nl p)).map fun r => (r.1, r.2.flatten)

/-- The last line when its separator is missing, else nothing. -/
def lastLine (nl : α) (p : List α) : List α := (p.reverse.takeWhile (· ≠ nl)).reverse

/-- The first line, when there is one. -/
def lineOf (nl : α) (p : List α) : List α := (splitLines nl p).headD []

/-- What is behind the first line. -/
def behindLine (nl : α) (p : List α) : List α := (splitLines nl p).tail.flatten

theorem onLines_eq_ok {f : List (List α) → Except E (β × List (List α))} {p : List α} {b : β}
    {rest : List α} (h : onLines nl f p = .ok (b, rest)) :
    ∃ ls, f (splitLines nl p) = .ok (b, ls) ∧ rest = ls.flatten := by
  rcases hf : f (splitLines nl p) with e | ⟨b', ls⟩
  · rw [onLines, hf] at h
    cases h
  · rw [onLines, hf] at h
    obtain ⟨rfl, rfl⟩ := Prod.mk.inj (Except.ok.inj h)
    exact ⟨ls, rfl, rfl⟩

theorem lastLine_append {w : List α} (x : List α) (hw : nl ∉ w)
    (hx : x = [] ∨ x.getLast? = some nl) : lastLine nl (x ++ w) = w := by
  have hall : ∀ a ∈ w.reverse, decide (a ≠ nl) = true := by
    intro a ha
    exact decide_eq_true fun h => hw (by simpa [h] using ha)
  rw [lastLine, List.reverse_append, List.takeWhile_append_of_pos hall]
  rcases hx with rfl | hx
  · simp
  · obtain ⟨y, rfl⟩ := List.getLast?_eq_some_iff.mp hx
    simp

theorem notMem_lastLine (nl : α) (p : List α) : nl ∉ lastLine nl p := by
  intro h
  have := (List.all_takeWhile (p := (· ≠ nl)) (l := p.reverse))
  rw [List.all_eq_true] at this
  simpa using this nl (List.mem_reverse.mp h)

omit [DecidableEq α] in
theorem flatten_full {ls : List (List α)} (h : ∀ l ∈ ls, FullLine nl l) :
    ls.flatten = [] ∨ ls.flatten.getLast? = some nl := by
  rcases List.eq_nil_or_concat ls with rfl | ⟨ls, l, rfl⟩
  · exact .inl rfl
  · obtain ⟨w, -, rfl⟩ := h l (by simp)
    exact .inr (by simp)

/-- The lines of a stream in front of which there are full lines. -/
theorem splitLines_full_append {ls : List (List α)} (h : ∀ l ∈ ls, FullLine nl l) (as : List α) :
    splitLines nl (ls.flatten ++ as) = ls ++ splitLines nl as := by
  induction ls with
  | nil => rfl
  | cons l ls ih =>
    rw [List.flatten_cons, List.append_assoc, splitLines_fullLine (h l (by simp)),
      ih fun x hx => h x (by simp [hx])]
    rfl

/-- An unfinished line and what follows it. -/
theorem splitLines_unfinished {l : List α} (hl : nl ∉ l) (hne : l ≠ []) (q : List α) :
    splitLines nl (l ++ q) = (l ++ lineOf nl q) :: (splitLines nl q).tail := by
  induction l with
  | nil => exact absurd rfl hne
  | cons a l ih =>
    have ha : a ≠ nl := fun h => hl (by simp [h])
    rw [List.cons_append, splitLines, if_neg ha]
    by_cases h : l = []
    · subst h
      rw [List.nil_append, lineOf]
      rcases splitLines nl q with - | ⟨l₁, ls⟩ <;> rfl
    · rw [ih (fun h => hl (by simp [h])) h]
      rfl

/-- The lines of a stream are its full lines, and the one that is not finished. -/
theorem splitLines_cases (nl : α) (p : List α) :
    (∀ l ∈ splitLines nl p, FullLine nl l) ∨
      ∃ used, (∀ l ∈ used, FullLine nl l) ∧ lastLine nl p ≠ [] ∧
        splitLines nl p = used ++ [lastLine nl p] := by
  have htext := isText_splitLines nl p
  have hp := flatten_splitLines nl p
  rcases List.eq_nil_or_concat (splitLines nl p) with hnil | ⟨used, l, hsplit⟩
  · refine .inl fun l hl => ?_
    rw [hnil] at hl
    cases hl
  · rw [List.concat_eq_append] at hsplit
    rw [hsplit] at htext hp
    have hused : ∀ x ∈ used, FullLine nl x := ((isText_append (by simp)).mp htext).1
    have hlast := htext.lastLine l (by simp)
    by_cases hl : l.getLast? = some nl
    · refine .inl fun x hx => ?_
      rw [hsplit] at hx
      rcases List.mem_append.mp hx with hx | hx
      · exact hused x hx
      · obtain rfl : x = l := by simpa using hx
        exact hlast.full hl
    · have hno : nl ∉ l := by
        intro hmem
        obtain ⟨w, a, rfl⟩ := (List.eq_nil_or_concat l).resolve_left hlast.1
        rw [List.concat_eq_append] at hlast hmem hl
        have hdrop := hlast.2
        rw [List.dropLast_concat] at hdrop
        obtain rfl : nl = a := by simpa [hdrop] using hmem
        exact hl (by simp)
      have hlp : lastLine nl p = l := by
        rw [← hp, List.flatten_append, List.flatten_singleton]
        exact lastLine_append _ hno (flatten_full hused)
      exact .inr ⟨used, hused, by rw [hlp]; exact hlast.1, by rw [hlp, hsplit]⟩

/-- Where the stream goes on behind an unfinished line. -/
theorem splitLines_append_unfinished {p : List α} {used : List (List α)}
    (hused : ∀ l ∈ used, FullLine nl l) (hne : lastLine nl p ≠ [])
    (hsplit : splitLines nl p = used ++ [lastLine nl p]) (q : List α) :
    splitLines nl (p ++ q) = used ++ (lastLine nl p ++ lineOf nl q) :: (splitLines nl q).tail := by
  have hp := flatten_splitLines nl p
  rw [hsplit, List.flatten_append, List.flatten_singleton] at hp
  have hq : p ++ q = used.flatten ++ (lastLine nl p ++ q) := by
    rw [← List.append_assoc, hp]
  rw [hq, splitLines_full_append hused, splitLines_unfinished (notMem_lastLine nl p) hne]

theorem onLines_length {same : List α → List α → Prop}
    {f : List (List α) → Except E (β × List (List α))} {b : β} (hf : TakesLines same f b)
    {p rest : List α} (h : onLines nl f p = .ok (b, rest)) :
    rest.length < p.length := by
  obtain ⟨ls, hls, rfl⟩ := onLines_eq_ok h
  obtain ⟨used, l, hsplit, -⟩ := hf _ _ hls
  have hp := flatten_splitLines nl p
  have hl : l ≠ [] := ((isText_splitLines nl p).lastLine l (by simp [hsplit])).1
  have := List.length_pos_iff.mpr hl
  rw [hsplit] at hp
  rw [← hp]
  simp only [List.flatten_append, List.flatten_cons, List.length_append]
  omega

/-- A line reader on a stream goes by what it takes, or it took the last line,
which is not finished, and goes by what becomes of that. -/
theorem onLines_append (same : List α → List α → Prop) (hrefl : ∀ l, same l l)
    {f : List (List α) → Except E (β × List (List α))} {b : β} (hf : TakesLines same f b)
    {p rest : List α} (h : onLines nl f p = .ok (b, rest)) :
    (∀ q, onLines nl f (p ++ q) = .ok (b, rest ++ q)) ∨
      rest = [] ∧ lastLine nl p ≠ [] ∧
        ∀ q, same (lastLine nl p) (lastLine nl p ++ lineOf nl q) →
          onLines nl f (p ++ q) = .ok (b, behindLine nl q) := by
  obtain ⟨ls, hls, rfl⟩ := onLines_eq_ok h
  obtain ⟨used, l, hsplit, htakes⟩ := hf _ _ hls
  have settled (hfull : ∀ x ∈ used ++ [l], FullLine nl x) :
      ∀ q, onLines nl f (p ++ q) = .ok (b, ls.flatten ++ q) := by
    intro q
    have hp := flatten_splitLines nl p
    rw [hsplit] at hp
    have hq : p ++ q = (used ++ [l]).flatten ++ (ls.flatten ++ q) := by
      rw [← hp]
      simp
    rw [onLines, hq, splitLines_full_append hfull, List.append_assoc, List.singleton_append,
      htakes l _ (hrefl l)]
    show Except.ok (b, (splitLines nl (ls.flatten ++ q)).flatten) = _
    rw [flatten_splitLines]
  have hfront {us : List (List α)} (heq : used ++ l :: ls = us ++ [lastLine nl p]) (hls : ls ≠ []) :
      ∀ x ∈ used ++ [l], x ∈ us := by
    intro x hx
    obtain ⟨ls', l', rfl⟩ := (List.eq_nil_or_concat ls).resolve_left hls
    rw [List.concat_eq_append, ← List.cons_append, ← List.append_assoc] at heq
    obtain ⟨rfl, -⟩ := List.append_inj' heq rfl
    rcases List.mem_append.mp hx with hx | hx
    · exact List.mem_append_left _ hx
    · obtain rfl : x = l := by simpa using hx
      simp
  rcases splitLines_cases nl p with hfull | ⟨us, hus, hne, hlast⟩
  · refine .inl (settled fun x hx => hfull x ?_)
    rw [hsplit]
    rcases List.mem_append.mp hx with hx | hx
    · exact List.mem_append_left _ hx
    · obtain rfl : x = l := by simpa using hx
      simp
  · by_cases hnil : ls = []
    · subst hnil
      obtain ⟨rfl, hl⟩ := List.append_inj' (hsplit.symm.trans hlast) rfl
      obtain rfl : l = lastLine nl p := by simpa using hl
      refine .inr ⟨rfl, hne, fun q hq => ?_⟩
      rw [onLines, splitLines_append_unfinished hus hne hlast, htakes _ _ hq]
      rfl
    · exact .inl (settled fun x hx => hus x (hfront (hsplit.symm.trans hlast) hnil x hx))

/-- The reader of one line that took the unfinished last one. -/
theorem onLines_oneLine {eof : E} {parse : List α → Except E β} {p rest : List α} {b : β}
    (h : onLines nl (oneLine eof parse) p = .ok (b, rest)) :
    (∀ q, onLines nl (oneLine eof parse) (p ++ q) = .ok (b, rest ++ q)) ∨
      rest = [] ∧ p ≠ [] ∧ lastLine nl p = p ∧
        ∀ q, onLines nl (oneLine eof parse) (p ++ q) =
          (parse (p ++ lineOf nl q)).map fun b => (b, behindLine nl q) := by
  rcases onLines_append (fun l l' => parse l' = parse l) (fun _ => rfl)
    (oneLine_takes eof parse b) h with hset | ⟨hr, hne, -⟩
  · exact .inl hset
  · obtain ⟨ls, hls, hrest⟩ := onLines_eq_ok h
    have hp := flatten_splitLines nl p
    rcases splitLines_cases nl p with hfull | ⟨used, hused, -, hsplit⟩
    · refine absurd ?_ hne
      rw [← List.append_nil p, ← hp]
      exact lastLine_append _ List.not_mem_nil (flatten_full hfull)
    · rw [hsplit] at hls hp
      rcases used with - | ⟨l, used⟩
      · -- the unfinished line is all there is
        have hpl : lastLine nl p = p := by simpa using hp
        rw [List.nil_append, oneLine, hpl] at hls
        refine .inr ⟨hr, ?_, hpl, fun q => ?_⟩
        · rwa [hpl] at hne
        · rw [onLines, splitLines_append_unfinished hused hne hsplit, List.nil_append, oneLine, hpl]
          rcases parse (p ++ lineOf nl q) with e | b' <;> rfl
      · rcases hparse : parse l with e | b'
        · rw [List.cons_append, oneLine, hparse] at hls
          cases hls
        · rw [List.cons_append, oneLine, hparse] at hls
          obtain ⟨-, rfl⟩ := Prod.mk.inj (Except.ok.inj hls)
          rw [hr, List.flatten_append, List.flatten_singleton] at hrest
          exact absurd (List.append_eq_nil_iff.mp hrest.symm).2 hne

end Csup.Framework
