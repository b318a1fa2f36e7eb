import Csup.Updater.Block
import Csup.Updater.Commands
import Csup.Updater.Rcsfile

/-!
# The two decoders of a text

The lines of a text are read in two places: `updater_addelta` adds each with its newline to
a delta, and takes the last newline back at a `.+`; `updater_checkout` and
`updater_read_checkout` write a newline in front of each but the first, and one more at a
`.`.

* `readCheckout_textWire`, `addelta_textWire`: what each makes of the lines of a text;
* `decoders_agree_iff`: they agree, but for a text without a line that ends with a `.+`,
  where the first takes back a byte it did not add.
-/

namespace Csup.Updater

open Csup.Diff (Line)
open Csup.Rcs (Fail Ptr Delta writestring)

/-- The lines of a text, as they are sent. -/
def textWire (ls : List TextLine) (truncated : Bool) : List Line :=
  ls.map TextLine.dotted ++ [if truncated then dotPlusLine else dotLine]

/-- The lines of a text, one after the other. -/
def joined (ls : List TextLine) : List Byte := ls.flatMap TextLine.val

/-! ## `updater_read_checkout` -/

/-- The loop at a line that is dotted. -/
theorem textLoop_dotted (first : Bool) (text : List Byte) (t : TextLine) (ls : List Line) :
    textLoop first text (t.dotted :: ls) =
      textLoop false (text ++ (if first then [] else [nl]) ++ t.body) ls := by
  have hdot : t.dotted = (if t.body.head? = some 46 then 46 :: t.body else t.body) ++ [nl] := by
    rw [TextLine.dotted, TextLine.val]
    split <;> rfl
  have hline : (if t.dotted.getLast? = some nl then t.dotted.dropLast else t.dotted) =
      if t.body.head? = some 46 then 46 :: t.body else t.body := by
    rw [hdot, List.getLast?_concat, if_pos rfl, List.dropLast_concat]
  rw [textLoop, hline]
  cases hb : t.body with
  | nil => simp
  | cons c body =>
    by_cases hc : c = 46
    · subst hc
      simp
    · simp [hc]

/-- What the loop has written behind some lines: it is a newline short. -/
theorem textLoop_map_dotted (text : List Byte) (ts : List TextLine) (ls : List Line) :
    textLoop false text (ts.map TextLine.dotted ++ ls) =
      textLoop false (text ++ ts.flatMap fun t => nl :: t.body) ls := by
  induction ts generalizing text with
  | nil => simp
  | cons t ts ih =>
    rw [List.map_cons, List.cons_append, textLoop_dotted, ih]
    simp

/-- What is written of a text. -/
def checkoutText (ls : List TextLine) (truncated : Bool) : List Byte :=
  if truncated then (joined ls).dropLast else if ls = [] then [nl] else joined ls

theorem joined_cons (t : TextLine) (ts : List TextLine) :
    joined (t :: ts) = t.body ++ (ts.flatMap fun t => nl :: t.body) ++ [nl] := by
  induction ts generalizing t with
  | nil => simp [joined, TextLine.val]
  | cons t' ts ih =>
    have := ih t'
    simp only [joined, List.flatMap_cons, TextLine.val] at this ⊢
    rw [this]
    simp

theorem readCheckout_textWire (ls : List TextLine) (truncated : Bool) (rest : List Line) :
    readCheckout (textWire ls truncated ++ rest) = .ok (checkoutText ls truncated, rest) := by
  cases ls with
  | nil => cases truncated <;> simp [textWire, readCheckout, textLoop, checkoutText, joined, dotLine, dotPlusLine]
  | cons t ts =>
    rw [textWire, readCheckout, List.map_cons, List.cons_append, List.cons_append, List.append_assoc,
      textLoop_dotted, textLoop_map_dotted]
    cases truncated <;> simp [textLoop, checkoutText, joined_cons, dotLine, dotPlusLine]

/-! ## `updater_addelta` -/

/-- The text of a part. -/
def Part.of : Part → Delta → List Byte
  | .log => Delta.log
  | .text => Delta.text

/-- What is stored of a part of the delta `d`. -/
def Rcsfile.stored (part : Part) (rf : Rcsfile) (d : Ptr) : Option (List Byte) :=
  (rf.deltas.mem d).map part.of

/-- Doubled `@` undone. -/
def undouble : List Byte → List Byte
  | [] => []
  | [b] => [b]
  | b :: c :: s => if b = 64 ∧ c = 64 then 64 :: undouble s else b :: undouble (c :: s)

theorem undouble_cons {b : Byte} (h : b ≠ 64) (s : List Byte) : undouble (b :: s) = b :: undouble s := by
  cases s with
  | nil => rfl
  | cons c s => rw [undouble, if_neg (fun hb => h hb.1)]

theorem undouble_writestring (s : List Byte) : undouble (writestring s) = s := by
  induction s with
  | nil => rfl
  | cons b s ih =>
    rw [writestring, List.flatMap_cons]
    by_cases hb : b = 64
    · rw [if_pos hb, List.cons_append, List.singleton_append, undouble, if_pos ⟨rfl, rfl⟩, hb]
      exact congrArg _ ih
    · rw [if_neg hb, List.singleton_append, undouble_cons hb]
      exact congrArg _ ih

theorem writestring_append (s t : List Byte) : writestring (s ++ t) = writestring s ++ writestring t :=
  List.flatMap_append

variable (parse : Files → Path → Option Rcsfile) (print : Rcsfile → Csup.Rcs.RcsDoc → List Byte)
  {rf : Rcsfile} {d : Ptr} {s : List Byte}

theorem stored_append {part : Part} (hs : rf.stored part d = some s) (line : Line) :
    ((rcsfile parse print).append part rf d line).stored part d = some (s ++ writestring line) := by
  obtain ⟨dd, hdd, rfl⟩ := Option.map_eq_some_iff.mp hs
  cases part <;>
    simp [RcsApi.append, rcsfile, Rcsfile.stored, Rcs.RcsFile.appendlog, Rcs.RcsFile.appendtext,
      Rcs.RcsFile.modify, hdd, Part.of]

theorem stored_lines {part : Part} (hs : rf.stored part d = some s) (ls : List TextLine) :
    (ls.foldl (fun f t => (rcsfile parse print).append part f d t.val) rf).stored part d =
      some (s ++ writestring (joined ls)) := by
  induction ls generalizing rf s with
  | nil => rw [List.foldl_nil, hs, joined, List.flatMap_nil, writestring, List.flatMap_nil, List.append_nil]
  | cons t ts ih =>
    rw [List.foldl_cons, ih (stored_append parse print hs t.val), List.append_assoc, ← writestring_append]
    rfl

/-- What truncating does to what is stored. -/
theorem truncate_stored {part : Part} (hs : rf.stored part d = some s) :
    (s = [] → (rcsfile parse print).truncate part rf d = .error .undefined) ∧
    (s ≠ [] → ∃ rf', (rcsfile parse print).truncate part rf d = .ok rf' ∧
      rf'.stored part d = some s.dropLast) := by
  obtain ⟨dd, hdd, rfl⟩ := Option.map_eq_some_iff.mp hs
  cases part
  all_goals
    refine ⟨fun h => ?_, fun h => ?_⟩
    · simp only [Part.of] at h
      simp [RcsApi.truncate, rcsfile, Rcsfile.truncatelog, Rcsfile.truncatetext, Rcs.RcsFile.deref, hdd,
        Rcsfile.truncateBuf, h, bind, Except.bind]
    · simp only [Part.of] at h
      simp [RcsApi.truncate, rcsfile, Rcsfile.truncatelog, Rcsfile.truncatetext, Rcs.RcsFile.deref, hdd,
        Rcsfile.truncateBuf, h, bind, Except.bind, Rcsfile.stored, Rcs.RcsFile.modify, Part.of, pure, Except.pure]

/-- A text with a line, or which ends with a `.`. -/
theorem addelta_textWire {part : Part} (hs : rf.stored part d = some s) (ls : List TextLine)
    (truncated : Bool) (h : ls ≠ [] ∨ truncated = false) :
    ∃ rf', (DeltaPart.lines part ls truncated).apply (rcsfile parse print) d rf = .ok rf' ∧
      rf'.stored part d =
        some (s ++ writestring (if truncated then (joined ls).dropLast else joined ls)) := by
  have hlines := stored_lines parse print hs ls
  cases truncated with
  | false => exact ⟨_, rfl, hlines⟩
  | true =>
    obtain ⟨t, ts, rfl⟩ := List.exists_cons_of_ne_nil (h.resolve_right (by decide))
    -- the last byte that was added is a newline
    have hnl : writestring [nl] = [nl] := rfl
    have hend := joined_cons t ts
    generalize t.body ++ (ts.flatMap fun t => nl :: t.body) = text at hend
    rw [hend, writestring_append, hnl, ← List.append_assoc] at hlines
    obtain ⟨rf', hrf', hstored⟩ := (truncate_stored parse print hlines).2 (by simp)
    refine ⟨rf', ?_, ?_⟩
    · rw [DeltaPart.apply]
      exact congrArg (orErr .proto) hrf'
    · rw [hstored, List.dropLast_concat, hend, if_pos rfl, List.dropLast_concat]

/-- A text without a line which ends with a `.+`. -/
theorem addelta_empty {part : Part} (hs : rf.stored part d = some s) :
    (s = [] ∧ (DeltaPart.lines part [] true).apply (rcsfile parse print) d rf = .error .undefined) ∨
    ∃ rf', (DeltaPart.lines part [] true).apply (rcsfile parse print) d rf = .ok rf' ∧ s ≠ [] ∧
      rf'.stored part d = some s.dropLast := by
  obtain ⟨hempty, hmore⟩ := truncate_stored parse print hs
  by_cases h : s = []
  · exact .inl ⟨h, congrArg (orErr .proto) (hempty h)⟩
  · obtain ⟨rf', hrf', hstored⟩ := hmore h
    exact .inr ⟨rf', congrArg (orErr .proto) hrf', h, hstored⟩

/-! ## Both -/

/-- What is added to a part of a delta, with doubled `@` undone, is what is written of the same
lines, or the empty text where those are none and a `.`, just when there is a line or it ends
with a `.`. -/
theorem decoders_agree_iff {part : Part} (hs : rf.stored part d = some s) (cmd : Option Byte)
    (ls : List TextLine) (truncated : Bool) :
    (∃ rf' added text,
      (∀ rest, ∃ cmd', addeltaLoop (rcsfile parse print) d none cmd rf
          ((DeltaPart.lines part ls truncated).wire ++ rest) =
        addeltaLoop (rcsfile parse print) d none cmd' rf' rest) ∧
      rf'.stored part d = some (s ++ added) ∧
      (∀ rest, readCheckout (textWire ls truncated ++ rest) = .ok (text, rest)) ∧
      (undouble added = text ∨ ls = [] ∧ truncated = false ∧ added = [])) ↔
    ls ≠ [] ∨ truncated = false := by
  constructor
  · rintro ⟨rf', added, text, hloop, hstored, -, -⟩
    by_contra hne
    obtain ⟨rfl, rfl⟩ : ls = [] ∧ truncated = true := by simpa using hne
    obtain ⟨cmd', hloop⟩ := hloop [dotLine]
    obtain ⟨cmd'', hpart⟩ := addeltaLoop_part (rcsfile parse print) d cmd rf (.lines part [] true) [dotLine]
    have hend (cmd : Option Byte) (f : Rcsfile) :
        addeltaLoop (rcsfile parse print) d none cmd f [dotLine] = .ok (f, []) := by
      simp [addeltaLoop, protoGetChar_dotLine]
    rw [hpart, hend] at hloop
    rcases addelta_empty parse print hs with ⟨-, happly⟩ | ⟨rf'', happly, hpos, hdrop⟩
    · rw [happly] at hloop
      cases hloop
    · rw [happly] at hloop
      have heq := hloop.symm.trans (hend cmd'' rf'')
      obtain rfl : rf' = rf'' := (Prod.mk.inj (Except.ok.inj heq)).1
      have hlen := congrArg List.length (Option.some.inj (hdrop.symm.trans hstored))
      have := List.length_pos_iff.mpr hpos
      simp only [List.length_dropLast, List.length_append] at hlen
      omega
  · intro h
    obtain ⟨rf', happly, hstored⟩ := addelta_textWire parse print hs ls truncated h
    refine ⟨rf', _, checkoutText ls truncated, (fun rest => ?_), hstored,
      readCheckout_textWire ls truncated, ?_⟩
    · obtain ⟨cmd', hpart⟩ := addeltaLoop_part (rcsfile parse print) d cmd rf (.lines part ls truncated) rest
      exact ⟨cmd', by rw [hpart, happly]; rfl⟩
    · rw [undouble_writestring]
      cases truncated with
      | true => exact .inl rfl
      | false =>
        by_cases hls : ls = []
        · exact .inr ⟨hls, rfl, by rw [hls]; rfl⟩
        · exact .inl (by rw [checkoutText, if_neg hls])

/-- A file with one delta. -/
def oneDelta (text : List Byte) : Rcsfile :=
  ⟨none, none, [], ⟨fun p => if p = 0 then some { Rcs.createdelta [] with text } else none, 1, [], [0], [0]⟩⟩

/-- The functions for files that are edited only. -/
def editing : RcsApi Rcsfile Ptr := rcsfile (fun _ _ => none) fun _ _ => []

def atLine : TextLine := ⟨[64], by decide⟩

theorem decoders_agree_iff_at :
    ∃ rf' added text,
      (∀ rest, ∃ cmd', addeltaLoop editing 0 none none (oneDelta [])
          ((DeltaPart.lines .text [atLine] true).wire ++ rest) =
        addeltaLoop editing 0 none cmd' rf' rest) ∧
      rf'.stored .text 0 = some ([] ++ added) ∧
      (∀ rest, readCheckout (textWire [atLine] true ++ rest) = .ok (text, rest)) ∧
      (undouble added = text ∨ [atLine] = [] ∧ true = false ∧ added = []) :=
  (@decoders_agree_iff (fun _ _ => none) (fun _ _ => []) (oneDelta []) 0 [] .text rfl none [atLine] true).mpr
    (.inl (List.cons_ne_nil _ _))

/-- A text without a line which ends with a `.+`: the length of what is stored would be -1. -/
theorem decoders_disagree :
    addeltaLoop editing 0 none none (oneDelta []) ((DeltaPart.lines .text [] true).wire ++ [dotLine]) =
      .error .undefined ∧
    readCheckout (textWire [] true) = .ok ([], []) := by
  refine ⟨?_, rfl⟩
  obtain ⟨cmd', hpart⟩ := addeltaLoop_part editing 0 none (oneDelta []) (.lines .text [] true) [dotLine]
  rw [hpart]
  rfl

end Csup.Updater
