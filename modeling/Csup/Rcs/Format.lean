import Csup.Rcs.Reading

/-!
# The bytes of an RCS file

What `rcsfile_write` prints, and what the parser makes of it. The description is kept by the parser
as it is (`rcsread`).

* `Guarded`: a rendering, of which the first token is not read as part of what is in front of it;
* `rcsread_rcsfileWrite`: what is printed is read again.
-/

namespace Csup.Rcsparse

open Csup.Framework Csup.Keyword Csup.Lexer
open Csup.Proto (cstr_of_notMem)
open Csup.Framework.Scan (Runs runs_pure)
open Csup.Rcs

/-! ## What is written -/

def writeBranch : Option Revnum → List Byte
  | none => []
  | some b => bytes "branch\t".toList ++ cstr b ++ bytes ";\n".toList

def writeTag (t : List Byte × Revnum) : List Byte :=
  bytes "\n\t".toList ++ cstr t.1 ++ bytes ":".toList ++ cstr t.2

def writeStrict (strict : Bool) : List Byte := if strict then bytes " strict;".toList else []

def writeComment : Option (List Byte) → List Byte
  | none => []
  | some c => bytes "comment\t@".toList ++ c ++ bytes "@;\n".toList

def writeExpand (expand : Expand) : List Byte :=
  if expand = .default then []
  else bytes "expand\t@".toList ++ keywordEncodeExpand expand ++ bytes "@;\n".toList

/-- The admin part. The access list is not printed. -/
def writeAdmin (adm : Admin) : List Byte :=
  bytes "head\t".toList ++ cstr adm.head ++ bytes ";\n".toList ++ writeBranch adm.branch ++
    bytes "access".toList ++ bytes ";\n".toList ++
    bytes "symbols".toList ++ adm.taglist.flatMap writeTag ++
    bytes ";\nlocks;".toList ++ writeStrict adm.strictlock ++ bytes "\n".toList ++
    writeComment adm.comment ++ writeExpand adm.expand ++ bytes "\n\n".toList

/-- A header. -/
def writeHeader (e : HeaderEntry) : List Byte :=
  cstr e.revnum ++ bytes "\n".toList ++ bytes "date\t".toList ++ cstr e.revdate ++
    bytes ";\tauthor ".toList ++ cstr e.author ++ bytes ";\tstate".toList ++
    (e.state.toList.flatMap fun s => bytes " ".toList ++ cstr s) ++ bytes ";\nbranches".toList ++
    (e.branches.flatMap fun b => bytes "\n\t".toList ++ cstr b) ++ bytes ";\nnext\t".toList ++
    (e.next.toList.flatMap fun r => cstr r) ++ bytes ";\n\n".toList

/-- A text, as `rcsfile_write_deltatext` prints it. -/
def writeText (t : TextEntry) : List Byte :=
  bytes "\n\n\n".toList ++ cstr t.revnum ++ bytes "\n".toList ++ bytes "log\n@".toList ++ t.log ++
    bytes "@\ntext\n@".toList ++ t.text ++ bytes "@".toList

/-- `rcsfile_write` -/
def rcsfileWrite (adm : Admin) (desc : List Byte) (doc : RcsDoc) : List Byte :=
  writeAdmin { adm with head := doc.head } ++ doc.deltas.flatMap writeHeader ++
    bytes "\ndesc\n@".toList ++ desc ++ bytes "@".toList ++ doc.texts.flatMap writeText ++
    bytes "\n".toList

/-! ## What is read -/

/-- `rcsparse` of a file that is opened for editing, with the description. -/
def parseWhole : Parser (Admin × List Byte × RcsFile) := do
  let adm ← parseAdmin
  let rf ← parseDeltas importEntry (RcsFile.empty adm.head)
  let _ ← need (wantKw "desc")
  let desc ← need getString
  let rf ← parseDeltatexts rf
  return (adm, desc, rf)

def rcsread (content : List Byte) : Except Stop (Admin × List Byte × RcsFile) :=
  match rcslexNew content with
  | none => .error .error
  | some lex => (parseWhole lex).map Prod.fst

/-- The description is all that `rcsparseRw` leaves out. -/
theorem rcsparseRw_eq (content : List Byte) :
    rcsparseRw content = (rcsread content).map fun r => (r.1, r.2.2) := by
  have hparse : parseFile importEntry RcsFile.empty parseDeltatexts =
      (fun r => (r.1, r.2.2)) <$> parseWhole := by
    simp only [parseFile, parseRest, parseWhole, map_bind, bind_assoc, map_pure]
  rw [rcsparseRw, rcsparse, rcsread]
  cases rcslexNew content with
  | none => rfl
  | some lex =>
    rw [hparse]
    show Except.map Prod.fst ((parseWhole lex).map fun r => ((r.1.1, r.1.2.2), r.2)) =
      ((parseWhole lex).map Prod.fst).map fun r => (r.1, r.2.2)
    cases parseWhole lex <;> rfl

/-! ## Renderings -/

/-- A rendering that may come behind any token. -/
structure Guarded (ts : List Token) (data : List Byte) : Prop where
  renders : Renders ts data
  blank : ∀ t, ∀ u ∈ ts.head?, Token.clash t u = true → startsBlank data = true

namespace Guarded

variable {t : Token} {ts : List Token} {ws rest l : List Byte}

theorem nil (hws : ws.all isspace = true) : Guarded [] ws :=
  ⟨.blanks hws, fun _ _ hu => by cases hu⟩

theorem blanks (ws : List Byte) (hws : ws.all isspace = true) (h : Guarded ts rest) :
    Guarded ts (ws ++ rest) := by
  refine ⟨h.renders.blank_append (List.all_eq_true.mp hws), fun t u hu hc => ?_⟩
  cases ws with
  | nil => exact h.blank t u hu hc
  | cons b ws => exact List.all_eq_true.mp hws b List.mem_cons_self

/-- A token behind white space. -/
theorem spaced (b : Byte) (ws : List Byte) (t : Token) (hws : (b :: ws).all isspace = true)
    (h : Guarded ts rest) : Guarded (t :: ts) (b :: ws ++ (t.text ++ rest)) :=
  ⟨.token _ t hws h.renders (h.blank t), fun _ _ _ _ => List.all_eq_true.mp hws b List.mem_cons_self⟩

theorem word (b : Byte) (ws : List Byte) (hws : (b :: ws).all isspace = true) (hl : IsWord l)
    (h : Guarded ts rest) : Guarded (wordTok l :: ts) (b :: ws ++ (l ++ rest)) := by
  have := h.spaced b ws (wordTok l) hws
  rw [wordTok_eq hl] at this ⊢
  exact this

/-- A separator needs no white space. -/
theorem scolon (h : Guarded ts rest) : Guarded (.scolon :: ts) ([59] ++ rest) :=
  ⟨.token [] .scolon rfl h.renders (h.blank _), fun t u hu hc => by
    cases hu
    cases t <;> cases hc⟩

/-- A word without white space in front of it. -/
theorem word_renders (hl : IsWord l) (h : Guarded ts rest) : Renders (wordTok l :: ts) (l ++ rest) := by
  rw [wordTok_eq hl]
  exact .token [] (.word (wordOf l hl)) rfl h.renders (h.blank _)

/-- A word behind a colon. -/
theorem colonWord (hl : IsWord l) (h : Guarded ts rest) :
    Guarded (.colon :: wordTok l :: ts) ([58] ++ (l ++ rest)) := by
  refine ⟨.token [] .colon rfl (h.word_renders hl) fun u _ hc => ?_, fun t u hu hc => ?_⟩
  · cases hc
  · cases hu
    cases t <;> cases hc

/-- A string behind white space. -/
theorem string (b : Byte) (hb : isspace b = true) {s : List Byte} (hs : IsRaw s)
    (h : Guarded ts rest) : Guarded (.string (halve s) :: ts) ([b, 64] ++ (s ++ ([64] ++ rest))) := by
  have := h.spaced b [] (.string (halve s)) (by simp [hb])
  rw [Token.text, show double (halve s) = s from hs] at this
  simpa using this

/-- Words that need not be there. -/
theorem words (b : Byte) (ws : List Byte) (hws : (b :: ws).all isspace = true)
    {items : List (List Byte)} (hi : ∀ w ∈ items, IsWord w ∧ 0 ∉ w) (h : Guarded ts rest) :
    Guarded (items.map wordTok ++ ts) ((items.flatMap fun w => b :: ws ++ cstr w) ++ rest) := by
  induction items with
  | nil => exact h
  | cons w items ih =>
    have hw := hi w List.mem_cons_self
    rw [List.flatMap_cons, cstr_of_notMem hw.2, List.append_assoc, List.append_assoc]
    exact word b ws hws hw.1 (ih fun w hw => hi w (.tail _ hw))

end Guarded

/-! ## What is written is a rendering -/

theorem IsNum.zero_notMem {l : List Byte} (h : IsNum l) : 0 ∉ l := fun h0 => by
  have hall := h.2
  simp only [Tok.validateNum, Bool.and_eq_true, List.all_eq_true] at hall
  exact absurd (hall.2 0 h0) (by decide)

theorem IsId.zero_notMem {l : List Byte} (h : IsId l) : 0 ∉ l := fun h0 => by
  have hall := h.2
  simp only [Tok.validateId, Bool.and_eq_true, List.all_eq_true] at hall
  exact absurd (hall.1.2 0 h0) (by decide)

section

variable {ts : List Token} {rest : List Byte}

theorem guarded_writeHeader {e : HeaderEntry} (he : PrintableHeader e)
    (h : Guarded ts ([nl, nl] ++ rest)) :
    Guarded (wordTok e.revnum :: (headerTail e ++ ts)) ([nl, nl] ++ (writeHeader e ++ rest)) := by
  have hdate : bytes "date\t".toList = bytes "date".toList ++ [9] := rfl
  have hauthor : bytes ";\tauthor ".toList = [59] ++ ([9] ++ (bytes "author".toList ++ [32])) := rfl
  have hstate : bytes ";\tstate".toList = [59] ++ ([9] ++ bytes "state".toList) := rfl
  have hbranches : bytes ";\nbranches".toList = [59] ++ ([nl] ++ bytes "branches".toList) := rfl
  have hnext : bytes ";\nnext\t".toList = [59] ++ ([nl] ++ (bytes "next".toList ++ [9])) := rfl
  have hend : bytes ";\n\n".toList = [59] ++ [nl, nl] := rfl
  simp only [writeHeader, headerTail, hdate, hauthor, hstate, hbranches, hnext, hend,
    cstr_of_notMem he.revnum.zero_notMem, cstr_of_notMem he.revdate.zero_notMem,
    cstr_of_notMem he.author.zero_notMem, List.append_assoc, List.cons_append]
  refine .word nl [nl] rfl he.revnum.1 (.word nl [] rfl (by decide) (.word 9 [] rfl he.revdate.1
    (.scolon (.word 9 [] rfl (by decide) (.word 32 [] rfl he.author.1 (.scolon (.word 9 [] rfl
      (by decide) ?_)))))))
  refine .words 32 [] rfl (fun s hs => ?_) (.scolon (.word nl [] rfl (by decide)
    (.words nl [9] rfl (fun b hb => ?_) (.scolon (.word nl [] rfl (by decide) ?_)))))
  · have := he.state s (Option.mem_toList.mp hs)
    exact ⟨this.1, this.zero_notMem⟩
  · exact ⟨(he.branches b hb).1, (he.branches b hb).zero_notMem⟩
  · cases hn : e.next with
    | none => exact .blanks [9] rfl (.scolon h)
    | some r =>
      have hr := he.next r hn
      rw [Option.toList_some, List.flatMap_singleton, cstr_of_notMem hr.zero_notMem]
      exact .word 9 [] rfl hr.1 (.scolon h)

/-- The headers, behind white space. -/
theorem guarded_writeHeaders {es : List HeaderEntry} (hes : ∀ e ∈ es, PrintableHeader e)
    (h : Guarded (kw "desc" :: ts) ([nl, nl] ++ rest)) :
    Guarded (headerToks ts es) ([nl, nl] ++ (es.flatMap writeHeader ++ rest)) := by
  induction es with
  | nil => exact h
  | cons e es ih =>
    have he := hes e List.mem_cons_self
    rw [headerToks, List.flatMap_cons, List.flatMap_cons, List.append_assoc, List.append_assoc]
    exact guarded_writeHeader he (ih fun e he => hes e (.tail _ he))

theorem guarded_writeText {t : TextEntry} (ht : PrintableText t) (h : Guarded ts rest) :
    Guarded (textToks t ++ ts) (writeText t ++ rest) := by
  have hlog : bytes "log\n@".toList = bytes "log".toList ++ [nl, 64] := rfl
  have htext : bytes "@\ntext\n@".toList = [64] ++ ([nl] ++ (bytes "text".toList ++ [nl, 64])) := rfl
  simp only [writeText, textToks, hlog, htext, cstr_of_notMem ht.revnum.zero_notMem,
    List.append_assoc, List.cons_append, List.nil_append]
  exact .word nl [nl, nl] rfl ht.revnum.1 (.word nl [] rfl (by decide) (.string nl rfl ht.log
    (.word nl [] rfl (by decide) (.string nl rfl ht.text h))))

theorem guarded_writeTexts {texts : List TextEntry} (hts : ∀ t ∈ texts, PrintableText t)
    (h : Guarded ts rest) :
    Guarded (texts.flatMap textToks ++ ts) (texts.flatMap writeText ++ rest) := by
  induction texts with
  | nil => exact h
  | cons t texts ih =>
    rw [List.flatMap_cons, List.flatMap_cons, List.append_assoc, List.append_assoc]
    exact guarded_writeText (hts t List.mem_cons_self) (ih fun t ht => hts t (.tail _ ht))

/-- Tags have a colon behind their name. -/
theorem guarded_writeTags {taglist : List (List Byte × Revnum)}
    (ht : ∀ t ∈ taglist, IsWord t.1 ∧ 0 ∉ t.1 ∧ IsNum t.2) (h : Guarded ts rest) :
    Guarded (taglist.flatMap tagToks ++ ts) (taglist.flatMap writeTag ++ rest) := by
  induction taglist with
  | nil => exact h
  | cons t taglist ih =>
    obtain ⟨hw, h0, hnum⟩ := ht t List.mem_cons_self
    simp only [List.flatMap_cons, tagToks, writeTag, cstr_of_notMem h0,
      cstr_of_notMem hnum.zero_notMem, List.append_assoc, List.cons_append, List.nil_append]
    exact .word nl [9] rfl hw (.colonWord hnum.1 (ih fun t h => ht t (.tail _ h)))

theorem guarded_writeBranch {branch : Option Revnum} (hb : ∀ b ∈ branch, IsNum b)
    (h : Guarded ts ([nl] ++ rest)) :
    Guarded (branchToks branch ++ ts) ([nl] ++ (writeBranch branch ++ rest)) := by
  have hbranch : bytes "branch\t".toList = bytes "branch".toList ++ [9] := rfl
  have hscolon : bytes ";\n".toList = [59] ++ [nl] := rfl
  cases branch with
  | none => exact h
  | some b =>
    have hnum := hb b rfl
    simp only [writeBranch, branchToks, hbranch, hscolon, cstr_of_notMem hnum.zero_notMem,
      List.append_assoc, List.cons_append, List.nil_append]
    exact .word nl [] rfl (by decide) (.word 9 [] rfl hnum.1 (.scolon h))

theorem guarded_writeStrict (strict : Bool) (h : Guarded ts ([nl] ++ rest)) :
    Guarded (strictToks strict ++ ts) (writeStrict strict ++ ([nl] ++ rest)) := by
  cases strict with
  | false => exact h
  | true => exact .word 32 [] rfl (by decide) (.scolon h)

theorem guarded_writeComment {comment : Option (List Byte)} (hc : ∀ c ∈ comment, IsRaw c)
    (h : Guarded ts ([nl] ++ rest)) :
    Guarded (commentToks comment ++ ts) ([nl] ++ (writeComment comment ++ rest)) := by
  have hcomment : bytes "comment\t@".toList = bytes "comment".toList ++ [9, 64] := rfl
  have hclose : bytes "@;\n".toList = [64] ++ ([59] ++ [nl]) := rfl
  cases comment with
  | none => exact h
  | some c =>
    simp only [writeComment, commentToks, hcomment, hclose, List.append_assoc, List.cons_append,
      List.nil_append]
    exact .word nl [] rfl (by decide) (.string 9 rfl (hc c rfl) (.scolon h))

theorem guarded_writeExpand (expand : Expand) (h : Guarded ts ([nl] ++ rest)) :
    Guarded (expandToks expand ++ ts) ([nl] ++ (writeExpand expand ++ rest)) := by
  have hexpand : bytes "expand\t@".toList = bytes "expand".toList ++ [9, 64] := rfl
  have hclose : bytes "@;\n".toList = [64] ++ ([59] ++ [nl]) := rfl
  have hraw : halve (keywordEncodeExpand expand) = keywordEncodeExpand expand ∧
      IsRaw (keywordEncodeExpand expand) := by cases expand <;> decide
  by_cases hd : expand = .default
  · rw [expandToks, writeExpand, if_pos hd, if_pos hd]
    exact h
  · have hstring := Guarded.string 9 rfl hraw.2 h.scolon
    rw [hraw.1] at hstring
    rw [expandToks, writeExpand, if_neg hd, if_neg hd, hexpand, hclose]
    simp only [List.append_assoc, List.cons_append, List.nil_append]
    exact .word nl [] rfl (by decide) hstring

/-- The admin part. -/
theorem renders_writeAdmin {adm : Admin} (ha : Printable adm) (h : Guarded ts ([nl, nl] ++ rest)) :
    Renders (adminToks adm ++ ts) (writeAdmin adm ++ rest) := by
  have hhead : bytes "head\t".toList = bytes "head".toList ++ [9] := rfl
  have hscolon : bytes ";\n".toList = [59] ++ [nl] := rfl
  have hlocks : bytes ";\nlocks;".toList = [59] ++ ([nl] ++ (bytes "locks".toList ++ [59])) := rfl
  have hoptions := guarded_writeStrict adm.strictlock
    (guarded_writeComment ha.comment (guarded_writeExpand adm.expand (h.blanks [nl] rfl)))
  simp only [writeAdmin, adminToks, hhead, hscolon, hlocks, cstr_of_notMem ha.head.zero_notMem,
    List.append_assoc, List.cons_append]
  refine Guarded.word_renders (by decide) (.word 9 [] rfl ha.head.1 (.scolon
    (guarded_writeBranch ha.branch (.word nl [] rfl (by decide) (.scolon (.word nl [] rfl (by decide)
      (guarded_writeTags ha.taglist (.scolon (.word nl [] rfl (by decide) (.scolon hoptions))))))))))

end

/-! ## A file -/

/-- What can be written and read again. -/
structure PrintableFile (adm : Admin) (desc : List Byte) (doc : RcsDoc) : Prop where
  admin : Printable { adm with head := doc.head }
  desc : IsRaw desc
  deltas : ∀ e ∈ doc.deltas, PrintableHeader e
  texts : ∀ t ∈ doc.texts, PrintableText t

section

variable {adm : Admin} {desc : List Byte} {doc : RcsDoc}

theorem renders_rcsfileWrite (h : PrintableFile adm desc doc) :
    Renders (adminToks { adm with head := doc.head } ++
      headerToks (.string (halve desc) :: doc.texts.flatMap textToks) doc.deltas)
      (rcsfileWrite adm desc doc) := by
  have hdesc : bytes "\ndesc\n@".toList = [nl] ++ (bytes "desc".toList ++ [nl, 64]) := rfl
  have hend : Guarded [] [nl] := .nil rfl
  have htexts := guarded_writeTexts h.texts hend
  rw [List.append_nil] at htexts
  simp only [rcsfileWrite, hdesc, List.append_assoc]
  refine renders_writeAdmin h.admin (guarded_writeHeaders h.deltas (.blanks [nl, nl] rfl
    (.word nl [] rfl (by decide) (.string nl rfl h.desc htexts))))

/-- The entries are imported in the same way. -/
theorem foldlM_importEntry_ok {es : List DeltaEntry} {rf rf' : RcsFile} (h : es.foldlM
      (fun rf e => rf.importdelta e.revnum e.revdate e.author e.state e.next) rf = .ok rf') :
    es.foldlM importEntry rf = .ok rf' := by
  induction es generalizing rf with
  | nil =>
    obtain rfl := Except.ok.inj h
    rfl
  | cons e es ih =>
    rw [List.foldlM_cons] at h ⊢
    cases himp : rf.importdelta e.revnum e.revdate e.author e.state e.next with
    | error err =>
      rw [himp] at h
      cases h
    | ok rf₁ =>
      rw [himp] at h
      rw [importEntry, himp]
      exact ih h

theorem getLast?_rcsfileWrite (adm : Admin) (desc : List Byte) (doc : RcsDoc) :
    (rcsfileWrite adm desc doc).getLast? = some nl := by
  rw [rcsfileWrite, List.getLast?_append_of_ne_nil _ (by decide)]
  rfl

theorem at_rcsfileWrite (h : PrintableFile adm desc doc) :
    At (adminToks { adm with head := doc.head } ++
      headerToks (.string (halve desc) :: doc.texts.flatMap textToks) doc.deltas)
      (lexAt [] (rcsfileWrite adm desc doc)) :=
  ⟨[], _, rfl, renders_rcsfileWrite h, getLast?_rcsfileWrite adm desc doc⟩

/-- What the parser does with a file of which the tokens are known. -/
theorem rcsread_of_runs {P : Rcslex → Prop} {r : Admin × List Byte × RcsFile}
    {content : List Byte} (hne : content ≠ []) (hP : P (lexAt [] content))
    (hruns : Runs P parseWhole r fun _ => True) : rcsread content = .ok r := by
  obtain ⟨lex', hlex, -⟩ := hruns _ hP
  have hnew : rcslexNew content = some (lexAt [] content) := if_neg hne
  rw [rcsread, hnew]
  simp only [hlex]
  rfl

theorem runs_parseWhole (h : PrintableFile adm desc doc) (hne : doc.deltas ≠ []) {rf : RcsFile}
    (hok : (doc.deltas.map HeaderEntry.entry).foldlM importEntry (RcsFile.empty doc.head) = .ok rf)
    (hfound : ∀ t ∈ doc.texts, (rf.getdelta t.revnum).isSome) :
    Runs (At (adminToks { adm with head := doc.head } ++
      headerToks (.string (halve desc) :: doc.texts.flatMap textToks) doc.deltas)) parseWhole
        ({ adm with head := doc.head }, desc, rf.parseDeltatexts doc.texts) fun _ => True := by
  obtain ⟨e, es, hes⟩ := List.exists_cons_of_ne_nil hne
  have hfirst : IsNum (firstWord doc.deltas) := by
    rw [hes]
    exact (h.deltas e (hes ▸ List.mem_cons_self)).revnum
  have hadmin := runs_parseAdmin
    (headerToks (.string (halve desc) :: doc.texts.flatMap textToks) doc.deltas).tail h.admin hfirst
  rw [← headerToks_eq] at hadmin
  have hstring := runs_getString (doc.texts.flatMap textToks) (halve desc)
  rw [show double (halve desc) = desc from h.desc] at hstring
  exact hadmin.bind ((runs_parseDeltas _ h.deltas hok).bind ((runs_kw _ (by decide)).bind
    (hstring.bind ((runs_parseDeltatexts h.texts hfound).bind (runs_pure fun _ h => h)))))

/-- What is written is read again. -/
theorem rcsread_rcsfileWrite (h : PrintableFile adm desc doc) (hl : doc.Layout) :
    ∃ rf, rcsread (rcsfileWrite adm desc doc) = .ok ({ adm with head := doc.head }, desc, rf) ∧
      Loaded doc rf := by
  obtain ⟨rf, hok, hfound, hloaded⟩ := exists_imported hl
  obtain ⟨e, he, -⟩ := hl.head
  have hlast := getLast?_rcsfileWrite adm desc doc
  refine ⟨_, rcsread_of_runs (fun hnil => ?_) (at_rcsfileWrite h)
    (runs_parseWhole h (List.ne_nil_of_mem he) (foldlM_importEntry_ok hok) hfound), hloaded⟩
  rw [hnil] at hlast
  cases hlast

end

end Csup.Rcsparse
