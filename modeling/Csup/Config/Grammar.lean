import Csup.Config.Defs

/-!
# The lines of a supfile

What the grammar accepts is lines (`Stmt`): `*default` or the name of a collection, with options
behind it. A line need not be one in the file.

* `yyparse_lines`: the lines are carried out one after the other;
* `exists_lines`: nothing else is accepted.
-/

namespace Csup.Config

/-- An option with its value, which a boolean has not got. -/
abbrev Opt := Pt × List Byte

def Pt.isBoolean : Pt → Bool
  | .compress => true
  | .delete => true
  | .useRelSuffix => true
  | _ => false

def optTokens (o : Opt) : List Token :=
  if o.1.isBoolean then [.boolean o.1] else [.name o.1, .equal, .string o.2]

structure Stmt where
  head : Head
  opts : List Opt

def Head.token : Head → Token
  | .default => .default
  | .coll name => .string name

def Stmt.tokens (l : Stmt) : List Token := l.head.token :: l.opts.flatMap optTokens

def setopts (coll : Coll) (opts : List Opt) : Except Exit Coll :=
  opts.foldlM (fun coll o => collSetopt coll o.1 o.2) coll

section

variable (ovcoll : Coll) (ovmask : BitVec 32)

/-- A line with the options that are still to be read. -/
def runLine (head : Head) (opts : List Opt) (g : Globals) : Except Exit Globals := do
  let coll ← setopts g.curColl opts
  reduce ovcoll ovmask { g with curColl := coll } head

def runLines (g : Globals) (lines : List Stmt) : Except Exit Globals :=
  lines.foldlM (fun g l => runLine ovcoll ovmask l.head l.opts g) g

theorem setopts_cons (coll : Coll) (o : Opt) (opts : List Opt) :
    setopts coll (o :: opts) = collSetopt coll o.1 o.2 >>= (setopts · opts) := rfl

theorem runLines_cons (g : Globals) (l : Stmt) (lines : List Stmt) :
    runLines ovcoll ovmask g (l :: lines) =
      runLine ovcoll ovmask l.head l.opts g >>= (runLines ovcoll ovmask · lines) := rfl

/-- The value of a boolean is not looked at. -/
theorem collSetopt_boolean {i : Pt} (h : i.isBoolean = true) (coll : Coll) (v v' : List Byte) :
    collSetopt coll i v = collSetopt coll i v' := by
  cases i <;> first | rfl | cases h

theorem yyparse_opt (head : Head) (o : Opt) (g : Globals) (ts : List Token) :
    yyparse ovcoll ovmask (some head) g (optTokens o ++ ts) = collSetopt g.curColl o.1 o.2 >>=
      fun coll => yyparse ovcoll ovmask (some head) { g with curColl := coll } ts := by
  rw [optTokens]
  split
  · rename_i h
    rw [collSetopt_boolean h g.curColl o.2 []]
    rfl
  · rfl

/-- A token that begins a line ends the one before it. -/
theorem yyparse_head (head head' : Head) (g : Globals) (ts : List Token) :
    yyparse ovcoll ovmask (some head) g (head'.token :: ts) = reduce ovcoll ovmask g head >>=
      fun g => yyparse ovcoll ovmask (some head') g ts := by
  cases head' <;> rfl

/-- The options of a line. -/
theorem yyparse_opts (head : Head) (opts : List Opt) (g : Globals) (ts : List Token) :
    yyparse ovcoll ovmask (some head) g (opts.flatMap optTokens ++ ts) = setopts g.curColl opts >>=
      fun coll => yyparse ovcoll ovmask (some head) { g with curColl := coll } ts := by
  induction opts generalizing g with
  | nil => rfl
  | cons o opts ih =>
    rw [List.flatMap_cons, List.append_assoc, yyparse_opt, setopts_cons, bind_assoc]
    exact congrArg (_ >>= ·) (funext fun coll => ih _)

theorem yyparse_line (head : Head) (opts : List Opt) (lines : List Stmt) (g : Globals) :
    yyparse ovcoll ovmask (some head) g (opts.flatMap optTokens ++ lines.flatMap Stmt.tokens) =
      runLine ovcoll ovmask head opts g >>= (runLines ovcoll ovmask · lines) := by
  induction lines generalizing head opts g with
  | nil =>
    rw [yyparse_opts, runLine, bind_assoc]
    refine congrArg (_ >>= ·) (funext fun coll => ?_)
    exact (bind_pure _).symm
  | cons l lines ih =>
    rw [yyparse_opts, runLine, bind_assoc, List.flatMap_cons, Stmt.tokens, List.cons_append]
    refine congrArg (_ >>= ·) (funext fun coll => ?_)
    rw [yyparse_head]
    exact congrArg (_ >>= ·) (funext fun g => ih l.head l.opts g)

/-- The lines of a supfile. -/
theorem yyparse_lines (lines : List Stmt) (g : Globals) :
    yyparse ovcoll ovmask none g (lines.flatMap Stmt.tokens) = runLines ovcoll ovmask g lines := by
  cases lines with
  | nil => rfl
  | cons l lines =>
    obtain ⟨head, opts⟩ := l
    rw [List.flatMap_cons, Stmt.tokens, List.cons_append]
    cases head with
    | default => exact yyparse_line ovcoll ovmask .default opts lines g
    | coll name => exact yyparse_line ovcoll ovmask (.coll name) opts lines g

/-! ## Nothing else is accepted -/

/-- The keywords are what the scanner says they are. -/
def Token.Fits : Token → Prop
  | .boolean i => i.isBoolean = true
  | .name i => i.isBoolean = false
  | _ => True

omit ovcoll ovmask in
theorem exists_bind {α β : Type} {m : Except Exit α} {f : α → Except Exit β} {b : β}
    (h : m >>= f = .ok b) : ∃ a, m = .ok a ∧ f a = .ok b := by
  cases m with
  | error e => cases h
  | ok a => exact ⟨a, rfl, h⟩

/-- What is accepted is the options of a line that has begun, and lines. -/
theorem exists_opts {head : Option Head} {g g' : Globals} {ts : List Token}
    (h : yyparse ovcoll ovmask head g ts = .ok g') (hfits : ∀ t ∈ ts, t.Fits) :
    ∃ (opts : List Opt) (lines : List Stmt), (head = none → opts = []) ∧
      ts = opts.flatMap optTokens ++ lines.flatMap Stmt.tokens := by
  induction head, g, ts using yyparse.induct with
  | case1 g => exact ⟨[], [], fun _ => rfl, rfl⟩
  | case2 head g => exact ⟨[], [], fun _ => rfl, rfl⟩
  | case3 g ts ih =>
    obtain ⟨opts, lines, -, rfl⟩ := ih h fun t ht => hfits t (.tail _ ht)
    exact ⟨[], ⟨.default, opts⟩ :: lines, fun _ => rfl, rfl⟩
  | case4 g name ts ih =>
    obtain ⟨opts, lines, -, rfl⟩ := ih h fun t ht => hfits t (.tail _ ht)
    exact ⟨[], ⟨.coll name, opts⟩ :: lines, fun _ => rfl, rfl⟩
  | case5 g t ts hdef hstr =>
    cases t with
    | default => exact absurd rfl hdef
    | string name => exact absurd rfl (hstr name)
    | _ => cases h
  | case6 head g i ts ih =>
    obtain ⟨coll, -, h⟩ := exists_bind h
    obtain ⟨opts, lines, -, rfl⟩ := ih coll h fun t ht => hfits t (.tail _ ht)
    have hi : i.isBoolean = true := hfits _ List.mem_cons_self
    refine ⟨(i, []) :: opts, lines, (fun hn => by cases hn), ?_⟩
    rw [List.flatMap_cons, optTokens, if_pos hi]
    rfl
  | case7 head g i value ts ih =>
    obtain ⟨coll, -, h⟩ := exists_bind h
    obtain ⟨opts, lines, -, rfl⟩ := ih coll h fun t ht => hfits t (.tail _ (.tail _ (.tail _ ht)))
    have hi : i.isBoolean = false := hfits _ List.mem_cons_self
    refine ⟨(i, value) :: opts, lines, (fun hn => by cases hn), ?_⟩
    rw [List.flatMap_cons, optTokens, if_neg (by simp [hi])]
    rfl
  | case8 head g i ts hno =>
    rw [yyparse] at h
    · cases h
    · exact hno
  | case9 head g ts ih =>
    obtain ⟨g1, -, h⟩ := exists_bind h
    obtain ⟨opts, lines, -, rfl⟩ := ih g1 h fun t ht => hfits t (.tail _ ht)
    exact ⟨[], ⟨.default, opts⟩ :: lines, fun _ => rfl, rfl⟩
  | case10 head g name ts ih =>
    obtain ⟨g1, -, h⟩ := exists_bind h
    obtain ⟨opts, lines, -, rfl⟩ := ih g1 h fun t ht => hfits t (.tail _ ht)
    exact ⟨[], ⟨.coll name, opts⟩ :: lines, fun _ => rfl, rfl⟩
  | case11 head g ts =>
    obtain ⟨g1, -, h⟩ := exists_bind h
    cases h

theorem exists_lines {g g' : Globals} {ts : List Token} (h : yyparse ovcoll ovmask none g ts = .ok g')
    (hfits : ∀ t ∈ ts, t.Fits) : ∃ lines, ts = lines.flatMap Stmt.tokens ∧
      runLines ovcoll ovmask g lines = .ok g' := by
  obtain ⟨opts, lines, hopts, rfl⟩ := exists_opts ovcoll ovmask h hfits
  obtain rfl := hopts rfl
  exact ⟨lines, rfl, (yyparse_lines ovcoll ovmask lines g).symm.trans h⟩

omit ovcoll ovmask in
theorem fits_wordToken (w : List Byte) : (wordToken w).Fits := by
  rw [wordToken]
  cases hfind : keywords.find? (·.1 = w) with
  | none => trivial
  | some p =>
    have hall : ∀ p ∈ keywords, p.2 = .boolean .compress ∨ p.2 = .boolean .delete ∨
        p.2 = .boolean .useRelSuffix ∨ ∃ i, p.2 = .name i ∧ i.isBoolean = false := by
      simp [keywords, Pt.isBoolean]
    show p.2.Fits
    rcases hall p (List.mem_of_find?_eq_some hfind) with heq | heq | heq | ⟨i, heq, hi⟩ <;> rw [heq]
    · rfl
    · rfl
    · rfl
    · exact hi

omit ovcoll ovmask in
/-- The tokens of the scanner. -/
theorem fits_tokens (s : List Byte) : ∀ t ∈ tokens s, t.Fits := by
  induction s using tokens.induct with
  | case1 =>
    rw [tokens]
    exact fun t ht => absurd ht (List.not_mem_nil)
  | case2 s ih =>
    rw [tokens, if_pos rfl]
    exact ih
  | case3 b s hb hd ih =>
    rw [tokens, if_neg hb, if_pos hd, List.forall_mem_cons]
    exact ⟨trivial, ih⟩
  | case4 s hb hd ih =>
    rw [tokens, if_neg hb, if_neg hd, if_pos rfl, List.forall_mem_cons]
    exact ⟨trivial, ih⟩
  | case5 b s hb hd he hw ih =>
    rw [tokens, if_neg hb, if_neg hd, if_neg he, if_pos hw, List.forall_mem_cons]
    exact ⟨fits_wordToken _, ih⟩
  | case6 b s hb hd he hw ih =>
    rw [tokens, if_neg hb, if_neg hd, if_neg he, if_neg hw]
    exact ih

end

end Csup.Config
