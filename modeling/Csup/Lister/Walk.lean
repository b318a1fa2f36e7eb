import Csup.Lister.Defs

/-!
# The list as a walk

The records of a collection are the entries of a tree, each directory with a record in front
of what is in it and one behind (`WellFormed`). What `lister_coll` prints of them is a walk
that leaves out what is below a directory that is not listed (`PrunedWalk`).

`collLoop_spec`: the loop from a state where nothing is pruned; `collLoop_pruned`: from one
where a directory around is.
-/

namespace Csup.Lister

open Csup.Attrs
open Csup.Status (StatusRec SrType fattrBogus)

/-- The record has the fields of its type. -/
def Filled (sr : StatusRec) : Prop :=
  match sr.type with
  | .checkoutlive => sr.tag.isSome ∧ sr.date.isSome ∧ sr.serverattr.isSome ∧ sr.clientattr.isSome
  | .checkoutdead => sr.tag.isSome ∧ sr.date.isSome ∧ sr.serverattr.isSome
  | .filelive | .filedead | .dirup => sr.clientattr.isSome
  | .dirdown => True

def Item.IsFile (it : Item) : Prop := it.sr.type ≠ .dirdown ∧ it.sr.type ≠ .dirup

/-- The records of a tree whose directories are nested `n` deep at most. -/
inductive WellFormed : Nat → List Item → Prop
  | nil {n : Nat} : WellFormed n []
  | file {n : Nat} {it : Item} {its : List Item} : it.IsFile → Filled it.sr → WellFormed n its →
    WellFormed n (it :: its)
  | dir {n : Nat} {down up : Item} {inner its : List Item} : down.sr.type = .dirdown →
    WellFormed n inner → up.sr.type = .dirup → Filled up.sr → WellFormed (n + 1) its →
    WellFormed (n + 1) (down :: (inner ++ up :: its))

/-! ## The walk -/

section

variable (env : Env)

/-- Whether a file is listed: it passes its filter, and it is no RCS file in checkout mode. -/
def Passes (it : Item) : Prop :=
  env.filefilter it.sr.file = true ∧
    ((it.sr.type = .filelive ∨ it.sr.type = .filedead) → env.coll.checkoutmode = false)

/-- What there is in the place of a directory that passes the filter. -/
def Finds (it : Item) (type : FileType) : Prop :=
  env.dirfilter it.sr.file = true ∧ ∃ fa, dirAttr env it = some fa ∧ fa.type = type

/-- The directory is filtered out or missing. -/
def Hidden (it : Item) : Prop := env.dirfilter it.sr.file = false ∨ dirAttr env it = none

/-- The lines of a tree. -/
inductive PrunedWalk : List Item → List Line → Prop
  | nil : PrunedWalk [] []
  | file {it : Item} {its : List Item} {ls : List Line} (cmd : Byte) (attr : Fattr) : it.IsFile →
    Passes env it → PrunedWalk its ls → PrunedWalk (it :: its) (.file cmd it.name attr :: ls)
  | skip {it : Item} {its : List Item} {ls : List Line} : it.IsFile → ¬Passes env it →
    PrunedWalk its ls → PrunedWalk (it :: its) ls
  | dir {down up : Item} {inner its : List Item} {ils ls : List Line} (attr : Fattr) :
    down.sr.type = .dirdown → up.sr.type = .dirup → Finds env down .directory →
    PrunedWalk inner ils → PrunedWalk its ls →
    PrunedWalk (down :: (inner ++ up :: its)) (.dirdown down.name :: (ils ++ .dirup attr :: ls))
  | hidden {n : Nat} {down up : Item} {inner its : List Item} {ls : List Line} :
    down.sr.type = .dirdown → up.sr.type = .dirup → Hidden env down → WellFormed n inner →
    PrunedWalk its ls → PrunedWalk (down :: (inner ++ up :: its)) ls
  | other {n : Nat} {type : FileType} {down up : Item} {inner its : List Item} {ls : List Line}
    (attr : Fattr) : down.sr.type = .dirdown → up.sr.type = .dirup → Finds env down type →
    type ≠ .directory → WellFormed n inner → PrunedWalk its ls →
    PrunedWalk (down :: (inner ++ up :: its)) (.file 70 down.name attr :: ls)

end

/-- Every `D` line has its `U` line, and directories are closed in the reverse order. -/
inductive Nested : List Line → Prop
  | nil : Nested []
  | file {ls : List Line} (cmd : Byte) (name : List Byte) (attr : Fattr) : Nested ls →
    Nested (.file cmd name attr :: ls)
  | dir {ils ls : List Line} (name : List Byte) (attr : Fattr) : Nested ils → Nested ls →
    Nested (.dirdown name :: (ils ++ .dirup attr :: ls))

theorem PrunedWalk.nested {env : Env} {its : List Item} {ls : List Line} (h : PrunedWalk env its ls) :
    Nested ls := by
  induction h with
  | nil => exact .nil
  | file cmd attr _ _ _ ih => exact .file cmd _ attr ih
  | skip _ _ _ ih => exact ih
  | dir attr _ _ _ _ _ ihi ih => exact .dir _ attr ihi ih
  | hidden _ _ _ _ _ ih => exact ih
  | other attr _ _ _ _ _ _ ih => exact .file 70 _ attr ih

/-! ## One record -/

/-- Nothing undefined, and what holds of a result. -/
def Safe {α : Type} (m : Except Err α) (Q : α → Prop) : Prop :=
  match m with
  | .ok a => Q a
  | .error e => e ≠ .undefined

section

variable {env : Env} {it : Item} {st : St} {α β : Type} {m : Except Err α} {P Q : α → Prop}

theorem safe_ok {a : α} (h : Q a) : Safe (.ok a) Q := h

theorem Safe.mono (h : Safe m P) (hPQ : ∀ a, P a → Q a) : Safe m Q := by
  cases m with
  | ok a => exact hPQ a h
  | error e => exact h

theorem Safe.bind {f : α → Except Err β} {R : β → Prop} (hm : Safe m P) (hf : ∀ a, P a → Safe (f a) R) :
    Safe (m >>= f) R := by
  cases m with
  | ok a => exact hf a hm
  | error e => exact hm

theorem safe_print {line : Line} : Safe (it.print line) (· = line) := by
  unfold Item.print
  split
  · exact safe_ok rfl
  · exact fun h => by cases h

theorem safe_deref {o : Option α} (h : o.isSome) : Safe (deref o) fun _ => True := by
  obtain ⟨a, rfl⟩ := Option.isSome_iff_exists.mp h
  exact safe_ok trivial

/-- A line for the file. -/
def Item.Names (it : Item) (line : Line) : Prop := ∃ cmd attr, line = .file cmd it.name attr

theorem safe_names {cmd : Byte} {m : Except Err Fattr} (h : Safe m fun _ => True) :
    Safe (return .file cmd it.name (← m)) it.Names :=
  h.bind fun attr _ => safe_ok ⟨cmd, attr, rfl⟩

theorem safe_filtered {line : Except Err Line} (h : Safe line it.Names) :
    Safe (filtered env it line) fun l =>
      (env.filefilter it.sr.file = true ∧ ∃ line, l = some line ∧ it.Names line) ∨
        (env.filefilter it.sr.file = false ∧ l = none) := by
  unfold filtered
  cases hf : env.filefilter it.sr.file with
  | false => exact safe_ok (.inr ⟨rfl, rfl⟩)
  | true =>
    refine h.bind fun line hline => safe_print.bind fun printed hprinted => safe_ok (.inl ⟨rfl, ?_⟩)
    exact ⟨printed, rfl, hprinted ▸ hline⟩

theorem safe_liveAttr (h : Filled it.sr) (ht : it.sr.type = .checkoutlive) (fa : Fattr) :
    Safe (liveAttr env it fa) fun _ => True := by
  simp only [Filled, ht] at h
  obtain ⟨htag, hdate, hserver, hclient⟩ := h
  exact (safe_deref hclient).bind fun _ _ => (safe_deref hserver).bind fun _ _ =>
    (safe_deref htag).bind fun _ _ => (safe_deref hdate).bind fun _ _ => safe_ok trivial

theorem safe_dofile (h : Filled it.sr) (ht : it.sr.type = .checkoutlive) :
    Safe (dofileAttr env it) fun _ => True := by
  unfold dofileAttr
  split
  · have hclient : it.sr.clientattr.isSome := by
      simp only [Filled, ht] at h
      exact h.2.2.2
    exact (safe_deref hclient).bind fun fa _ => safe_liveAttr h ht fa
  · split
    · exact fun h => by cases h
    · split
      · exact safe_ok trivial
      · exact safe_liveAttr h ht _

theorem safe_deadAttr (h : Filled it.sr) (ht : it.sr.type = .checkoutdead) :
    Safe (deadAttr env it) fun _ => True := by
  simp only [Filled, ht] at h
  obtain ⟨htag, hdate, hserver⟩ := h
  refine (safe_deref htag).bind fun tag _ => (safe_deref hdate).bind fun date _ => ?_
  split
  · exact safe_ok trivial
  · exact safe_deref hserver

theorem safe_dodead (h : Filled it.sr) (ht : it.sr.type = .checkoutdead) :
    Safe (dodeadLine env it) it.Names := by
  have hattr := @safe_deadAttr env it h ht
  unfold dodeadLine
  split
  · exact safe_names hattr
  · split
    · exact fun h => by cases h
    · split
      · split
        · exact safe_ok ⟨70, fattrBogus, rfl⟩
        · exact safe_names hattr
      · exact safe_names hattr

theorem safe_rcsAttr (h : it.sr.clientattr.isSome) (fa : Fattr) :
    Safe (rcsAttr env it fa) fun _ => True := by
  refine (safe_deref h).bind fun clientattr _ => ?_
  split
  · exact safe_ok trivial
  · exact safe_ok trivial

theorem safe_dorcs (h : it.sr.clientattr.isSome) (isdead : Bool) :
    Safe (dorcsLine env it isdead) it.Names := by
  unfold dorcsLine
  dsimp only
  split
  · exact (safe_deref h).bind fun fa _ => safe_names (safe_rcsAttr h fa)
  · split
    · exact safe_ok ⟨70, fattrBogus, rfl⟩
    · exact safe_names (safe_rcsAttr h _)

/-! ## One step of the loop -/

theorem ne_min {i : Int} (h : 0 ≤ i) : i ≠ -intMax - 1 := by
  simp only [intMax]
  omega

theorem St.add_none : st.add none = st := by
  rw [St.add, Option.toList_none, List.append_nil]

theorem safe_add {m : Except Err (Option Line)} {Q : Option Line → Prop} (h : Safe m Q) :
    Safe (do return st.add (← m)) fun st' => ∃ line, Q line ∧ st' = st.add line :=
  h.bind fun line hline => safe_ok ⟨line, hline, rfl⟩

/-- A file where nothing is pruned. -/
theorem safe_file (h : it.IsFile) (hf : Filled it.sr) (hd : st.depth < st.prunedepth) :
    Safe (collStep env it st) fun st' =>
      (Passes env it ∧ ∃ line, it.Names line ∧ st' = st.add (some line)) ∨
        (¬Passes env it ∧ st' = st) := by
  -- the lines of the files that are looked at
  have hline {line : Except Err Line} (hm : Safe line it.Names)
      (hmode : (it.sr.type = .filelive ∨ it.sr.type = .filedead) → env.coll.checkoutmode = false) :
      Safe (do return st.add (← filtered env it line)) fun st' =>
        (Passes env it ∧ ∃ line, it.Names line ∧ st' = st.add (some line)) ∨
          (¬Passes env it ∧ st' = st) := by
    refine (safe_add (safe_filtered hm)).mono fun st' => ?_
    rintro ⟨l, ⟨hpass, line, rfl, hname⟩ | ⟨hpass, rfl⟩, rfl⟩
    · exact .inl ⟨⟨hpass, hmode⟩, line, hname, rfl⟩
    · exact .inr ⟨fun hp => Bool.false_ne_true (hpass.symm.trans hp.1), St.add_none⟩
  obtain ⟨hdown, hup⟩ := h
  unfold collStep
  split
  · rename_i ht
    exact absurd ht hdown
  · rename_i ht
    exact absurd ht hup
  · rename_i ht
    rw [if_pos hd]
    exact hline (safe_names (safe_dofile hf ht)) fun h => by simp [ht] at h
  · rename_i ht
    rw [if_pos hd]
    exact hline (safe_dodead hf ht) fun h => by simp [ht] at h
  all_goals
    rename_i ht
    rw [if_pos hd]
    have hclient : it.sr.clientattr.isSome := by
      simp only [Filled, ht] at hf
      exact hf
    split
    · rename_i hmode
      exact safe_ok (.inr ⟨fun hp => by simp [hp.2, ht] at hmode, rfl⟩)
    · rename_i hmode
      exact hline (safe_dorcs hclient _) fun _ => by simpa using hmode

theorem file_pruned (h : it.IsFile) (hd : st.prunedepth ≤ st.depth) : collStep env it st = .ok st := by
  obtain ⟨hdown, hup⟩ := h
  have hlt : ¬st.depth < st.prunedepth := by omega
  unfold collStep
  split
  · rename_i ht
    exact absurd ht hdown
  · rename_i ht
    exact absurd ht hup
  all_goals exact if_neg hlt

/-- A directory that nothing around prunes. -/
theorem safe_down (ht : it.sr.type = .dirdown) (hd : st.depth + 1 < st.prunedepth)
    (hmax : st.prunedepth ≤ intMax) : Safe (collStep env it st) fun st' =>
      (Finds env it .directory ∧
        ∃ fa, st' = ⟨st.depth + 1, st.prunedepth, fa :: st.as, st.lines ++ [.dirdown it.name]⟩) ∨
      (Hidden env it ∧ st' = ⟨st.depth + 1, st.depth + 1, st.as, st.lines⟩) ∨
      ∃ type attr, Finds env it type ∧ type ≠ .directory ∧
        st' = ⟨st.depth + 1, st.depth + 1, st.as, st.lines ++ [.file 70 it.name attr]⟩ := by
  unfold collStep
  rw [ht]
  dsimp only
  rw [if_neg (by omega), if_pos hd]
  cases hf : env.dirfilter it.sr.file with
  | false =>
    simp only [listerDodirdown, hf, Bool.not_false, if_true]
    exact safe_ok (.inr (.inl ⟨.inl hf, by rw [St.add_none]⟩))
  | true =>
    simp only [listerDodirdown, hf, Bool.not_true, Bool.false_eq_true, if_false]
    cases hfa : dirAttr env it with
    | none => exact safe_ok (.inr (.inl ⟨.inr hfa, by rw [St.add_none]⟩))
    | some fa =>
      dsimp only
      by_cases htype : fa.type = .directory
      · rw [if_neg (not_not_intro htype), bind_assoc]
        refine safe_print.bind fun line hline => safe_ok (.inl ⟨⟨hf, fa, hfa, htype⟩, fa, ?_⟩)
        rw [hline]
        rfl
      · rw [if_pos htype, bind_assoc]
        refine safe_print.bind fun line hline => safe_ok (.inr (.inr ⟨fa.type, fattrBogus, ⟨hf, fa, hfa, rfl⟩, htype, ?_⟩))
        rw [hline]
        rfl

theorem down_pruned (ht : it.sr.type = .dirdown) (hd : st.prunedepth ≤ st.depth + 1)
    (hmax : st.depth ≠ intMax) : collStep env it st = .ok { st with depth := st.depth + 1 } := by
  unfold collStep
  rw [ht]
  dsimp only
  rw [if_neg hmax, if_neg (by omega)]

/-- The end of a directory that was listed. -/
theorem safe_up (ht : it.sr.type = .dirup) (hf : Filled it.sr) (hd : st.depth < st.prunedepth)
    (hmin : st.depth ≠ -intMax - 1) {fa : Fattr} {as : List Fattr} (has : st.as = fa :: as) :
    Safe (collStep env it st) fun st' =>
      ∃ attr, st' = ⟨st.depth - 1, st.prunedepth, as, st.lines ++ [.dirup attr]⟩ := by
  have hclient : it.sr.clientattr.isSome := by
    simp only [Filled, ht] at hf
    exact hf
  unfold collStep
  rw [ht]
  dsimp only
  rw [if_neg hmin, if_pos hd, has, listerDodirup, bind_assoc]
  refine (safe_deref hclient).bind fun fa2 _ => ?_
  rw [bind_assoc]
  refine safe_print.bind fun line hline => ?_
  subst hline
  exact safe_ok ⟨_, rfl⟩

theorem up_pruned (ht : it.sr.type = .dirup) (hd : st.prunedepth ≤ st.depth)
    (hmin : st.depth ≠ -intMax - 1) : collStep env it st = .ok
      { st with
        prunedepth := if st.depth = st.prunedepth then intMax else st.prunedepth
        depth := st.depth - 1 } := by
  unfold collStep
  rw [ht]
  dsimp only
  rw [if_neg hmin, if_neg (by omega)]
  split <;> rfl

end

/-! ## The stack -/

def downs (ls : List Line) : Nat := ls.countP fun l => match l with | .dirdown _ => true | _ => false

def ups (ls : List Line) : Nat := ls.countP fun l => match l with | .dirup _ => true | _ => false

theorem downs_add (ls : List Line) (l : Line) : downs (ls ++ [l]) = downs ls + downs [l] := List.countP_append

theorem ups_add (ls : List Line) (l : Line) : ups (ls ++ [l]) = ups ls + ups [l] := List.countP_append

/-- The stack has an entry for each directory that was opened and not closed. -/
structure Stacked (st : St) : Prop where
  stack : st.as.length + ups st.lines = downs st.lines
  prune : st.prunedepth ≤ intMax

theorem stacked_init : Stacked .init := ⟨rfl, Int.le_refl _⟩

theorem Stacked.step {env : Env} {it : Item} {st st' : St} (h : Stacked st) (hf : Filled it.sr)
    (hs : collStep env it st = .ok st') : Stacked st' := by
  obtain ⟨hstack, hprune⟩ := h
  by_cases hdown : it.sr.type = .dirdown
  · have hmax : st.depth ≠ intMax := by
      intro hmax
      simp [collStep, hdown, hmax] at hs
    by_cases hd : st.depth + 1 < st.prunedepth
    · have hspec := @safe_down env it st hdown hd hprune
      rw [hs] at hspec
      rcases hspec with ⟨-, fa, rfl⟩ | ⟨-, rfl⟩ | ⟨type, attr, -, -, rfl⟩
      · refine ⟨?_, hprune⟩
        have hu : ups [.dirdown it.name] = 0 := rfl
        have hd : downs [.dirdown it.name] = 1 := rfl
        rw [ups_add, downs_add, List.length_cons]
        omega
      · exact ⟨hstack, by show st.depth + 1 ≤ intMax; omega⟩
      · refine ⟨?_, by show st.depth + 1 ≤ intMax; omega⟩
        rw [ups_add, downs_add]
        exact hstack
    · rw [down_pruned hdown (by omega) hmax] at hs
      cases hs
      exact ⟨hstack, hprune⟩
  by_cases hup : it.sr.type = .dirup
  · have hmin : st.depth ≠ -intMax - 1 := by
      intro hmin
      simp [collStep, hup, hmin] at hs
    by_cases hd : st.depth < st.prunedepth
    · cases has : st.as with
      | nil =>
        simp [collStep, hup, hmin, hd, has, listerDodirup, bind, Except.bind] at hs
      | cons fa as =>
        have hspec := @safe_up env it st hup hf hd hmin fa as has
        rw [hs] at hspec
        obtain ⟨attr, rfl⟩ := hspec
        refine ⟨?_, hprune⟩
        have hu : ups [.dirup attr] = 1 := rfl
        have hd : downs [.dirup attr] = 0 := rfl
        rw [has, List.length_cons] at hstack
        show as.length + ups (st.lines ++ [.dirup attr]) = downs (st.lines ++ [.dirup attr])
        rw [ups_add, downs_add]
        omega
    · rw [up_pruned hup (by omega) hmin] at hs
      cases hs
      refine ⟨hstack, ?_⟩
      show (if st.depth = st.prunedepth then intMax else st.prunedepth) ≤ intMax
      split <;> omega
  by_cases hd : st.depth < st.prunedepth
  · have hfile := @safe_file env it st ⟨hdown, hup⟩ hf hd
    rw [hs] at hfile
    rcases hfile with ⟨-, line, ⟨cmd, attr, rfl⟩, rfl⟩ | ⟨-, rfl⟩
    · refine ⟨?_, hprune⟩
      show st.as.length + ups (st.lines ++ [.file cmd it.name attr]) = _
      rw [ups_add, St.add, Option.toList_some, downs_add]
      exact hstack
    · exact ⟨hstack, hprune⟩
  · rw [file_pruned ⟨hdown, hup⟩ (by omega)] at hs
    cases hs
    exact ⟨hstack, hprune⟩

/-! ## The loop -/

section

variable {env : Env} {st : St} {n : Nat} {its : List Item}

theorem collLoop_append (env : Env) (st : St) (as bs : List Item) :
    collLoop env st (as ++ bs) = collLoop env st as >>= fun st => collLoop env st bs :=
  List.foldlM_append

theorem collLoop_cons (env : Env) (st : St) (it : Item) (its : List Item) :
    collLoop env st (it :: its) = collStep env it st >>= fun st => collLoop env st its :=
  List.foldlM_cons

/-- Below a directory that is pruned. -/
theorem collLoop_pruned (h : WellFormed n its) (hd : st.prunedepth ≤ st.depth) (h0 : 0 ≤ st.depth)
    (hmax : st.depth + n ≤ intMax) : collLoop env st its = .ok st := by
  induction h generalizing st with
  | nil => rfl
  | file hfile _ _ ih =>
    rw [collLoop_cons, file_pruned hfile hd]
    exact ih hd h0 hmax
  | @dir n down up inner its hdown _ hup _ _ ihi ih =>
    have hinner : collLoop env { st with depth := st.depth + 1 } inner = .ok { st with depth := st.depth + 1 } :=
      ihi (by show st.prunedepth ≤ st.depth + 1; omega) (by show 0 ≤ st.depth + 1; omega)
        (by show st.depth + 1 + n ≤ intMax; push_cast at hmax; omega)
    have hback : collStep env up { st with depth := st.depth + 1 } = .ok st := by
      rw [up_pruned hup (by show st.prunedepth ≤ st.depth + 1; omega) (ne_min (by show 0 ≤ st.depth + 1; omega))]
      dsimp only
      rw [if_neg (by omega), Int.add_sub_cancel]
    rw [collLoop_cons, down_pruned hdown (by omega) (by push_cast at hmax; omega)]
    show collLoop env { st with depth := st.depth + 1 } (inner ++ up :: its) = .ok st
    rw [collLoop_append, hinner]
    show collLoop env { st with depth := st.depth + 1 } (up :: its) = .ok st
    rw [collLoop_cons, hback]
    exact ih hd h0 hmax

/-- Behind the record of a directory that is pruned there, the rest of it does nothing. -/
theorem collLoop_skip {up : Item} {inner : List Item} (h : WellFormed n inner) (hup : up.sr.type = .dirup)
    (hd : st.prunedepth = intMax) (h0 : 0 ≤ st.depth) (hmax : st.depth + 1 + n ≤ intMax) (ls : List Line) :
    collLoop env ⟨st.depth + 1, st.depth + 1, st.as, ls⟩ (inner ++ up :: its) =
      collLoop env { st with lines := ls } its := by
  rw [collLoop_append, collLoop_pruned h (Int.le_refl _) (by show 0 ≤ st.depth + 1; omega) hmax]
  show collLoop env ⟨st.depth + 1, st.depth + 1, st.as, ls⟩ (up :: its) = _
  rw [collLoop_cons, up_pruned hup (Int.le_refl _) (ne_min (by show 0 ≤ st.depth + 1; omega))]
  dsimp only
  rw [if_pos rfl, Int.add_sub_cancel, ← hd]
  rfl

/-- The loop where nothing is pruned. -/
theorem collLoop_spec (h : WellFormed n its) (hd : st.prunedepth = intMax) (h0 : 0 ≤ st.depth)
    (hmax : st.depth + n < intMax) : Safe (collLoop env st its) fun st' =>
      ∃ ls, PrunedWalk env its ls ∧ st' = { st with lines := st.lines ++ ls } := by
  induction h generalizing st with
  | nil => exact safe_ok ⟨[], .nil, by rw [List.append_nil]⟩
  | @file n it its hfile hf _ ih =>
    rw [collLoop_cons]
    refine (safe_file hfile hf (by omega)).bind fun st' => ?_
    rintro (⟨hpass, line, ⟨cmd, attr, rfl⟩, rfl⟩ | ⟨hpass, rfl⟩)
    · refine (ih (by exact hd) (by exact h0) (by exact hmax)).mono fun st' => ?_
      rintro ⟨ls, hwalk, rfl⟩
      exact ⟨_, .file cmd attr hfile hpass hwalk, by simp [St.add]⟩
    · refine (ih hd h0 hmax).mono fun st' => ?_
      rintro ⟨ls, hwalk, rfl⟩
      exact ⟨ls, .skip hfile hpass hwalk, rfl⟩
  | @dir n down up inner its hdown hinner hup hf _ ihi ih =>
    push_cast at hmax
    rw [collLoop_cons]
    refine (safe_down hdown (by omega) (by omega)).bind fun st' => ?_
    rintro (⟨hfind, fa, rfl⟩ | ⟨hhid, rfl⟩ | ⟨type, attr, hfind, htype, rfl⟩)
    · rw [collLoop_append]
      refine (ihi (by exact hd) (by show 0 ≤ st.depth + 1; omega)
        (by show st.depth + 1 + n < intMax; omega)).bind fun st1 => ?_
      rintro ⟨ils, hwalki, rfl⟩
      rw [collLoop_cons]
      refine (safe_up hup hf (by show st.depth + 1 < st.prunedepth; omega)
        (ne_min (by show 0 ≤ st.depth + 1; omega)) rfl).bind fun st2 => ?_
      rintro ⟨attr, rfl⟩
      refine (ih (by exact hd) (by show 0 ≤ st.depth + 1 - 1; omega)
        (by show st.depth + 1 - 1 + ((n + 1 : Nat) : Int) < intMax; push_cast; omega)).mono fun st3 => ?_
      rintro ⟨ls, hwalk, rfl⟩
      exact ⟨_, .dir attr hdown hup hfind hwalki hwalk, by simp⟩
    · rw [collLoop_skip hinner hup hd h0 (by omega)]
      refine (ih (by exact hd) (by exact h0) (by push_cast; exact hmax)).mono fun st' => ?_
      rintro ⟨ls, hwalk, rfl⟩
      exact ⟨ls, .hidden hdown hup hhid hinner hwalk, rfl⟩
    · rw [collLoop_skip hinner hup hd h0 (by omega)]
      refine (ih (by exact hd) (by exact h0) (by push_cast; exact hmax)).mono fun st' => ?_
      rintro ⟨ls, hwalk, rfl⟩
      exact ⟨_, .other attr hdown hup hfind htype hinner hwalk, by simp⟩

theorem WellFormed.filled (h : WellFormed n its) : ∀ it ∈ its, Filled it.sr := by
  induction h with
  | nil => exact fun it hit => by cases hit
  | file _ hf _ ih => exact List.forall_mem_cons.mpr ⟨hf, ih⟩
  | dir hdown _ _ hf _ ihi ih =>
    refine List.forall_mem_cons.mpr ⟨by simp [Filled, hdown], fun it hit => ?_⟩
    rcases List.mem_append.mp hit with hit | hit
    · exact ihi it hit
    · rcases List.mem_cons.mp hit with rfl | hit
      · exact hf
      · exact ih it hit

/-- The stack in the course of the loop. -/
theorem Stacked.loop {st' : St} (h : Stacked st) (hf : ∀ it ∈ its, Filled it.sr)
    (hs : collLoop env st its = .ok st') : Stacked st' := by
  induction its generalizing st with
  | nil =>
    cases hs
    exact h
  | cons it its ih =>
    obtain ⟨hit, hits⟩ := List.forall_mem_cons.mp hf
    rw [collLoop_cons] at hs
    cases hstep : collStep env it st with
    | error e =>
      rw [hstep] at hs
      cases hs
    | ok st1 =>
      rw [hstep] at hs
      exact ih (h.step hit hstep) hits hs

/-- The stack is freed without a pop of an empty one. -/
theorem freeStack_isSome (i : Nat) (as : List Fattr) : (freeStack i as).isSome := by
  fun_induction freeStack i as with
  | case1 i h => exact absurd h (Nat.not_lt_zero i)
  | case2 i fa as h ih => exact ih
  | case3 i as h => rfl

/-- The list of a collection is a pruned walk. -/
theorem listerColl_prunedWalk (h : WellFormed n its) (hn : n < 2147483647) (eof printf : Bool) :
    listerColl env its eof printf ≠ .error .undefined ∧
    (∀ lines, listerColl env its eof printf = .ok lines →
      ∃ ls, lines = ls ++ [.dot] ∧ PrunedWalk env its ls ∧ Nested ls) ∧
    (∀ front back st, its = front ++ back → collLoop env .init front = .ok st →
      st.as.length + ups st.lines = downs st.lines) ∧
    ∀ as, (freeStack 0 as).isSome := by
  have hloop : Safe (collLoop env .init its) fun st' =>
      ∃ ls, PrunedWalk env its ls ∧ st' = { St.init with lines := [] ++ ls } :=
    collLoop_spec h rfl (Int.le_refl _) (by show 0 + (n : Int) < 2147483647; omega)
  have hcoll : Safe (listerColl env its eof printf) fun lines =>
      ∃ ls, lines = ls ++ [.dot] ∧ PrunedWalk env its ls ∧ Nested ls := by
    refine hloop.bind fun st' => ?_
    rintro ⟨ls, hwalk, rfl⟩
    split
    · exact fun h => by cases h
    · split
      · exact fun h => by cases h
      · exact safe_ok ⟨ls, rfl, hwalk, hwalk.nested⟩
  refine ⟨fun hu => ?_, fun lines hlines => ?_, fun front back st hits hst => ?_, freeStack_isSome 0⟩
  · rw [hu] at hcoll
    exact hcoll rfl
  · rw [hlines] at hcoll
    exact hcoll
  · have hf : ∀ it ∈ front, Filled it.sr := fun it hit => h.filled it (hits ▸ List.mem_append_left _ hit)
    exact (stacked_init.loop hf hst).stack

end

/-! ## Records that yield no line -/

/-- A collection whose status file is trusted, and whose filters let everything pass. -/
def openEnv (checkoutmode truststatusfile : Bool) : Env :=
  ⟨⟨[], [], [], 0, checkoutmode, truststatusfile, false, false⟩, false, fun _ => true, fun _ => true⟩

/-- A record with a name, of a file that is missing. -/
def missing (type : SrType) (file : List Byte) : Item :=
  ⟨⟨type, file, some [], some [], none, none, some fattrBogus, some fattrBogus⟩, fun _ => none, fun _ => none, true⟩

theorem listerColl_prunedWalk_dir :
    ∃ lines, listerColl (openEnv false true) [missing .dirdown [97], missing .filelive [98], missing .dirup [97]]
        true true = .ok lines ∧
      ∃ ls, lines = ls ++ [.dot] ∧
        PrunedWalk (openEnv false true) [missing .dirdown [97], missing .filelive [98], missing .dirup [97]] ls ∧
        Nested ls := by
  have hwf : WellFormed 1 [missing .dirdown [97], missing .filelive [98], missing .dirup [97]] :=
    @WellFormed.dir 0 _ _ [missing .filelive [98]] [] rfl (.file ⟨by decide, by decide⟩ rfl .nil) rfl rfl .nil
  exact ⟨_, rfl, (listerColl_prunedWalk hwf (by decide) true true).2.1 _ rfl⟩

/-- A state with `k` directories open. -/
def opened (depth : Int) (k : Nat) : St :=
  ⟨depth, intMax, List.replicate k (fattrNewOf false .directory none), List.replicate k (.dirdown [97])⟩

/-- Directories in each other, as long as the counter stays below its bound. -/
theorem collLoop_downs {k : Nat} (hk : k < 2147483647) :
    collLoop (openEnv false true) .init (List.replicate k (missing .dirdown [97])) = .ok (opened k k) := by
  induction k with
  | zero => rfl
  | succ k ih =>
    have hstep : collStep (openEnv false true) (missing .dirdown [97]) (opened k k) =
        .ok ⟨k + 1, intMax, fattrNewOf false .directory none :: (opened k k).as,
          (opened k k).lines ++ [.dirdown [97]]⟩ := by
      show (if (k : Int) = intMax then _ else if (k : Int) + 1 < intMax then _ else _) = _
      rw [if_neg (by simp only [intMax]; omega), if_pos (by simp only [intMax]; omega)]
      rfl
    rw [List.replicate_succ', collLoop_append, ih (by omega)]
    show collLoop (openEnv false true) (opened k k) [missing .dirdown [97]] = _
    have hlines : List.replicate (k + 1) (Line.dirdown [97]) = List.replicate k (.dirdown [97]) ++ [.dirdown [97]] :=
      List.replicate_succ'
    rw [collLoop_cons, hstep, opened, opened, hlines]
    push_cast
    rfl

/-- The directory at which the counter reaches its bound is not listed. -/
theorem collLoop_deep {k : Nat} (hk : k + 1 = 2147483647) :
    collLoop (openEnv false true) .init (List.replicate (k + 1) (missing .dirdown [97])) =
      .ok (opened (k + 1) k) := by
  have hmax : ((k : Int) + 1) = intMax := by
    simp only [intMax]
    omega
  rw [List.replicate_succ', collLoop_append, collLoop_downs (by omega)]
  show collLoop (openEnv false true) (opened k k) [missing .dirdown [97]] = _
  rw [collLoop_cons, down_pruned rfl (by show intMax ≤ (k : Int) + 1; omega) (by show (k : Int) ≠ intMax; omega)]
  rfl

/-- Records that pass their filters and yield no line: an RCS file in checkout mode, a directory
that is missing, and one in which the counter of the directories reaches its bound. -/
theorem not_every_line :
    listerColl (openEnv true true) [missing .filelive [98]] true true = .ok [.dot] ∧
    listerColl (openEnv false false) [missing .dirdown [97], missing .dirup [97]] true true = .ok [.dot] ∧
    ∃ k, k + 1 = 2147483647 ∧
      collLoop (openEnv false true) .init (List.replicate (k + 1) (missing .dirdown [97])) =
        .ok (opened (k + 1) k) :=
  ⟨rfl, rfl, 2147483646, rfl, collLoop_deep rfl⟩

end Csup.Lister
