import Csup.Diff.Apply

/-!
# `diff_reverse` inverts `diff_apply`

`diff_reverse` keeps one entry for each hunk of the script. With `o` lines of
the original and `n` lines of the result behind, the entry of a hunk `h` has
the offset `h.pos - n'`, `n' = n + (h.pos - o)`, and the key `n' + |h.add|`; the
hunks being separated, the keys increase and every insertion is one at the end.

* `reverseLoop_cmdLines`: the entries after the first loop;
* `diffWriteReverse_entries`: what is written from them is the text of the
  reverse script;
* `diffReverse_render`: the call;
* `diffApply_diffReverse`: applied to the result, the reverse script gives the
  original.
-/

namespace Csup.Diff

open Csup.Framework Csup.Keyword

/-- The largest `int`. -/
def intMax : Nat := 2147483647

theorem wrapInt_of_le {x : Int} (h1 : -(intMax : Int) ≤ x) (h2 : x ≤ intMax) : wrapInt x = x := by
  simp only [intMax] at h1 h2
  simp only [wrapInt]
  omega

/-! ## The list of entries -/

/-- The entry of the hunk `h`, in front of which the result has `n` lines. -/
structure IsEntry (h : Hunk Line) (n : Nat) (e : EditCmd) : Prop where
  key_eq : e.key = n + h.add.length
  havetext_eq : e.havetext = true ↔ h.add ≠ []
  count_eq : e.count = h.add.length
  offset_eq : e.offset = (h.pos : Int) - n

/-- The entries of the hunks `hs`, and the one at the end. -/
def Entries : Nat → Nat → List (Hunk Line) → List EditCmd → Prop
  | o, n, [], es => ∃ e, es = [e] ∧ e.offset = (o : Int) - n
  | o, n, h :: hs, es => ∃ e es', es = e :: es' ∧ IsEntry h (n + (h.pos - o)) e ∧
      Entries h.stop (n + (h.pos - o) + h.add.length) hs es'

theorem Entries.exists_cons {o n : Nat} {hs : List (Hunk Line)} {es : List EditCmd}
    (h : Entries o n hs es) (ho : ∀ k ∈ hs.head?, o ≤ k.pos) :
    ∃ e es', es = e :: es' ∧ e.offset = (o : Int) - n := by
  cases hs with
  | nil => obtain ⟨e, rfl, he⟩ := h; exact ⟨e, [], rfl, he⟩
  | cons k hs =>
    obtain ⟨e, es', rfl, he, -⟩ := h
    refine ⟨e, es', rfl, ?_⟩
    have := ho k (by simp)
    rw [he.offset_eq]
    omega

/-- An entry whose key is not below those of the list is put at its end. -/
theorem diffInsertEdit_of_le {ds : List EditCmd} {ec : EditCmd} (h : ∀ e ∈ ds, e.key ≤ ec.key) :
    diffInsertEdit ds ec = ds ++ [ec] := by
  induction ds with
  | nil => rfl
  | cons e ds ih =>
    rw [diffInsertEdit, if_neg (Int.not_lt.mpr (h e (by simp))), ih fun k hk => h k (by simp [hk])]
    rfl

/-- The entries of the commands read so far. -/
def ReverseSt.entries (st : ReverseSt) : List EditCmd := diffInsertEdit? st.ds st.delec

/-! ## The first loop -/

theorem reverseLoop_pending (add rest : List Line) (st : ReverseSt) :
    reverseLoop (add ++ rest) add.length st = reverseLoop rest 0 st := by
  induction add with
  | nil => rfl
  | cons l add ih => simpa [reverseLoop] using ih

theorem reverseLoop_add {st : ReverseSt} {p : Nat} {add rest : List Line} (hne : add ≠ [])
    (hp : (p : Int) ≤ longMax) (hm : (add.length : Int) ≤ longMax) (ha : st.ec.lasta ≤ p) :
    reverseLoop (printCmd 97 (p : Nat) (add.length : Nat) :: (add ++ rest)) 0 st =
      reverseLoop rest 0 (st.add (addCmd st.ec p add.length)) := by
  have hcmd := diffGeteditcmd_add hp (List.length_pos_of_ne_nil hne) hm ha
  simp only [reverseLoop, hcmd]
  exact reverseLoop_pending add rest _

theorem reverseLoop_del {st : ReverseSt} {p n : Nat} {rest : List Line} (hn : 0 < n)
    (hp : ((p + 1 : Nat) : Int) ≤ longMax) (hm : (n : Int) ≤ longMax)
    (ha : st.ec.lasta ≤ (p + 1 : Nat)) (hd : st.ec.lastd ≤ (p + 1 : Nat)) :
    reverseLoop (printCmd 100 ((p + 1 : Nat) : Int) (n : Nat) :: rest) 0 st =
      reverseLoop rest 0 (st.del (delCmd st.ec (p + 1) n)) := by
  have hcmd := diffGeteditcmd_del hp hn hm ha hd
  simp only [reverseLoop, hcmd]
  rfl

/-- What the commands read so far have left: the offset after `o` lines of the
original and `n` lines of the result, and entries `es` with keys below `k`. -/
structure ReverseSt.At (st : ReverseSt) (o n : Nat) (es : List EditCmd) (k : Int) : Prop where
  offset_eq : st.offset = (o : Int) - n
  entries_eq : st.entries = es
  key_lt : ∀ e ∈ es, e.key < k

/-- A `d` command. Its entry is the one of a hunk without added lines. -/
theorem ReverseSt.At.del {st : ReverseSt} {o n p d : Nat} {es : List EditCmd}
    (h : st.At o n es (n + (p - o) : Nat)) (ho : o ≤ p) (hp : p + d ≤ intMax)
    (hn : n + (p - o) ≤ intMax) :
    ∃ e, (st.del (delCmd st.ec (p + 1) d)).delec = some e ∧
      (st.del (delCmd st.ec (p + 1) d)).ds = es ∧
      IsEntry ⟨p, d, []⟩ (n + (p - o)) e ∧
      (st.del (delCmd st.ec (p + 1) d)).At (p + d) (n + (p - o)) (es ++ [e])
        (n + (p - o) + 1 : Nat) := by
  obtain ⟨hoff, hes, hkey⟩ := h
  have hent : IsEntry ⟨p, d, []⟩ (n + (p - o)) { delCmd st.ec (p + 1) d with
      key := ((p + 1 : Nat) : Int) - 1 - st.offset, offset := st.offset, count := 0,
      havetext := false } := by
    refine ⟨?_, by simp, by simp, ?_⟩
    · simp only [List.length_nil]; omega
    · simp only; omega
  refine ⟨_, rfl, hes, hent, ?_, ?_, ?_⟩
  · simp only [ReverseSt.del, delCmd]
    rw [wrapInt_of_le (by omega) (by omega)]
    omega
  · show diffInsertEdit (diffInsertEdit? st.ds st.delec) _ = _
    rw [show diffInsertEdit? st.ds st.delec = es from hes]
    refine diffInsertEdit_of_le fun e he => ?_
    have h1 := hkey e he
    have h2 := hent.key_eq
    simp only [List.length_nil] at h2
    simp only [delCmd] at h2 ⊢
    omega
  · intro e he
    rcases List.mem_append.mp he with he | he
    · have := hkey e he; omega
    · rw [List.mem_singleton.mp he]
      have h2 := hent.key_eq
      simp only [List.length_nil] at h2
      simp only [delCmd] at h2 ⊢
      omega

theorem mem_diffInsertEdit (ds : List EditCmd) (ec : EditCmd) : ec ∈ diffInsertEdit ds ec := by
  induction ds with
  | nil => simp [diffInsertEdit]
  | cons d ds ih =>
    simp only [diffInsertEdit]
    split <;> simp [ih]

/-- The entry of an `a` command. -/
def ReverseSt.addEntry (st : ReverseSt) (ec : EditCmd) : EditCmd :=
  { ec with havetext := true, key := ec.whereLine + ec.count - st.offset, offset := st.offset }

/-- An `a` command that is not at the last line of the `d` command in front of
it has an entry of its own. -/
theorem ReverseSt.add_ds {st : ReverseSt} {ec : EditCmd}
    (h : ∀ d ∈ st.delec, d.key ≠ ec.whereLine - st.offset) :
    (st.add ec).ds = diffInsertEdit st.entries (st.addEntry ec) := by
  cases hdel : st.delec with
  | none => simp only [ReverseSt.add, ReverseSt.entries, hdel, diffInsertEdit?, ReverseSt.addEntry]
  | some d =>
    have hne : d.key ≠ ec.whereLine + ec.count - st.offset - ec.count := by
      have := h d (by simp [hdel])
      omega
    simp only [ReverseSt.add, ReverseSt.entries, hdel, diffInsertEdit?, ReverseSt.addEntry,
      if_neg hne]

theorem ReverseSt.At.add {st : ReverseSt} {o n p : Nat} {a : List Line} {es : List EditCmd}
    (h : st.At o n es (n + (p - o) : Nat)) (ho : o ≤ p) (hp : p ≤ intMax) (hne : a ≠ [])
    (hn : n + (p - o) + a.length ≤ intMax) :
    ∃ e, IsEntry ⟨p, 0, a⟩ (n + (p - o)) e ∧
      (st.add (addCmd st.ec p a.length)).At p (n + (p - o) + a.length) (es ++ [e])
        (n + (p - o) + a.length + 1 : Nat) := by
  obtain ⟨hoff, hes, hkey⟩ := h
  have hent : IsEntry ⟨p, 0, a⟩ (n + (p - o)) (st.addEntry (addCmd st.ec p a.length)) := by
    refine ⟨?_, by simpa [ReverseSt.addEntry] using hne, rfl, ?_⟩
    · simp only [ReverseSt.addEntry, addCmd]; omega
    · simp only [ReverseSt.addEntry]; omega
  have hkeyeq := hent.key_eq
  simp only at hkeyeq
  -- a `d` command that waits is that of an earlier hunk
  have hwait : ∀ d ∈ st.delec, d.key ≠ (p : Int) - st.offset := by
    intro d hd
    have hmem : d ∈ es := by
      rw [← hes, ReverseSt.entries, Option.mem_def.mp hd]
      exact mem_diffInsertEdit _ _
    have := hkey d hmem
    omega
  have hds : (st.add (addCmd st.ec p a.length)).ds = es ++ [st.addEntry (addCmd st.ec p a.length)] := by
    rw [ReverseSt.add_ds hwait, hes]
    refine diffInsertEdit_of_le fun e he => ?_
    have := hkey e he
    omega
  refine ⟨_, hent, ?_, hds, ?_⟩
  · simp only [ReverseSt.add, addCmd]
    rw [wrapInt_of_le (by omega) (by omega)]
    omega
  · intro e he
    rcases List.mem_append.mp he with he | he
    · have := hkey e he; omega
    · rw [List.mem_singleton.mp he]
      omega

/-- An `a` command at the last line of the `d` command in front of it: the
entry that waits becomes that of both. -/
theorem ReverseSt.At.merge {st : ReverseSt} {n p d : Nat} {a : List Line} {es : List EditCmd}
    {e : EditCmd} (hdel : st.delec = some e) (hds : st.ds = es) (he : IsEntry ⟨p, d, []⟩ n e)
    (h : st.At (p + d) n (es ++ [e]) (n + 1 : Nat)) (hp : p + d ≤ intMax) (hne : a ≠ [])
    (hkey : ∀ e ∈ es, e.key < n) (hn : n + a.length ≤ intMax) :
    ∃ e', IsEntry ⟨p, d, a⟩ n e' ∧
      (st.add (addCmd st.ec (p + d) a.length)).At (p + d) (n + a.length) (es ++ [e'])
        (n + a.length + 1 : Nat) := by
  have hoff := h.offset_eq
  have hkeq : e.key = ((p + d : Nat) : Int) + a.length - st.offset - a.length := by
    have := he.key_eq
    simp only [List.length_nil] at this
    omega
  have hent : IsEntry ⟨p, d, a⟩ n { e with
      key := ((p + d : Nat) : Int) + a.length - st.offset, havetext := true,
      count := a.length } := by
    refine ⟨?_, by simpa using hne, rfl, he.offset_eq⟩
    simp only
    omega
  have hlast : ∀ k ∈ es, k.key ≤ ((p + d : Nat) : Int) + a.length - st.offset := by
    intro k hk
    have := hkey k hk
    omega
  refine ⟨_, hent, ?_, ?_, ?_⟩
  · simp only [ReverseSt.add, addCmd]
    rw [wrapInt_of_le (by omega) (by omega)]
    omega
  · show diffInsertEdit? (st.add (addCmd st.ec (p + d) a.length)).ds none = _
    simp only [ReverseSt.add, hdel, addCmd, if_pos hkeq, diffInsertEdit?, hds]
    exact diffInsertEdit_of_le hlast
  · intro k hk
    rcases List.mem_append.mp hk with hk | hk
    · have := hkey k hk; omega
    · rw [List.mem_singleton.mp hk]
      have := hent.key_eq
      simp only at this ⊢
      omega

/-- One hunk: its entry is put at the end of the list. -/
theorem reverseLoop_hunk (rest : List Line) {st : ReverseSt} {o n lo : Nat} {h : Hunk Line}
    {es : List EditCmd} (hst : st.At o n es (n + (h.pos - o) : Nat)) (hop : o ≤ h.pos)
    (hp : h.stop ≤ intMax) (hne : 0 < h.del ∨ h.add ≠ [])
    (hn : n + (h.pos - o) + h.add.length ≤ intMax) (hlo : lo ≤ h.pos) (hec : st.ec.Upto lo) :
    ∃ st' e, st'.ec.Upto (h.stop + 1) ∧ IsEntry h (n + (h.pos - o)) e ∧
      st'.At h.stop (n + (h.pos - o) + h.add.length) (es ++ [e])
        (n + (h.pos - o) + h.add.length + 1 : Nat) ∧
      reverseLoop (cmdLines h ++ rest) 0 st = reverseLoop rest 0 st' := by
  obtain ⟨ha, hd⟩ := hec
  obtain ⟨pos, del, add⟩ := h
  simp only [Hunk.stop] at *
  have hmax : (intMax : Int) < longMax := by decide
  by_cases hdel : del = 0
  · subst hdel
    have hadd : add ≠ [] := hne.resolve_left (by omega)
    obtain ⟨e, hent, hat⟩ := hst.add hop (by omega) hadd hn
    refine ⟨_, e, ⟨?_, ?_⟩, hent, hat, ?_⟩
    · simp only [ReverseSt.add, addCmd]; omega
    · simp only [ReverseSt.add, addCmd]; omega
    · simp only [cmdLines, if_true, if_neg hadd, List.nil_append, List.cons_append, Hunk.stop,
        Nat.add_zero]
      exact reverseLoop_add hadd (by omega) (by omega) (by omega)
  · obtain ⟨e, hwait, hds, hent, hat⟩ := hst.del hop hp (by omega)
    simp only [cmdLines, if_neg hdel, List.cons_append, List.nil_append]
    rw [reverseLoop_del (by omega) (by omega) (by omega) (by omega) (by omega)]
    by_cases hadd : add = []
    · subst hadd
      refine ⟨_, e, ⟨?_, ?_⟩, hent, hat, ?_⟩
      · simp only [ReverseSt.del, delCmd]; omega
      · simp only [ReverseSt.del, delCmd]; omega
      · rw [if_pos rfl, List.nil_append]
    · obtain ⟨e', hent', hat'⟩ := ReverseSt.At.merge hwait hds hent hat hp hadd
        (fun k hk => hst.key_lt k hk) hn
      refine ⟨_, e', ⟨?_, ?_⟩, hent', hat', ?_⟩
      · simp only [ReverseSt.add, addCmd]; omega
      · simp only [ReverseSt.add, ReverseSt.del, addCmd, delCmd]; omega
      · rw [if_neg hadd, List.cons_append]
        exact reverseLoop_add hadd (by simp only [Hunk.stop]; omega) (by omega)
          (by simp only [ReverseSt.del, delCmd, Hunk.stop]; omega)

/-- The loop over the hunks of a canonical script. -/
theorem reverseLoop_cmdLines {orig : List Line} {hs : List (Hunk Line)} {st : ReverseSt}
    {o n lo : Nat} {es : List EditCmd} (hlo : o ≤ lo) (hcan : CanonicalFrom orig.length lo hs)
    (hst : st.At o n es (n + (lo - o) : Nat)) (hec : st.ec.Upto lo) (ho : orig.length ≤ intMax)
    (hn : n + (applyFrom orig o hs).length ≤ intMax) (hlm : lo ≤ intMax + 1) :
    ∃ st' es', reverseLoop (hs.flatMap cmdLines) 0 st = some st' ∧ st'.entries = es ++ es' ∧
      (∀ e ∈ es ++ es', e.key < maxKey) ∧
      ∀ s : EditCmd, s.offset = st'.offset → Entries o n hs (es' ++ [s]) := by
  induction hs generalizing st o n lo es with
  | nil =>
    refine ⟨st, [], rfl, by simpa using hst.entries_eq, fun e he => ?_, fun s hs => ⟨s, rfl, ?_⟩⟩
    · have := hst.key_lt e (by simpa using he)
      have : ((intMax + (intMax + 1) : Nat) : Int) < maxKey := by decide
      omega
    · rw [hs, hst.offset_eq]
  | cons h hs ih =>
    obtain ⟨hpos, hstop, hne, hcs⟩ := hcan
    rw [length_applyFrom_cons (Nat.le_trans hlo hpos) hstop] at hn
    have hst' : st.At o n es (n + (h.pos - o) : Nat) :=
      ⟨hst.offset_eq, hst.entries_eq, fun e he => by have := hst.key_lt e he; omega⟩
    obtain ⟨st1, e, hec1, hent, hat, hrun⟩ := reverseLoop_hunk (hs.flatMap cmdLines) hst'
      (Nat.le_trans hlo hpos) (Nat.le_trans hstop ho) hne (by omega) hpos hec
    obtain ⟨st2, es2, hrun2, hes2, hkeys, hents⟩ := ih (Nat.le_succ _) hcs
      ⟨hat.offset_eq, hat.entries_eq, by simpa using hat.key_lt⟩ hec1 (by omega) (by omega)
    refine ⟨st2, e :: es2, ?_, by simpa using hes2, by simpa using hkeys, fun s hs => ?_⟩
    · rw [List.flatMap_cons, hrun, hrun2]
    · exact ⟨e, es2 ++ [s], rfl, hent, hents s hs⟩

/-! ## The output -/

variable {exp : Expander}

theorem Cursor.At.withDest {c : Cursor} {orig : List Line} {o : Nat} (h : c.At orig o)
    (dest : List Byte) : Cursor.At { c with dest := dest } orig o :=
  ⟨h.orig_eq, h.editline_eq⟩

/-- What an entry writes: the reversed hunk. -/
theorem diffWriteReverse_entry (he : ∀ l, exp l = none) (es : List EditCmd)
    {orig : List Line} {c : Cursor} {e next : EditCmd} {h : Hunk Line} {o n : Nat} (hc : c.At orig o)
    (hop : o ≤ h.pos) (hp : h.stop ≤ orig.length) (hent : IsEntry h n e)
    (hnext : next.offset = (h.stop : Int) - (n + h.add.length : Nat)) :
    ∃ c' o', c'.At orig o' ∧ o' ≤ h.stop ∧
      diffWriteReverse exp (e :: next :: es) c = diffWriteReverse exp (next :: es) c' ∧
      c'.dest = c.dest ++
        (cmdLines ⟨n, h.add.length, (orig.drop h.pos).take h.del⟩).flatten := by
  obtain ⟨hkey, htext, hcount, hoff⟩ := hent
  simp only [Hunk.stop] at *
  have hdeleted : (if e.havetext = true then e.count else 0) = (h.add.length : Int) := by
    split
    · exact hcount
    · rename_i h0
      have : h.add = [] := by simpa using mt htext.mpr h0
      simp [this]
  have hadded : (h.add.length : Int) + next.offset - e.offset = h.del := by omega
  have hline : e.key - h.add.length + 1 = ((n + 1 : Nat) : Int) := by omega
  have hstart : e.key - h.add.length + 1 + e.offset - 1 = (h.pos : Int) := by omega
  have hend : e.key - h.add.length + 1 + e.offset + h.del - 1 = ((h.pos + h.del : Nat) : Int) := by
    omega
  have hlen : ((orig.drop h.pos).take h.del).length = h.del := by
    simp only [List.length_take, List.length_drop]; omega
  have hkey' : e.key = ((n + h.add.length : Nat) : Int) := by omega
  -- the `d` command
  have hd : ∀ c : Cursor, (if 0 < (h.add.length : Int) then
      { c with dest := c.dest ++ printCmd 100 (e.key - h.add.length + 1) h.add.length } else c) =
        { c with dest := c.dest ++ (if h.add.length = 0 then [] else
          [printCmd 100 ((n + 1 : Nat) : Int) (h.add.length : Nat)]).flatten } := by
    intro c
    by_cases h0 : h.add.length = 0
    · simp [h0]
    · rw [if_pos (by omega), if_neg h0, hline]
      simp
  simp only [diffWriteReverse, hdeleted, hadded, hd, hstart, hend]
  by_cases hdel : h.del = 0
  · rw [if_neg (by omega : ¬0 < (h.del : Int)), hdel]
    refine ⟨_, o, hc.withDest _, by omega, rfl, ?_⟩
    simp [cmdLines]
  · have hne : (orig.drop h.pos).take h.del ≠ [] := by
      intro h0
      rw [h0] at hlen
      exact hdel hlen.symm
    rw [if_pos (by omega : 0 < (h.del : Int)), diffIgnoreln_at (hc.withDest _) hop (by omega)]
    simp only
    rw [diffCopyln_at he ⟨rfl, rfl⟩ (by omega : h.pos ≤ h.pos + h.del) hp]
    refine ⟨_, h.pos + h.del, ⟨rfl, rfl⟩, Nat.le_refl _, rfl, ?_⟩
    simp only [cmdLines, if_neg hne, hlen, hkey', Hunk.stop, List.flatten_append,
      List.flatten_cons, List.append_assoc, Nat.add_sub_cancel_left]

/-- The text of the reverse script is written. -/
theorem diffWriteReverse_entries (he : ∀ l, exp l = none) {orig : List Line}
    {hs : List (Hunk Line)} {o n lo q : Nat} {es : List EditCmd} {c : Cursor} (hlo : o ≤ lo)
    (hcan : CanonicalFrom orig.length lo hs) (hc : c.At orig q) (hq : q ≤ o)
    (hes : Entries o n hs es) :
    (diffWriteReverse exp es c).dest = c.dest ++ render (reverseFrom orig o n hs) := by
  induction hs generalizing o n lo q es c with
  | nil =>
    obtain ⟨e, rfl, -⟩ := hes
    simp [diffWriteReverse, render, reverseFrom]
  | cons h hs ih =>
    obtain ⟨hpos, hstop, hne, hcs⟩ := hcan
    obtain ⟨e, es', rfl, hent, htail⟩ := hes
    obtain ⟨next, es'', rfl, hnext⟩ := htail.exists_cons fun k hk => by
      cases hs with
      | nil => cases hk
      | cons k' hs =>
        obtain rfl := Option.some.inj hk
        exact Nat.le_trans (Nat.le_succ _) hcs.1
    obtain ⟨c', o', hat, ho', hrun, hdest⟩ := diffWriteReverse_entry he es'' hc (by omega)
      hstop hent hnext
    rw [hrun, ih (Nat.le_succ _) hcs hat ho' htail, hdest]
    simp [render, reverseFrom, List.append_assoc]

/-! ## The call -/

/-- `diff_reverse` on the text of a canonical script writes the text of the
reverse script. -/
theorem diffReverse_render (he : ∀ l, exp l = none) {orig : List Line} {hs : List (Hunk Line)}
    (ho : IsText nl orig) (hcan : Canonical orig.length hs) (hr : IsText nl (applyScript orig hs))
    (hlo : orig.length ≤ intMax) (hlr : (applyScript orig hs).length ≤ intMax) :
    diffReverse exp (render hs) orig.flatten = some (render (reverseScript orig hs)) := by
  have hat : (ReverseSt.mk .zero none 0 []).At 0 0 [] (0 + (0 - 0) : Nat) :=
    ⟨rfl, rfl, fun e he => by cases he⟩
  obtain ⟨st, es, hrun, hes, hkeys, hents⟩ := reverseLoop_cmdLines (Nat.le_refl 0) hcan hat
    ⟨Int.le_refl 0, Int.le_refl 0⟩ hlo (by simpa using hlr) (by omega)
  have hlast : diffInsertEdit st.entries (sentinel st.offset) = es ++ [sentinel st.offset] := by
    rw [hes]
    exact diffInsertEdit_of_le fun e h => Int.le_of_lt (hkeys e h)
  rw [diffReverse, render, splitLines_flatten (isText_cmdLines (Nat.le_refl 0) hcan hr),
    splitLines_flatten ho, hrun]
  show some (diffWriteReverse exp (diffInsertEdit st.entries (sentinel st.offset)) _).dest = _
  rw [hlast, diffWriteReverse_entries he (Nat.le_refl 0) hcan (q := 0) ⟨rfl, rfl⟩ (Nat.le_refl 0)
    (hents _ rfl)]
  rfl

/-- The script `diff_reverse` writes is accepted and undoes what `diff_apply`
did. -/
def Inverts (exp : Expander) (orig : List Line) (hs : List (Hunk Line)) : Prop :=
  ∃ res r, diffApply exp false (render hs) orig.flatten = some res ∧
    diffReverse exp (render hs) orig.flatten = some r ∧
    diffApply exp false r res = some orig.flatten

/-- It does in the mode `EXPAND_OLD`, between texts of less than 2^31 lines. -/
theorem diffApply_diffReverse (scan : Line → Option Line) {orig : List Line}
    {hs : List (Hunk Line)} (ho : IsText nl orig) (hcan : Canonical orig.length hs)
    (hr : IsText nl (applyScript orig hs)) (hlo : orig.length ≤ intMax)
    (hlr : (applyScript orig hs).length ≤ intMax) : Inverts (expandOld scan) orig hs := by
  have he : ∀ l, expandOld scan l = none := fun l => rfl
  have hmax : (intMax : Int) ≤ longMax := by decide
  have hinv := applyScript_reverseScript hcan
  refine ⟨_, _, diffApply_render he ho hcan hr (by omega) (by omega),
    diffReverse_render he ho hcan hr hlo hlr, ?_⟩
  have happly := diffApply_render he hr (canonical_reverseScript hcan) (by rwa [hinv]) (by omega)
    (by rw [hinv]; omega)
  rwa [hinv] at happly

/-- A hunk at each end of a text without newline at its end. -/
theorem diffApply_diffReverse_foo :
    Inverts (expandOld fun _ => none) [bytes ['a', '\n'], bytes ['f', 'o', 'o']]
      [⟨0, 0, [bytes ['b', '\n']]⟩, ⟨1, 1, [bytes ['b', 'a', 'r']]⟩] :=
  diffApply_diffReverse (fun _ => none)
    ⟨⟨bytes ['a'], by decide, rfl⟩, by decide, by decide⟩
    ⟨by decide, by decide, by decide, by decide, by decide, by decide, trivial⟩
    ⟨⟨bytes ['b'], by decide, rfl⟩, ⟨bytes ['a'], by decide, rfl⟩, by decide, by decide⟩
    (by decide) (by decide)

/-- The offset after a deletion of 2^31 lines is negative: nothing is written. -/
theorem diffReverse_deleted (exp : Expander) (orig : List Byte) :
    diffReverse exp (render [⟨0, 2147483648, []⟩]) orig = some [] := rfl

theorem not_inverts_deleted {scan : Line → Option Line} {orig : List Line} (ho : IsText nl orig)
    (hl : orig.length = 2147483648) : ¬Inverts (expandOld scan) orig [⟨0, 2147483648, []⟩] := by
  have hres : applyScript orig [⟨0, 2147483648, []⟩] = [] := by
    simp [applyFrom, hl]
  have hcan : Canonical orig.length [⟨0, 2147483648, ([] : List Line)⟩] :=
    ⟨by simp, by simp [Hunk.stop, hl], by simp, trivial⟩
  have happly := diffApply_render (fun l => keywordExpand_old scan l) ho hcan
    (by rw [hres]; trivial) (by rw [hl]; decide) (by rw [hres]; decide)
  rw [hres] at happly
  rintro ⟨res, r, hres', hr, hback⟩
  obtain rfl := Option.some.inj (happly.symm.trans hres')
  obtain rfl := Option.some.inj ((diffReverse_deleted _ _).symm.trans hr)
  -- the empty script leaves the empty text alone
  have hnil : ([] : List Byte) = orig.flatten := Option.some.inj hback
  have := splitLines_flatten ho
  rw [← hnil] at this
  rw [← this] at hl
  cases hl

/-- Between lists of lines that are not such texts it does not. A line added
behind a last line without newline is joined to it, and the reverse script
deletes a line the result does not have. Where 2^31 lines are deleted, the
reverse script is empty. -/
theorem not_inverts :
    (IsText nl [bytes ['f', 'o', 'o']] ∧ Canonical 1 [⟨1, 0, [bytes ['b', '\n']]⟩] ∧
      ¬Inverts (expandOld fun _ => none) [bytes ['f', 'o', 'o']] [⟨1, 0, [bytes ['b', '\n']]⟩]) ∧
    IsText nl (List.replicate 2147483648 (bytes ['x', '\n'])) ∧
      Canonical 2147483648 [⟨0, 2147483648, ([] : List Line)⟩] ∧
      ¬Inverts (expandOld fun _ => none) (List.replicate 2147483648 (bytes ['x', '\n']))
        [⟨0, 2147483648, []⟩] := by
  refine ⟨⟨⟨by decide, by decide⟩, ⟨by decide, by decide, by decide, trivial⟩, ?_⟩, ?_⟩
  · rintro ⟨res, r, hres, hr, hback⟩
    obtain rfl := Option.some.inj ((by decide : some (bytes ['f', 'o', 'o', 'b', '\n']) =
      diffApply (expandOld fun _ => none) false (render [⟨1, 0, [bytes ['b', '\n']]⟩])
        [bytes ['f', 'o', 'o']].flatten).trans hres)
    obtain rfl := Option.some.inj ((by decide : some (bytes ['d', '2', ' ', '1', '\n']) =
      diffReverse (expandOld fun _ => none) (render [⟨1, 0, [bytes ['b', '\n']]⟩])
        [bytes ['f', 'o', 'o']].flatten).trans hr)
    revert hback
    decide
  · have htext : IsText nl (List.replicate 2147483648 (bytes ['x', '\n'])) :=
      isText_of_full fun l h => by
        rw [List.eq_of_mem_replicate h]
        exact ⟨bytes ['x'], by decide, rfl⟩
    exact ⟨htext, ⟨by simp, by simp [Hunk.stop], by simp, trivial⟩,
      not_inverts_deleted htext List.length_replicate⟩

end Csup.Diff
