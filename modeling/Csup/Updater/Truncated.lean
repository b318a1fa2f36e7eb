import Csup.Updater.Docoll
import Csup.Updater.Takes

/-!
# A stream that ends too early

`updater_docoll` on the beginning of a stream and on all of it. A line that the
end of the stream cuts is handed out as if it were complete; what comes of that
depends on the line. `Fine` says for each such line, and for an end of the stream
among the chunks of a file, when nothing is done that the whole stream would not
have done; then the actions on the beginning are a beginning of the actions on
the whole (`docoll_log_starts`). Without, they need not be
(`not_docoll_log_starts`).
-/

namespace Csup.Docoll

open Csup.Attrs (fattrDecode)
open Csup.Diff (Line)
open Csup.Framework (Prog Work TakesLines lastLine lineOf behindLine oneLine onLines
  onLines_append onLines_length onLines_oneLine oneLine_takes)
open Csup.Proto
open Csup.Updater

variable {W F D α β : Type} {env : Env W F D}

/-! ## What a cut line may do -/

/-- The command `c` was read off a line that is cut, `c'` is the line as it was
sent. A name must not be cut, and attributes only if they are no attributes any
more; where an action comes before them or before the contents of a file, it must
be one of the whole line too. -/
def Harmless (env : Env W F D) (c : Command) (c' : Except Halt (Option Command)) : Prop :=
  c' = .ok (some c) ∨
    match c with
    | .diff .. | .rsync .. | .append .. | .warning _ => True
    | .setattrs _ _ _ _ _ attr | .dirup _ attr | .record _ _ attr | .node _ _ attr =>
      fattrDecode env.fflags env.ids attr = .error .bad
    | .dead update name tag date attr =>
      fattrDecode env.fflags env.ids attr = .error .bad ∧
        ∃ attr', c' = .ok (some (.dead update name tag date attr'))
    | .checkout isfixup name tag date revnum revdate attr =>
      fattrDecode env.fflags env.ids attr = .error .bad ∨
        ∃ attr' fa, c' = .ok (some (.checkout isfixup name tag date revnum revdate attr')) ∧
          fattrDecode env.fflags env.ids attr' = .ok fa
    | .addfile attic isfixup name attr =>
      fattrDecode env.fflags env.ids attr = .error .bad ∨
        ∃ attr' fa, c' = .ok (some (.addfile attic isfixup name attr')) ∧
          fattrDecode env.fflags env.ids attr' = .ok fa
    | .rcsedit attic name attr rcsopt _ =>
      ∃ wantmd5', c' = .ok (some (.rcsedit attic name attr rcsopt wantmd5'))
    | .delete _ | .dirdown _ | .rmdown _ | .rmup _ => False

/-- What the line was, where the stream goes on with `q`. -/
def Fine (env : Env W F D) (q : List Byte) : Note → Prop
  | .command line =>
    ∀ c, parseCommand line = .ok (some c) → Harmless env c (parseCommand (line ++ lineOf nl q))
  | .deltas line =>
    protoGetChar (some (cline (line ++ lineOf nl q))) = protoGetChar (some (cline line))
  | .edits line => editKind (line ++ lineOf nl q) = editKind line
  | .chunks line => cline (line ++ lineOf nl q) = cline line
  | .chunksEof wantmd5 sum => wantmd5 ≠ sum
  | .checksum line wantmd5 sum =>
    parseChecksum (line ++ lineOf nl q) = .ok wantmd5 ∨ wantmd5 ≠ sum

/-- The two runs agree on a program. -/
abbrev Safe (env : Env W F D) (q : List Byte) (m : Session W α) : Prop :=
  Prog.Good (Fine env q) q none true m

variable {q : List Byte}

/-! ## Programs that read lines -/

theorem safe_run (t : Task W α) : Safe env q (run t) := Prog.good_work (by simp) t

theorem Safe.map {m : Session W α} (h : Safe env q m) (f : α → β) : Safe env q (f <$> m) :=
  Prog.Good.andThen h (fun a => Prog.good_pure (f a)) fun _ _ => by
    rw [if_pos rfl]
    exact fun _ => rfl

theorem mem_unfinished {note : Line → Note} {p : List Byte} {P : Note → Prop}
    (h : ∀ r ∈ unfinished note p, P r) (hp : lastLine nl p ≠ []) : P (note (lastLine nl p)) := by
  refine h _ ?_
  rw [unfinished, if_neg hp]
  exact List.mem_singleton_self _

section

variable {mark : List Byte → α → List Note} {f : List Line → Except Halt (α × List Line)}
  {k : α → Session W β}

theorem ok_of_mapError {ε ε' : Type} {g : ε → ε'} {x : Except ε α} {a : α}
    (h : x.mapError g = .ok a) : x = .ok a := by
  rcases x with e | b
  · cases h
  · exact congrArg Except.ok (Except.ok.inj h)

theorem readLines_nil (hnil : ∃ e, f [] = .error e) :
    Prog.Quits (readLines mark f : Session W α) := by
  obtain ⟨e, he⟩ := hnil
  have hread : (onLines nl f []).mapError (fun h => some (Stop.halt h)) =
      .error (some (.halt e)) := by
    rw [onLines, show Framework.splitLines nl ([] : List Byte) = [] from rfl, he]
    rfl
  intro w
  refine ⟨?_, some (.halt e), ?_⟩ <;> simp only [readLines, Prog.read, hread]

/-- What is logged behind a line that is read is what comes of it. -/
theorem log_readLines {p rest : List Byte} {a : α} (h : onLines nl f p = .ok (a, rest)) (w : W) :
    (Prog.bind (readLines mark f) k p w).log = (k a rest w).log := by
  have hread : (onLines nl f p).mapError (fun h => some (Stop.halt h)) = .ok (a, rest) := by
    rw [h]
    rfl
  simp only [Prog.bind, readLines, Prog.read, hread, List.nil_append]

/-- Lines are read and something is done with them. Where the stream ended with
them, that is a part of what is done with what they were, or they were the same. -/
theorem safe_readLines (hk : ∀ a, Safe env q (k a)) (hnil : ∃ e, f [] = .error e)
    (hlen : ∀ p a rest, onLines nl f p = .ok (a, rest) → rest.length ≤ p.length)
    (hread : ∀ p a rest, onLines nl f p = .ok (a, rest) →
      (∀ q, onLines nl f (p ++ q) = .ok (a, rest ++ q)) ∨
      rest = [] ∧ ((∀ r ∈ mark p a, Fine env q r) → (∃ t, onLines nl f (p ++ q) = .ok (a, t)) ∨
        ∀ w, (k a [] w).log <+: (Prog.bind (readLines mark f) k (p ++ q) w).log)) :
    Safe env q (Prog.bind (readLines mark f) k) := by
  refine Prog.good_read_bind hk (fun p a rest h => hlen p a rest (ok_of_mapError h)) ?_ ?_ ?_
  · intro p
    rcases onLines nl f p with e | r <;> simp [Except.mapError]
  · obtain ⟨e, he⟩ := hnil
    refine ⟨some (.halt e), ?_⟩
    rw [onLines, show Framework.splitLines nl ([] : List Byte) = [] from rfl, he]
    rfl
  · intro p a rest _ h
    rcases hread p a rest (ok_of_mapError h) with hset | ⟨hr, hcut⟩
    · refine .inl ?_
      rw [hset]
      rfl
    · refine .inr ⟨hr, fun hfine => ?_⟩
      rcases hcut hfine with ⟨t, ht⟩ | hlog
      · refine .inl ⟨t, ?_⟩
        rw [ht]
        rfl
      · exact .inr hlog

/-- A reader that takes lines. -/
theorem safe_takes (same : α → Line → Line → Prop) (hrefl : ∀ a l, same a l l)
    (htakes : ∀ a, TakesLines (same a) f a) (hk : ∀ a, Safe env q (k a))
    (hcut : ∀ p a, lastLine nl p ≠ [] → (∀ r ∈ mark p a, Fine env q r) →
      same a (lastLine nl p) (lastLine nl p ++ lineOf nl q) ∨ Prog.Silent (k a)) :
    Safe env q (Prog.bind (readLines mark f) k) := by
  refine safe_readLines hk ?_ (fun p a rest h => (onLines_length (htakes a) h).le) ?_
  · rcases h : f [] with e | ⟨a, rest⟩
    · exact ⟨e, rfl⟩
    · obtain ⟨used, l, hnil, -⟩ := htakes a _ _ h
      simp at hnil
  · intro p a rest h
    rcases onLines_append (same a) (hrefl a) (htakes a) h with hset | ⟨hr, hp, hsame⟩
    · exact .inl hset
    · refine .inr ⟨hr, fun hfine => ?_⟩
      rcases hcut p a hp hfine with hq | hsilent
      · exact .inl ⟨_, hsame q hq⟩
      · refine .inr fun w => ?_
        rw [hsilent w]
        exact List.nil_prefix

/-- Nothing is done with the lines before more is read. -/
theorem safe_silent (htakes : ∀ a, TakesLines Eq f a) (hk : ∀ a, Safe env q (k a))
    (hsilent : ∀ a, Prog.Silent (k a)) : Safe env q (Prog.bind (readLines mark f) k) :=
  safe_takes (fun _ => Eq) (fun _ _ => rfl) htakes hk fun _ a _ _ => .inr (hsilent a)

end

/-! ## What is not logged -/

section

variable {e : Stop}

theorem quiet_need (o : Option α) : (need e o : Task W α).Quiet := by
  rcases o with - | a
  · exact Work.quiet_fail e
  · exact Work.quiet_pure a

theorem quiet_check (b : Bool) : (check e b : Task W Unit).Quiet := by
  cases b
  · exact Work.quiet_fail e
  · exact Work.quiet_pure ()

theorem quiet_decode (attr : List Byte) : (decode env attr).Quiet := by
  unfold decode
  split
  · exact Work.quiet_pure _
  · exact Work.quiet_fail _
  · exact Work.quiet_fail _

theorem quiet_prepare (name : List Byte) (attic : Bool) : (prepare env e name attic).Quiet := by
  unfold prepare
  split
  · exact quiet_need _
  · exact Work.quiet_ask _

theorem quiet_tempname (path : Path) : (tempname env path).Quiet := Work.quiet_tell _

theorem quiet_create (path : Path) : (create env path).Quiet :=
  (Work.quiet_tell _).bind quiet_check

theorem quiet_writeFile (path : Path) (data : List Byte) : (writeFile env path data).Quiet :=
  (Work.quiet_tell _).bind quiet_check

/-- An update of a file that is not the one it should be leaves no trace but the
fixup. -/
theorem quiet_updateFile {wantmd5 sum : List Byte} (h : wantmd5 ≠ sum) (fup : Fup)
    (temppath : Path) (isfixup : Bool) (sr : Status.StatusRec) (clientattr : Attrs.Fattr) :
    (updateFile env fup temppath isfixup wantmd5 sum sr clientattr).Quiet := by
  unfold updateFile
  rw [if_pos h]
  exact Work.quiet_tell _

theorem quiet_updateRcs {wantmd5 sum : List Byte} (h : wantmd5 ≠ sum) (fup : Fup)
    (temppath path : Path) (attic isfixup : Bool) (name : List Byte) (serverattr : Attrs.Fattr) :
    (updateRcs env fup temppath path attic isfixup e name wantmd5 sum serverattr).Quiet :=
  (Work.quiet_ask _).bind fun _ => (quiet_need _).bind fun _ => quiet_updateFile h _ _ _ _ _

/-- What comes of attributes that are none. -/
theorem log_decode_bad {attr : List Byte} (h : fattrDecode env.fflags env.ids attr = .error .bad)
    (k : Attrs.Fattr → Task W α) : (decode env attr >>= k).Quiet := by
  refine (quiet_decode attr).bind_ok fun w fa hfa => ?_
  rw [decode, h] at hfa
  cases hfa

theorem quiet_openDiff (name expand attr : List Byte) : (openDiff env name expand attr).Quiet :=
  (quiet_decode _).bind fun _ => (quiet_need _).bind fun _ => (quiet_prepare _ _).bind fun _ =>
    (quiet_tempname _).bind fun _ => (Work.quiet_ask _).bind fun _ => Work.quiet_pure _

theorem quiet_openRsync (name attr : List Byte) : (openRsync env name attr).Quiet :=
  (quiet_prepare _ _).bind fun _ => (quiet_tempname _).bind fun _ => (quiet_decode _).bind fun _ =>
    (quiet_create _).bind fun _ => (Work.quiet_ask _).bind fun _ => (quiet_need _).bind fun _ =>
      Work.quiet_pure _

theorem quiet_openAppend (name attr : List Byte) : (openAppend env name attr).Quiet :=
  (quiet_prepare _ _).bind fun _ => (quiet_tempname _).bind fun _ => (quiet_decode _).bind fun _ =>
    (quiet_create _).bind fun _ => (Work.quiet_ask _).bind fun _ => (quiet_need _).bind fun _ =>
      Work.quiet_pure _

end

theorem silent_run {t : Task W α} (ht : t.Quiet) {k : α → Session W β}
    (hk : ∀ a, Prog.Silent (k a)) : Prog.Silent (run t >>= k) := by
  intro w
  exact (Prog.log_work_silent some hk w).trans (ht w)

/-! ## Commands that read the contents of a file -/

theorem readChecksum_nil (eof : Halt) : ∃ e, readChecksum eof [] = .error e := ⟨eof, rfl⟩

/-- A checksum and the update that goes by it. -/
theorem safe_getChecksum {eof : Halt} {sum : List Byte} {k : List Byte → Session W β}
    (hk : ∀ a, Safe env q (k a)) (hsilent : ∀ wantmd5, wantmd5 ≠ sum → Prog.Silent (k wantmd5)) :
    Safe env q (Prog.bind (getChecksum eof sum) k) := by
  refine safe_readLines hk (readChecksum_nil eof)
    (fun p a rest h => (onLines_length (oneLine_takes _ _ a) h).le) ?_
  intro p wantmd5 rest h
  rcases onLines_oneLine h with hset | ⟨hr, hne, hp, hq⟩
  · exact .inl hset
  · refine .inr ⟨hr, fun hfine => ?_⟩
    have hf := mem_unfinished hfine (by rwa [hp])
    rw [hp] at hf
    rcases hf with hsame | hsum
    · refine .inl ⟨behindLine nl q, ?_⟩
      rw [readChecksum, hq, hsame]
      rfl
    · refine .inr fun w => ?_
      rw [hsilent wantmd5 hsum w]
      exact List.nil_prefix

theorem silent_getChecksum {eof : Halt} {sum : List Byte} {k : List Byte → Session W β} :
    Prog.Silent (Prog.bind (getChecksum eof sum) k) :=
  ((readLines_nil (readChecksum_nil eof)).bind k).silent

theorem silent_run_quiet {t : Task W α} (ht : t.Quiet) : Prog.Silent (run t : Session W α) :=
  fun w => ht w

theorem safe_cmdCheckout (isfixup : Bool) (name tag date revnum revdate attr : List Byte) :
    Safe env q (cmdCheckout env isfixup name tag date revnum revdate attr) := by
  refine Prog.Good.bind (Prog.good_work (by simp) _) ?_
  rintro ⟨serverattr, t, fup, temppath⟩
  refine safe_silent readCheckout_takes ?_ ?_
  · intro text
    refine Prog.Good.bind (Prog.good_work (by simp) _) fun _ => ?_
    refine safe_getChecksum (fun _ => safe_run _) fun wantmd5 hsum => ?_
    exact silent_run_quiet (quiet_updateFile hsum _ _ _ _ _)
  · intro text
    exact silent_run (quiet_writeFile _ _) fun _ => silent_getChecksum

/-- The bytes of a file that are there are those of the whole stream. -/
theorem safe_readBytes (size : Int) :
    Prog.Good (Fine env q) q none false (Prog.read (fun _ _ => []) fun p =>
      (readBytes size p).mapError fun h => some (.halt h) : Session W (List Byte)) := by
  have hok {p a rest : List Byte} (h : readBytes size p = .ok (a, rest)) :
      p ≠ [] ∧ ¬ size < 0 ∧ ¬ p.length < size.toNat ∧ a = p.take size.toNat ∧
        rest = p.drop size.toNat := by
    unfold readBytes at h
    split at h
    · cases h
    split at h
    · cases h
    split at h
    · cases h
    · rename_i hp hneg hlen
      obtain ⟨rfl, rfl⟩ := Prod.mk.inj (Except.ok.inj h)
      exact ⟨hp, hneg, hlen, rfl, rfl⟩
  refine Prog.good_read ?_ ?_ ?_ ?_
  · intro p a rest h
    obtain ⟨-, -, -, -, rfl⟩ := hok (ok_of_mapError h)
    simp
  · intro p
    rcases readBytes size p with e | r <;> simp [Except.mapError]
  · intro p a rest _ h
    obtain ⟨hp, hneg, hlen, rfl, rfl⟩ := hok (ok_of_mapError h)
    have hlen' : ¬ (p ++ q).length < size.toNat := by
      rw [List.length_append]
      omega
    refine .inl ?_
    rw [readBytes, if_neg (by simp [hp]), if_neg hneg, if_neg hlen',
      List.take_append_of_le_length (by omega), List.drop_append_of_le_length (by omega)]
    rfl
  · intro a rest h
    exact absurd rfl (hok (ok_of_mapError h)).1

theorem readMarker_takes (u : Unit) : TakesLines Eq readMarker u := by
  intro ls rest h
  obtain ⟨used, l, hls, htakes⟩ := oneLine_takes _ _ u _ _ h
  refine ⟨used, l, hls, ?_⟩
  rintro _ t rfl
  exact htakes l t rfl

theorem safe_getFile (temppath : Path) (orig : List Byte) (size : Int)
    {close : List Byte → List Byte → Task W Unit}
    (hclose : ∀ wantmd5 sum, wantmd5 ≠ sum → (close wantmd5 sum).Quiet) :
    Safe env q (getFile env temppath orig size close) := by
  refine Prog.Good.bind (safe_readBytes size) fun data => ?_
  refine Prog.Good.bind (Prog.good_work (by simp) _) fun _ => ?_
  refine safe_silent readMarker_takes (fun _ => ?_) fun _ => silent_getChecksum
  refine safe_getChecksum (fun _ => safe_run _) fun wantmd5 hsum => ?_
  exact silent_run_quiet (hclose _ _ hsum)

theorem silent_getFile (temppath : Path) (orig : List Byte) (size : Int)
    (close : List Byte → List Byte → Task W Unit) :
    Prog.Silent (getFile env temppath orig size close) := by
  refine Prog.Quits.silent (Prog.Quits.bind (fun w => ?_) _)
  exact ⟨rfl, _, rfl⟩

theorem safe_cmdAddfile (attic isfixup : Bool) (name attr : List Byte) :
    Safe env q (cmdAddfile env attic isfixup name attr) := by
  refine Prog.Good.bind (Prog.good_work (by simp) _) ?_
  rintro ⟨fup, temppath, serverattr⟩
  exact safe_getFile _ _ _ fun _ _ hsum => quiet_updateRcs hsum _ _ _ _ _ _ _

theorem safe_cmdAppend (name attr pos : List Byte) :
    Safe env q (cmdAppend env name attr pos) := by
  refine Prog.Good.bind (Prog.good_work (by simp) _) ?_
  rintro ⟨fup, temppath, serverattr, orig⟩
  exact safe_getFile _ _ _ fun _ _ hsum => quiet_updateRcs hsum _ _ _ _ _ _ _

theorem readRsync_nil (orig : List Byte) (blocksize : Int) :
    ∃ e, readRsync orig blocksize [] = .error e := ⟨_, rfl⟩

theorem safe_cmdRsync (name attr blocksize wantmd5 : List Byte) :
    Safe env q (cmdRsync env name attr blocksize wantmd5) := by
  refine Prog.Good.bind (Prog.good_work (by simp) _) ?_
  rintro ⟨fup, temppath, serverattr, orig⟩
  refine safe_readLines (fun r => safe_run _) (readRsync_nil orig _) ?_ ?_
  · rintro p ⟨text, - | -⟩ rest h
    · exact (onLines_length (readRsync_takes _ _ _) h).le
    · obtain ⟨ls, hls, rfl⟩ := Framework.onLines_eq_ok h
      rw [readRsync_eof hls]
      exact Nat.zero_le _
  · rintro p ⟨text, - | -⟩ rest h
    · rcases onLines_append (fun l l' => cline l' = cline l) (fun _ => rfl)
        (readRsync_takes _ _ _) h with hset | ⟨hr, hp, hsame⟩
      · exact .inl hset
      · exact .inr ⟨hr, fun hfine => .inl ⟨_, hsame q (mem_unfinished hfine hp)⟩⟩
    · obtain ⟨ls, hls, rfl⟩ := Framework.onLines_eq_ok h
      obtain rfl := readRsync_eof hls
      refine .inr ⟨rfl, fun hfine => .inr fun w => ?_⟩
      have hsum : wantmd5 ≠ env.md5 text := hfine (.chunksEof wantmd5 (env.md5 text)) (by simp)
      -- what is written is not the file that is wanted
      have hwrite : (writeFile env temppath text).Quiet := quiet_writeFile temppath text
      have hupdate : (updateRcs env fup temppath fup.destpath false false errProto name wantmd5
          (env.md5 text) serverattr).Quiet := quiet_updateRcs hsum _ _ _ _ _ _ _
      have hquiet := hwrite.bind fun _ => hupdate
      show (run _ [] w : Framework.Result _ _ _ _ _).log <+: _
      rw [show (run _ [] w : Framework.Result _ _ _ _ _).log = [] from hquiet w]
      exact List.nil_prefix

/-! ## Commands that read deltas -/

theorem safe_cmdDiff (name tag date expand attr wantmd5 : List Byte) :
    Safe env q (cmdDiff env name tag date expand attr wantmd5) := by
  refine Prog.Good.bind (Prog.good_work (by simp) _) ?_
  rintro ⟨fup, temppath, serverattr, expand, file⟩
  refine safe_takes
    (fun _ l l' => protoGetChar (some (cline l')) = protoGetChar (some (cline l)))
    (fun _ _ => rfl) (readDeltas_takes _ _) (fun _ => safe_run _) ?_
  intro p last hp hfine
  exact .inl (mem_unfinished hfine hp)

theorem readEdits_takes_mapError (openrcs : Option F) (e : EditEnd F) :
    TakesLines (fun l l' => editKind l' = editKind l)
      (fun rd => (readEdits env.api openrcs rd).mapError Halt.err) e := by
  intro ls rest h
  obtain ⟨used, l, hls, htakes⟩ := readEdits_takes openrcs e ls rest (ok_of_mapError h)
  refine ⟨used, l, hls, fun l' t hl' => ?_⟩
  show (readEdits env.api openrcs (used ++ l' :: t)).mapError Halt.err = _
  rw [htakes l' t hl']
  rfl

theorem safe_cmdRcsedit (attic : Bool) (name attr wantmd5 : List Byte) :
    Safe env q (cmdRcsedit env attic name attr wantmd5) := by
  refine Prog.Good.bind (Prog.good_work (by simp) _) ?_
  rintro ⟨fup, temppath, serverattr, openrcs⟩
  refine safe_takes (fun _ l l' => editKind l' = editKind l) (fun _ _ => rfl)
    (readEdits_takes_mapError openrcs) ?_ ?_
  · rintro (rf | -)
    · exact safe_run _
    · refine Prog.Good.bind (Prog.good_work (by simp) _) fun _ => ?_
      exact safe_silent readSkipped_takes (fun _ => Prog.good_pure ()) fun _ _ => rfl
  · intro p e hp hfine
    exact .inl (mem_unfinished hfine hp)

/-! ## The loop -/

theorem safe_docommand (count : Nat) (c : Command) : Safe env q (docommand env count c) := by
  rcases c with ⟨name, tag, date, revnum, revdate, attr⟩ | ⟨update, name, tag, date, attr⟩ |
    ⟨name, tag, date, expand, attr, wantmd5⟩ | ⟨isfixup, name, tag, date, revnum, revdate, attr⟩ |
    name | ⟨attic, isfixup, name, attr⟩ | ⟨name, attr, blocksize, wantmd5⟩ | name | name |
    ⟨name, attr⟩ | name | ⟨attic, name, attr⟩ | ⟨attic, name, attr⟩ |
    ⟨attic, name, attr, rcsopt, wantmd5⟩ | ⟨name, attr, pos⟩ | msg
  · exact (safe_run _).map _
  · exact safe_run _
  · exact (safe_cmdDiff ..).map _
  · exact (safe_cmdCheckout ..).map _
  · exact safe_run _
  · exact (safe_cmdAddfile ..).map _
  · exact (safe_cmdRsync ..).map _
  · exact (safe_run _).map _
  · exact (safe_run _).map _
  · exact (safe_run _).map _
  · exact (safe_run _).map _
  · exact (safe_run _).map _
  · exact (safe_run _).map _
  · exact (safe_cmdRcsedit ..).map _
  · exact (safe_cmdAppend ..).map _
  · exact Prog.good_pure _

theorem safe_doline (count : Nat) (line : Option Command) : Safe env q (doline env count line) := by
  rcases line with - | c
  · exact Prog.good_pure _
  · exact (safe_docommand count c).map _

theorem log_map (f : α → β) (m : Session W α) (p : List Byte) (w : W) :
    ((f <$> m) p w).log = (m p w).log := by
  show (Prog.bind m (fun a => Prog.pure (f a)) p w).log = (m p w).log
  rcases h : (m p w).val with e | a
  · rw [Prog.bind_error h]
  · rw [Prog.bind_ok h]
    exact List.append_nil _

theorem log_doline (count : Nat) (c : Command) (p : List Byte) (w : W) :
    (doline env count (some c) p w).log = (docommand env count c p w).log := log_map _ _ p w

/-- Where attributes are read, what follows may depend on them but for its log. -/
theorem log_decode_mono {attr attr' : List Byte} {fa : Attrs.Fattr}
    (h : fattrDecode env.fflags env.ids attr' = .ok fa) {k k' : Attrs.Fattr → Task W α}
    (hk : ∀ fa₀ w, (k fa₀ w).log <+: (k' fa w).log) (w : W) :
    ((decode env attr >>= k) w).log <+: ((decode env attr' >>= k') w).log := by
  have hfull : ((decode env attr' >>= k') w).log = (k' fa w).log := by
    rw [decode, h]
    rfl
  rw [hfull, decode]
  rcases fattrDecode env.fflags env.ids attr with (- | -) | fa₀
  · exact List.nil_prefix
  · exact List.nil_prefix
  · exact hk fa₀ w

theorem silent_cmdDiff (name tag date expand attr wantmd5 : List Byte) :
    Prog.Silent (cmdDiff env name tag date expand attr wantmd5) :=
  silent_run (quiet_openDiff _ _ _) fun _ => ((readLines_nil ⟨_, rfl⟩).bind _).silent

theorem silent_cmdRsync (name attr blocksize wantmd5 : List Byte) :
    Prog.Silent (cmdRsync env name attr blocksize wantmd5) :=
  silent_run (quiet_openRsync _ _) fun _ => ((readLines_nil (readRsync_nil _ _)).bind _).silent

theorem silent_cmdAppend (name attr pos : List Byte) :
    Prog.Silent (cmdAppend env name attr pos) :=
  silent_run (quiet_openAppend _ _) fun _ => silent_getFile _ _ _ _

/-- What comes before anything is read is logged at the end of the stream too. -/
theorem log_run_cut {t t' : Task W α} {k k' : α → Session W β} (hk : ∀ a, Prog.Silent (k a))
    (ht : ∀ w, (t w).log <+: (t' w).log) (rest : List Byte) (w : W) :
    ((run t >>= k) [] w).log <+: ((run t' >>= k') rest w).log := by
  have hlog : ((run t >>= k) [] w).log = (t w).log := Prog.log_work_silent some hk w
  rw [hlog]
  exact (ht w).trans (Prog.log_work_bind some t' k' rest w)

theorem log_cmdCheckout_cut {isfixup : Bool} {name tag date revnum revdate attr attr' : List Byte}
    {fa : Attrs.Fattr} (h : fattrDecode env.fflags env.ids attr' = .ok fa) (rest : List Byte)
    (w : W) :
    (cmdCheckout env isfixup name tag date revnum revdate attr [] w).log <+:
      (cmdCheckout env isfixup name tag date revnum revdate attr' rest w).log :=
  log_run_cut (fun _ => ((readLines_nil ⟨_, rfl⟩).bind _).silent)
    (log_decode_mono h fun _ => Work.log_bind_mono fun _ _ => List.nil_prefix) rest w

theorem log_cmdAddfile_cut {attic isfixup : Bool} {name attr attr' : List Byte}
    {fa : Attrs.Fattr} (h : fattrDecode env.fflags env.ids attr' = .ok fa) (rest : List Byte)
    (w : W) : (cmdAddfile env attic isfixup name attr [] w).log <+:
      (cmdAddfile env attic isfixup name attr' rest w).log := by
  refine log_run_cut (fun _ => silent_getFile _ _ _ _) ?_ rest w
  refine Work.log_bind_mono fun fup => Work.log_bind_mono fun temppath => ?_
  exact log_decode_mono h fun _ => Work.log_bind_mono fun _ _ => List.prefix_rfl

theorem log_cmdRcsedit_cut (attic : Bool) (name attr wantmd5 wantmd5' rest : List Byte) (w : W) :
    (cmdRcsedit env attic name attr wantmd5 [] w).log <+:
      (cmdRcsedit env attic name attr wantmd5' rest w).log :=
  log_run_cut (fun _ => ((readLines_nil ⟨_, rfl⟩).bind _).silent) (fun _ => List.prefix_rfl) rest w

theorem log_cmdDead_cut {update : Bool} {name tag date attr : List Byte} (attr' : List Byte)
    (h : fattrDecode env.fflags env.ids attr = .error .bad) (count : Nat) (w : W) :
    (cmdDead env update name tag date attr count w).log <+:
      (cmdDead env update name tag date attr' count w).log := by
  refine Work.log_bind_mono (fun count w => ?_) w
  rw [log_decode_bad h _ w]
  exact List.nil_prefix

/-- What a command on a cut line does at the end of the stream: nothing, or what
the command on the whole line does too. -/
theorem log_docommand_cut {c : Command} {c' : Except Halt (Option Command)} (count : Nat)
    (hc : Harmless env c c') :
    c' = .ok (some c) ∨ Prog.Silent (docommand env count c) ∨
      ∃ c'', c' = .ok (some c'') ∧ ∀ rest w,
        (docommand env count c [] w).log <+: (docommand env count c'' rest w).log := by
  rcases hc with hsame | hc
  · exact .inl hsame
  -- the log of a command whose value is not asked for
  have map {m m' : Session W Unit} {rest : List Byte} {w : W}
      (h : (m [] w).log <+: (m' rest w).log) :
      (((fun _ => count) <$> m) [] w).log <+: (((fun _ => count) <$> m') rest w).log := by
    rwa [log_map, log_map]
  have silent {m : Session W Unit} (h : Prog.Silent m) :
      Prog.Silent ((fun _ => count) <$> m) := fun w => (log_map _ m [] w).trans (h w)
  refine .inr ?_
  rcases c with ⟨name, tag, date, revnum, revdate, attr⟩ | ⟨update, name, tag, date, attr⟩ |
    ⟨name, tag, date, expand, attr, wantmd5⟩ | ⟨isfixup, name, tag, date, revnum, revdate, attr⟩ |
    name | ⟨attic, isfixup, name, attr⟩ | ⟨name, attr, blocksize, wantmd5⟩ | name | name |
    ⟨name, attr⟩ | name | ⟨attic, name, attr⟩ | ⟨attic, name, attr⟩ |
    ⟨attic, name, attr, rcsopt, wantmd5⟩ | ⟨name, attr, pos⟩ | msg
  case setattrs => exact .inl (silent (silent_run_quiet (log_decode_bad hc _)))
  case dead =>
    obtain ⟨hbad, attr', rfl⟩ := hc
    exact .inr ⟨_, rfl, fun rest w => log_cmdDead_cut attr' hbad count w⟩
  case diff => exact .inl (silent (silent_cmdDiff _ _ _ _ _ _))
  case checkout =>
    rcases hc with hbad | ⟨attr', fa, rfl, hfa⟩
    · refine .inl (silent (silent_run (log_decode_bad hbad _) fun _ => ?_))
      exact ((readLines_nil ⟨_, rfl⟩).bind _).silent
    · exact .inr ⟨_, rfl, fun rest w => map (log_cmdCheckout_cut hfa rest w)⟩
  case delete => exact hc.elim
  case addfile =>
    rcases hc with hbad | ⟨attr', fa, rfl, hfa⟩
    · refine .inl (silent (silent_run ?_ fun _ => silent_getFile _ _ _ _))
      exact (quiet_prepare _ _).bind fun _ => (quiet_tempname _).bind fun _ => log_decode_bad hbad _
    · exact .inr ⟨_, rfl, fun rest w => map (log_cmdAddfile_cut hfa rest w)⟩
  case rsync => exact .inl (silent (silent_cmdRsync _ _ _ _))
  case dirdown => exact hc.elim
  case rmdown => exact hc.elim
  case dirup =>
    exact .inl (silent (silent_run_quiet ((quiet_prepare _ _).bind fun _ => log_decode_bad hc _)))
  case rmup => exact hc.elim
  case record => exact .inl (silent (silent_run_quiet (log_decode_bad hc _)))
  case node =>
    exact .inl (silent (silent_run_quiet ((quiet_prepare _ _).bind fun _ => log_decode_bad hc _)))
  case rcsedit =>
    obtain ⟨wantmd5', rfl⟩ := hc
    exact .inr ⟨_, rfl, fun rest w => map (log_cmdRcsedit_cut _ _ _ _ _ _ _)⟩
  case append => exact .inl (silent (silent_cmdAppend _ _ _))
  case warning => exact .inl fun _ => rfl

theorem readCommand_takes (c : Option Command) :
    TakesLines (fun l l' => parseCommand l' = parseCommand l) readCommand c := oneLine_takes _ _ c

/-- A round of the loop. -/
theorem safe_docollStep (count : Nat) : Safe env q (docollStep env count) := by
  refine safe_readLines (safe_doline count) ⟨_, rfl⟩
    (fun p c rest h => (onLines_length (readCommand_takes c) h).le) ?_
  intro p line rest h
  rcases onLines_oneLine h with hset | ⟨hr, hne, hp, hq⟩
  · exact .inl hset
  · refine .inr ⟨hr, fun hfine => ?_⟩
    rcases line with - | c
    · exact .inr fun _ => List.nil_prefix
    have hf := mem_unfinished hfine (by rwa [hp])
    rw [hp] at hf
    have hparse : parseCommand p = .ok (some c) := by
      have hp' := hq []
      rw [List.append_nil, show lineOf nl ([] : List Byte) = [] from rfl, List.append_nil] at hp'
      rcases hc : parseCommand p with e | c'
      · rw [hc] at hp'
        cases h.symm.trans hp'
      · rw [hc] at hp'
        rw [(Prod.mk.inj (Except.ok.inj (h.symm.trans hp'))).1]
    rcases log_docommand_cut count (hf c hparse) with hsame | hsilent | ⟨c', hc', hlog⟩
    · refine .inl ⟨behindLine nl q, ?_⟩
      rw [readCommand, hq, hsame]
      rfl
    · refine .inr fun w => ?_
      rw [log_doline, hsilent w]
      exact List.nil_prefix
    · refine .inr fun w => ?_
      have hread : onLines nl readCommand (p ++ q) = .ok (some c', behindLine nl q) := by
        rw [readCommand, hq, hc']
        rfl
      rw [log_readLines hread, log_doline, log_doline]
      exact hlog _ w

theorem docollStep_quits (count : Nat) : Prog.Quits (docollStep env count) :=
  (readLines_nil ⟨_, rfl⟩).bind _

/-- A round that is not the last has read a command. -/
theorem docollStep_reads {count : Nat} {p : List Byte} {w : W} {count' : Nat}
    (h : (docollStep env count p w).val = .ok (.inl count')) :
    (docollStep env count p w).input.length < p.length := by
  rcases hread : onLines nl readCommand p with e | ⟨line, rest⟩
  · have hval : (readLines (fun p _ => unfinished .command p) readCommand p w :
        Framework.Result _ _ Action _ _).val = .error (some (.halt e)) := by
      simp only [readLines, Prog.read, hread, Except.mapError]
    rw [docollStep, Prog.bind_error hval] at h
    cases h
  · have hmap : (onLines nl readCommand p).mapError (fun h => some (Stop.halt h)) =
        .ok (line, rest) := by
      rw [hread]
      rfl
    have hstep : (docollStep env count p w).input = (doline env count line rest w).input := by
      simp only [docollStep, Prog.bind, readLines, Prog.read, hmap]
    rw [hstep]
    have hsafe : Safe env [] (doline env count line) := safe_doline count line
    have hshort := hsafe.short rest w
    have hlen := onLines_length (readCommand_takes line) hread
    omega

theorem safe_docoll (env : Env W F D) (q : List Byte) (count : Nat) :
    Safe env q (docoll env count) :=
  Prog.good_loop safe_docollStep docollStep_quits (fun _ _ _ _ h => docollStep_reads h) count

/-- `updater_docoll` reads a line in every round, so it comes to an end. -/
theorem docoll_ends (env : Env W F D) (count : Nat) (p : List Byte) (w : W) :
    (docoll env count p w).val ≠ .error none := (safe_docoll env [] count).moves p w

/-- What is done on the beginning of a stream, if every line that its end cuts
is harmless, is a beginning of what is done on all of it. -/
theorem docoll_log_starts (env : Env W F D) (count : Nat) (p q : List Byte) (w : W)
    (h : ∀ r ∈ (docoll env count p w).notes, Fine env q r) :
    (docoll env count p w).log <+: (docoll env count (p ++ q) w).log :=
  (safe_docoll env q count).log_starts h

/-! ## A collection of two files -/

/-- The files are those of a list; what is deleted is gone from it. -/
def listHost : Host (List Path) where
  access path fs := decide (path ∈ fs)
  frompath path fs := if path ∈ fs then some (Attrs.fattrNewOf false .file none) else none
  frompathFollow path fs := if path ∈ fs then some (Attrs.fattrNewOf false .file none) else none
  read path fs := if path ∈ fs then some [] else none
  files fs path := if path ∈ fs then some (.file []) else none
  delete path fs := fs.filter (· ≠ path)
  rmdir path fs := (decide (path ∈ fs), fs.filter (· ≠ path))
  mkdirhier _ fs := (true, fs)
  makenode _ path fs := (true, path :: fs)
  install _ topath frompath fs := (.changed, topath :: fs.filter (some · ≠ frompath))
  statusPut _ fs := (true, fs)
  statusDelete _ _ fs := (true, fs)
  fixupsPut _ fs := fs
  tempname path fs := (path ++ [35], fs)
  create path fs := (true, path :: fs)
  write _ _ fs := (true, fs)

/-- A collection in CVS mode below `r`. -/
def listEnv : Env (List Path) Unit Unit where
  host := listHost
  api :=
    { frompath := fun _ _ => none
      setbranch := fun _ f => f
      setexpand := fun _ f => f
      addtag := fun _ _ f => f
      deletetag := fun _ _ f => f
      deleterev := fun f _ => .ok f
      addelta := fun f _ _ _ _ => .ok (f, none)
      setstate := fun f _ _ => .ok f
      appendlog := fun f _ _ => f
      appendtext := fun f _ _ => f
      truncatelog := fun f _ => .ok f
      truncatetext := fun f _ => .ok f
      write := fun _ => .ok [] }
  md5 := id
  md5rcs := id
  timegm := fun _ => none
  fflags := false
  ids := ⟨fun _ => none, fun _ => none, fun _ => none, fun _ => none⟩
  deletelim := -1
  coll :=
    { exactrcs := false, keepbadfiles := false, pre := bytes ['r'], checkoutmode := false
      delete := true, umask := 0, cvsroot := none, keyword := ⟨[], 0, 0⟩ }

/-- A line cut inside a warning, behind a command. -/
theorem docoll_log_starts_warning :
    (docoll listEnv 0 (bytes ['D', ' ', 'a', ',', 'v', '\n', '!', ' ', 'm'])
        [bytes ['r', '/', 'a', ',', 'v']]).log <+:
      (docoll listEnv 0 (bytes ['D', ' ', 'a', ',', 'v', '\n', '!', ' ', 'm'] ++
        bytes ['s', 'g', '\n', '.', '\n']) [bytes ['r', '/', 'a', ',', 'v']]).log := by
  refine docoll_log_starts listEnv 0 _ _ _ fun r hr => ?_
  have hnotes : (docoll listEnv 0 (bytes ['D', ' ', 'a', ',', 'v', '\n', '!', ' ', 'm'])
      [bytes ['r', '/', 'a', ',', 'v']]).notes = [.command (bytes ['!', ' ', 'm'])] := rfl
  rw [hnotes, List.mem_singleton] at hr
  subst hr
  intro c hc
  have hwarning : parseCommand (bytes ['!', ' ', 'm']) = .ok (some (.warning [109])) := rfl
  obtain rfl : Command.warning [109] = c := Option.some.inj (Except.ok.inj (hwarning.symm.trans hc))
  exact .inr trivial

/-- `D a,v` is cut behind `a`: another file is deleted. -/
theorem not_docoll_log_starts :
    ¬ (docoll listEnv 0 (bytes ['D', ' ', 'a'])
        [bytes ['r', '/', 'a'], bytes ['r', '/', 'a', ',', 'v']]).log <+:
      (docoll listEnv 0 (bytes ['D', ' ', 'a'] ++ bytes [',', 'v', '\n', '.', '\n'])
        [bytes ['r', '/', 'a'], bytes ['r', '/', 'a', ',', 'v']]).log := by
  have hcut : (docoll listEnv 0 (bytes ['D', ' ', 'a'])
      [bytes ['r', '/', 'a'], bytes ['r', '/', 'a', ',', 'v']]).log =
        [.delete (bytes ['r', '/', 'a']), .statusDelete (bytes ['a']) false] := rfl
  have hwhole : (docoll listEnv 0 (bytes ['D', ' ', 'a'] ++ bytes [',', 'v', '\n', '.', '\n'])
      [bytes ['r', '/', 'a'], bytes ['r', '/', 'a', ',', 'v']]).log =
        [.delete (bytes ['r', '/', 'a', ',', 'v']),
          .statusDelete (bytes ['a', ',', 'v']) false] := rfl
  rw [hcut, hwhole, List.cons_prefix_cons]
  rintro ⟨h, -⟩
  exact absurd (Action.delete.inj h) (by decide)

end Csup.Docoll
