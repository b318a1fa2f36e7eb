import Csup.Updater.Commands

/-!
# What the readers of an update take of the stream

A reader of lines goes by the lines it takes, whatever is behind them
(`TakesLines`): the loops of `updater_diff` (`readDeltas_takes`), of
`updater_rcsedit` (`readEdits_takes`) and over the text and the chunks of a file.
`Takes` says so of one run of a loop that counts its rounds; it has as many as
there are lines.
-/

namespace Csup.Updater

open Csup.Diff (Line Expander File ApplySt applyOn diffApplyOn diffGeteditcmd diffCopyln
  ignoreLines)
open Csup.Framework (TakesLines)
open Csup.Keyword (keywordDecodeExpand)
open Csup.Proto

variable {β E : Type*}

/-! ## Loops that count -/

/-- From `ls`, the loop takes what is in front of `rest`. -/
def Takes (same : Line → Line → Prop) (f : Nat → List Line → Except E (β × List Line))
    (ls : List Line) (b : β) (rest : List Line) : Prop :=
  ∃ used l, ls = used ++ l :: rest ∧ ∀ l' t fuel, same l l' → used.length < fuel →
    f fuel (used ++ l' :: t) = .ok (b, t)

/-- What a part of the loop takes that leaves `rest`. -/
def TakesFront (f : List Line → Except E (β × List Line)) (ls : List Line) (b : β)
    (rest : List Line) : Prop :=
  ∃ front, ls = front ++ rest ∧ ∀ t, f (front ++ t) = .ok (b, t)

section

variable {same : Line → Line → Prop} {f g : Nat → List Line → Except E (β × List Line)}

theorem takes_head {l : Line} {b : β} {rest : List Line}
    (h : ∀ fuel l' t, same l l' → f (fuel + 1) (l' :: t) = .ok (b, t)) :
    Takes same f (l :: rest) b rest := by
  refine ⟨[], l, rfl, ?_⟩
  intro l' t fuel hsame hfuel
  obtain ⟨n, rfl⟩ : ∃ n, fuel = n + 1 := ⟨fuel - 1, by simp at hfuel; omega⟩
  exact h n l' t hsame

/-- The loop takes a line and some more, then goes on. -/
theorem Takes.cons {l : Line} {ls : List Line} {b : β} {rest : List Line}
    (hg : Takes same g ls b rest) (front : List Line)
    (h : ∀ fuel ls, f (fuel + 1) (l :: (front ++ ls)) = g fuel ls) :
    Takes same f (l :: (front ++ ls)) b rest := by
  obtain ⟨used, l₁, rfl, htakes⟩ := hg
  refine ⟨l :: (front ++ used), l₁, by simp, ?_⟩
  intro l' t fuel hsame hfuel
  rw [List.length_cons, List.length_append] at hfuel
  obtain ⟨n, rfl⟩ : ∃ n, fuel = n + 1 := ⟨fuel - 1, by omega⟩
  rw [List.cons_append, List.append_assoc, h]
  exact htakes l' t n hsame (by omega)

/-- The rounds of the loop are as many as the lines. -/
theorem takesLines_of_takes {b : β} (h : ∀ fuel ls rest, f fuel ls = .ok (b, rest) →
    Takes same f ls b rest) : TakesLines same (fun ls => f ls.length ls) b := by
  intro ls rest hf
  obtain ⟨used, l, hls, htakes⟩ := h ls.length ls rest hf
  refine ⟨used, l, hls, ?_⟩
  intro l' t hsame
  exact htakes l' t _ hsame (by simp)

theorem TakesLines.front {f : List Line → Except E (β × List Line)} {b : β}
    (hf : TakesLines Eq f b) {ls rest : List Line} (h : f ls = .ok (b, rest)) :
    TakesFront f ls b rest := by
  obtain ⟨used, l, rfl, htakes⟩ := hf ls rest h
  refine ⟨used ++ [l], by simp, fun t => ?_⟩
  rw [List.append_assoc, List.singleton_append]
  exact htakes l t rfl

theorem TakesFront.cons {f : List Line → Except E (β × List Line)} {l : Line} {ls : List Line}
    {b : β} {rest : List Line} (h : TakesFront f ls b rest)
    {g : List Line → Except E (β × List Line)} (hg : ∀ ls, g (l :: ls) = f ls) :
    TakesFront g (l :: ls) b rest := by
  obtain ⟨front, rfl, htakes⟩ := h
  refine ⟨l :: front, rfl, fun t => ?_⟩
  rw [List.cons_append, hg, htakes]

end

/-! ## `updater_diff` -/

theorem skipLog_takes {rd rest : List Line} (h : skipLog rd = some rest) :
    ∃ front, rd = front ++ rest ∧ ∀ t, skipLog (front ++ t) = some t := by
  induction rd with
  | nil => cases h
  | cons l rd ih =>
    rw [skipLog] at h
    by_cases hl : cline l = [46] ∨ cline l = [46, 43]
    · rw [if_pos hl] at h
      obtain rfl := Option.some.inj h
      refine ⟨[l], rfl, fun t => ?_⟩
      rw [List.singleton_append, skipLog, if_pos hl]
    · rw [if_neg hl] at h
      obtain ⟨front, rfl, htakes⟩ := ih h
      refine ⟨l :: front, rfl, fun t => ?_⟩
      rw [List.cons_append, skipLog, if_neg hl, htakes]

theorem applyOn_takes {exp : Expander} {rd rest : List Line} {pending : Nat}
    {st st' : ApplySt} {line : Line}
    (h : applyOn exp true rd pending st = some (some line, rest, st')) :
    ∃ front, rd = front ++ rest ∧
      ∀ t, applyOn exp true (front ++ t) pending st = some (some line, t, st') := by
  -- a line that is not the last is in front of what the rest takes
  have step {l : Line} {rd : List Line} {pending pending' : Nat} {st st₂ : ApplySt}
      (hstep : ∀ rd, applyOn exp true (l :: rd) pending st = applyOn exp true rd pending' st₂)
      (ih : ∃ front, rd = front ++ rest ∧
        ∀ t, applyOn exp true (front ++ t) pending' st₂ = some (some line, t, st')) :
      ∃ front, l :: rd = front ++ rest ∧
        ∀ t, applyOn exp true (front ++ t) pending st = some (some line, t, st') := by
    obtain ⟨front, rfl, htakes⟩ := ih
    refine ⟨l :: front, rfl, fun t => ?_⟩
    rw [List.cons_append, hstep, htakes]
  induction rd generalizing pending st with
  | nil => rcases pending with - | pending <;> simp [applyOn] at h
  | cons l rd ih =>
    rcases pending with - | pending
    · simp only [applyOn] at h
      by_cases hstop : cline l = [46] ∨ cline l = [46, 43]
      · rw [if_pos hstop] at h
        simp only [Option.some.injEq, Prod.mk.injEq] at h
        obtain ⟨rfl, rfl, rfl⟩ := h
        refine ⟨[l], rfl, fun t => ?_⟩
        simp only [List.singleton_append, applyOn, if_pos hstop]
      rw [if_neg hstop] at h
      by_cases hnil : cline l = []
      · rw [if_pos hnil] at h
        by_cases hempty : st.empty = true
        · rw [if_pos hempty] at h
          cases h
        · rw [if_neg hempty] at h
          refine step (fun rd => ?_) (ih h)
          simp only [applyOn, if_neg hstop, if_pos hnil, if_neg hempty]
      rw [if_neg hnil] at h
      rcases hec : diffGeteditcmd st.ec (cline l) with - | ec
      · simp [hec] at h
      rcases hc : ec.cmd with - | -
      · simp only [hec, hc] at h
        rcases hcopy : diffCopyln exp st.cur ec.whereLine with ⟨cur, - | -⟩
        · simp [hcopy] at h
        · simp only [hcopy] at h
          refine step (fun rd => ?_) (ih h)
          simp only [applyOn, if_neg hstop, if_neg hnil, hec, hc, hcopy]
      · simp only [hec, hc] at h
        rcases hcopy : diffCopyln exp st.cur (ec.whereLine - 1) with ⟨cur, - | -⟩
        · simp [hcopy] at h
        simp only [hcopy] at h
        rcases hignore : ignoreLines ec.count.toNat cur with ⟨cur', - | -⟩
        · simp [hignore] at h
        · simp only [hignore] at h
          refine step (fun rd => ?_) (ih h)
          simp only [applyOn, if_neg hstop, if_neg hnil, hec, hc, hcopy, hignore]
    · simp only [applyOn] at h
      exact step (fun rd => by simp only [applyOn]) (ih h)

theorem diffApplyOn_takes {exp : Expander} {rd rest : List Line} {orig : List Byte}
    {dest dest' : File} (h : diffApplyOn exp true rd orig dest = some (dest', rest)) :
    ∃ front, rd = front ++ rest ∧
      ∀ t, diffApplyOn exp true (front ++ t) orig dest = some (dest', t) := by
  unfold diffApplyOn at h
  rcases hrun : applyOn exp true rd 0 ⟨.zero, ⟨Framework.splitLines nl orig, [], 0⟩, false⟩ with
    - | ⟨- | line, rest', st⟩
  · simp [hrun] at h
  · simp [hrun] at h
  · simp only [hrun] at h
    obtain ⟨front, rfl, htakes⟩ := applyOn_takes hrun
    refine ⟨front, ?_, fun t => ?_⟩
    · split at h
      · simp at h
      · split at h
        · obtain ⟨_, -, hr⟩ := Option.map_eq_some_iff.mp h
          rw [(Prod.mk.inj hr).2]
        · rw [(Prod.mk.inj (Option.some.inj h)).2]
    · simp only [diffApplyOn, htakes]
      split at h
      · simp at h
      · rename_i hc
        rw [if_neg hc]
        split at h
        · rename_i hplus
          rw [if_pos hplus]
          obtain ⟨_, hd, hr⟩ := Option.map_eq_some_iff.mp h
          rw [hd, (Prod.mk.inj hr).1]
          rfl
        · rename_i hplus
          rw [if_neg hplus, (Prod.mk.inj (Option.some.inj h)).1]

theorem updaterDiffApply_takes {env : DiffEnv} {delta : DeltaInfo} {state : Option (List Byte)}
    {orig : List Byte} {dest dest' : File} {rd rest : List Line}
    (h : updaterDiffApply env delta state orig dest rd = .ok (dest', rest)) :
    TakesFront (updaterDiffApply env delta state orig dest) rd dest' rest := by
  unfold updaterDiffApply at h
  rcases hdi : diffinfo env delta state with - | di
  · rw [hdi] at h
    cases h
  · rw [hdi] at h
    dsimp only at h
    rcases hrun : diffApplyOn (expander env.keyword di) true rd orig dest with - | r
    · rw [hrun] at h
      cases h
    · rw [hrun] at h
      obtain rfl := Except.ok.inj h
      obtain ⟨front, hrd, htakes⟩ := diffApplyOn_takes hrun
      refine ⟨front, hrd, fun t => ?_⟩
      simp only [updaterDiffApply, hdi, htakes]

theorem batchLoop_takes {env : DiffEnv} {delta : DeltaInfo} (fuel : Nat)
    {state : Option (List Byte)} {orig : List Byte} {dest dest' : File} {rd rest : List Line}
    (h : batchLoop env delta fuel state orig dest rd = .ok (dest', rest)) :
    Takes Eq (fun fuel => batchLoop env delta fuel state orig dest) rd dest' rest := by
  induction fuel generalizing state orig dest rd with
  | zero => rcases rd with - | ⟨l, rd⟩ <;> simp [batchLoop] at h
  | succ fuel ih =>
    rcases rd with - | ⟨l, rd⟩
    · simp [batchLoop] at h
    rw [batchLoop] at h
    rcases hchar : protoGetChar (some (cline l)) with ⟨- | cmd, line⟩
    · simp [hchar] at h
    simp only [hchar] at h
    by_cases hdot : cmd = 46 ∧ line = none
    · rw [if_pos hdot] at h
      obtain ⟨rfl, rfl⟩ := Prod.mk.inj (Except.ok.inj h)
      refine takes_head ?_
      rintro fuel _ t rfl
      simp only [batchLoop, hchar, if_pos hdot]
    rw [if_neg hdot] at h
    by_cases hL : cmd = 76
    · rw [if_pos hL] at h
      rcases hskip : skipLog rd with - | rd'
      · simp [hskip] at h
      · simp only [hskip] at h
        obtain ⟨front, rfl, htakes⟩ := skipLog_takes hskip
        refine (ih h).cons front fun fuel ls => ?_
        simp only [batchLoop, hchar, if_neg hdot, if_pos hL, htakes]
    rw [if_neg hL] at h
    by_cases hS : cmd = 83
    · rw [if_pos hS] at h
      rcases htok : protoGetAscii line with ⟨- | tok, - | line'⟩
      · simp [htok] at h
      · simp [htok] at h
      · simp only [htok] at h
        refine (ih h).cons [] fun fuel ls => ?_
        simp only [batchLoop, hchar, if_neg hdot, if_neg hL, if_pos hS, htok, List.nil_append]
      · simp [htok] at h
    rw [if_neg hS] at h
    by_cases hT : cmd = 84
    · rw [if_pos hT] at h
      rcases happ : updaterDiffApply env delta state orig dest rd with e | ⟨dest₁, rd₁⟩
      · simp [happ, bind, Except.bind] at h
      · simp only [happ, bind, Except.bind] at h
        obtain ⟨front, rfl, htakes⟩ := updaterDiffApply_takes happ
        refine (ih h).cons front fun fuel ls => ?_
        simp only [batchLoop, hchar, if_neg hdot, if_neg hL, if_neg hS, if_pos hT, htakes, bind,
          Except.bind]
    · simp [if_neg hT] at h

theorem updaterDiffBatch_takes {env : DiffEnv} {delta : DeltaInfo} {orig : List Byte}
    {dest dest' : File} {rd rest : List Line}
    (h : updaterDiffBatch env delta orig dest rd = .ok (dest', rest)) :
    TakesFront (updaterDiffBatch env delta orig dest) rd dest' rest :=
  TakesLines.front (takesLines_of_takes fun fuel _ _ h => batchLoop_takes fuel h) h

theorem deltaLoop_takes {env : DiffEnv} {file : Option (List Byte)} (fuel : Nat)
    {last last' : Option (File × DeltaInfo)} {rd rest : List Line}
    (h : deltaLoop env file fuel last rd = .ok (last', rest)) :
    Takes (fun l l' => protoGetChar (some (cline l')) = protoGetChar (some (cline l)))
      (fun fuel => deltaLoop env file fuel last) rd last' rest := by
  induction fuel generalizing last rd with
  | zero => rcases rd with - | ⟨l, rd⟩ <;> simp [deltaLoop] at h
  | succ fuel ih =>
    rcases rd with - | ⟨l, rd⟩
    · simp [deltaLoop] at h
    rw [deltaLoop] at h
    rcases hchar : protoGetChar (some (cline l)) with ⟨- | cmd, line⟩
    · simp [hchar] at h
    simp only [hchar] at h
    by_cases hdot : cmd = 46 ∧ line = none
    · rw [if_pos hdot] at h
      obtain ⟨rfl, rfl⟩ := Prod.mk.inj (Except.ok.inj h)
      refine takes_head ?_
      intro fuel l' t hl'
      simp only [deltaLoop, hl', hchar, if_pos hdot]
    rw [if_neg hdot] at h
    by_cases hD : cmd = 68
    · rw [if_neg (not_not.mpr hD)] at h
      rcases hdelta : getDelta line with e | delta
      · simp [hdelta, bind, Except.bind] at h
      simp only [hdelta, bind, Except.bind] at h
      rcases horig : last.elim file fun last => some last.1.data with - | orig
      · simp [horig] at h
      simp only [horig] at h
      rcases hbatch : updaterDiffBatch env delta orig .empty rd with e | ⟨dest, rd₁⟩
      · simp [hbatch] at h
      simp only [hbatch] at h
      obtain ⟨front, rfl, htakes⟩ := updaterDiffBatch_takes hbatch
      refine (ih h).cons front fun fuel ls => ?_
      simp only [deltaLoop, hchar, if_neg hdot, if_neg (not_not.mpr hD), hdelta, horig, htakes,
        bind, Except.bind]
    · rw [if_pos hD] at h
      cases h

/-- The end of the deltas is a line whose letter is read. -/
theorem readDeltas_takes (env : DiffEnv) (file : Option (List Byte))
    (last : Option (File × DeltaInfo)) :
    TakesLines (fun l l' => protoGetChar (some (cline l')) = protoGetChar (some (cline l)))
      (readDeltas env file) last :=
  takesLines_of_takes fun fuel _ _ h => deltaLoop_takes fuel h

/-- The loop is that of `updater_diff`, with the last delta. -/
theorem diffLoop_eq_deltaLoop (env : DiffEnv) (file : Option (List Byte)) (fuel : Nat)
    (last : Option (File × DeltaInfo)) (rd : List Line) :
    diffLoop env file fuel (last.map Prod.fst) rd =
      (deltaLoop env file fuel last rd).map fun r => (r.1.map Prod.fst, r.2) := by
  induction fuel generalizing last rd with
  | zero => rcases rd with - | ⟨l, rd⟩ <;> rfl
  | succ fuel ih =>
    rcases rd with - | ⟨l, rd⟩
    · rfl
    rw [diffLoop, deltaLoop]
    rcases protoGetChar (some (cline l)) with ⟨- | cmd, line⟩
    · rfl
    dsimp only
    split
    · rfl
    split
    · rfl
    rcases getDelta line with e | delta
    · rfl
    simp only [bind, Except.bind]
    have horig : ((last.map Prod.fst).elim file fun dest => some dest.data) =
        last.elim file fun last => some last.1.data := by cases last <;> rfl
    rw [horig]
    rcases last.elim file fun last => some last.1.data with - | orig
    · rfl
    dsimp only
    rcases updaterDiffBatch env delta orig .empty rd with e | ⟨dest, rd₁⟩
    · rfl
    · exact ih (some (dest, delta)) rd₁

/-! ## `updater_rcsedit` -/

section

variable {F D : Type} {api : RcsApi F D}

theorem addeltaLoop_takes {d : D} {part : Option Part} {cmd : Option Byte} {f f' : F}
    {ls rest : List Line} (hrest : rest ≠ [])
    (h : addeltaLoop api d part cmd f ls = .ok (f', rest)) :
    TakesFront (addeltaLoop api d part cmd f) ls f' rest := by
  induction ls generalizing part cmd f with
  | nil =>
    rcases part with - | part
    · rw [addeltaLoop] at h
      split at h
      · obtain ⟨-, rfl⟩ := Prod.mk.inj (Except.ok.inj h)
        exact absurd rfl hrest
      · cases h
    · cases h
  | cons l ls ih =>
    rcases part with - | part
    · rw [addeltaLoop] at h
      rcases hchar : protoGetChar (some (cline l)) with ⟨- | c, line⟩
      · simp [hchar] at h
      simp only [hchar] at h
      by_cases hdot : c = 46 ∧ line = none
      · rw [if_pos hdot] at h
        obtain ⟨rfl, rfl⟩ := Prod.mk.inj (Except.ok.inj h)
        refine ⟨[l], rfl, fun t => ?_⟩
        simp only [List.singleton_append, addeltaLoop, hchar, if_pos hdot]
      rw [if_neg hdot] at h
      by_cases hL : c = 76
      · rw [if_pos hL] at h
        refine (ih h).cons fun ls => ?_
        simp only [addeltaLoop, hchar, if_neg hdot, if_pos hL]
      rw [if_neg hL] at h
      by_cases hS : c = 83
      · rw [if_pos hS] at h
        rcases hst : (protoGetAscii line).1 with - | state
        · simp [hst] at h
        simp only [hst] at h
        rcases hset : orErr .proto (api.setstate f d state) with e | f₁
        · simp [hset, bind, Except.bind] at h
        simp only [hset, bind, Except.bind] at h
        refine (ih h).cons fun ls => ?_
        simp only [addeltaLoop, hchar, if_neg hdot, if_neg hL, if_pos hS, hst, hset, bind,
          Except.bind]
      rw [if_neg hS] at h
      by_cases hT : c = 84
      · rw [if_pos hT] at h
        refine (ih h).cons fun ls => ?_
        simp only [addeltaLoop, hchar, if_neg hdot, if_neg hL, if_neg hS, if_pos hT]
      · rw [if_neg hT] at h
        refine (ih h).cons fun ls => ?_
        simp only [addeltaLoop, hchar, if_neg hdot, if_neg hL, if_neg hS, if_neg hT]
    · rw [addeltaLoop] at h
      by_cases hend : l.length = 2 ∧ l.head? = some 46
      · rw [if_pos hend] at h
        refine (ih h).cons fun ls => ?_
        simp only [addeltaLoop, if_pos hend]
      rw [if_neg hend] at h
      by_cases hplus : l.length = 3 ∧ l.take 2 = [46, 43]
      · rw [if_pos hplus] at h
        rcases htrunc : orErr .proto (api.truncate part f d) with e | f₁
        · simp [htrunc, bind, Except.bind] at h
        simp only [htrunc, bind, Except.bind] at h
        refine (ih h).cons fun ls => ?_
        simp only [addeltaLoop, if_neg hend, if_pos hplus, htrunc, bind, Except.bind]
      rw [if_neg hplus] at h
      by_cases hdots : 3 ≤ l.length ∧ l.take 2 = [46, 46]
      · rw [if_pos hdots] at h
        refine (ih h).cons fun ls => ?_
        simp only [addeltaLoop, if_neg hend, if_neg hplus, if_pos hdots]
      · rw [if_neg hdots] at h
        refine (ih h).cons fun ls => ?_
        simp only [addeltaLoop, if_neg hend, if_neg hplus, if_neg hdots]

theorem runCmd_takes {c : Cmd} {f f' : F} {ls rest : List Line} (hrest : rest ≠ [])
    (h : runCmd api f ls c = .ok (f', rest)) :
    TakesFront (fun ls => runCmd api f ls c) ls f' rest := by
  -- a command that reads nothing
  have still (f₁ : Except Err F)
      (hc : ∀ ls, runCmd api f ls c = f₁.map fun f => (f, ls)) :
      TakesFront (fun ls => runCmd api f ls c) ls f' rest := by
    rw [hc] at h
    rcases f₁ with e | f₂
    · cases h
    · obtain ⟨rfl, rfl⟩ := Prod.mk.inj (Except.ok.inj h)
      refine ⟨[], rfl, fun t => ?_⟩
      rw [List.nil_append]
      exact hc t
  rcases c with branch | - | ⟨revnum, diffbase, revdate, author⟩ | revnum | expandtxt |
    ⟨tag, revnum⟩ | ⟨tag, revnum⟩
  · exact still (.ok (api.setbranch (some branch) f)) fun _ => rfl
  · exact still (.ok (api.setbranch none f)) fun _ => rfl
  · simp only [runCmd, updaterAddelta, bind, Except.bind] at h
    rcases hadd : orErr .read (api.addelta f revnum revdate author diffbase) with
      e | ⟨f₁, - | d⟩
    · simp [hadd] at h
    · simp [hadd] at h
    · simp only [hadd] at h
      obtain ⟨front, rfl, htakes⟩ := addeltaLoop_takes hrest h
      refine ⟨front, rfl, fun t => ?_⟩
      simp only [runCmd, updaterAddelta, bind, Except.bind, hadd, htakes]
  · refine still (orErr .undefined (api.deleterev f revnum)) fun ls => ?_
    rw [runCmd]
    cases orErr .undefined (api.deleterev f revnum) <;> rfl
  · exact still (.ok (api.setexpand (keywordDecodeExpand expandtxt) f)) fun _ => rfl
  · exact still (.ok (api.addtag tag revnum f)) fun _ => rfl
  · exact still (.ok (api.deletetag tag revnum f)) fun _ => rfl

theorem editCommands_takes {openrcs : Option F} (fuel : Nat) {rf : Option F} {e : EditEnd F}
    {ls rest : List Line} (h : editCommands api openrcs fuel rf ls = .ok (e, rest)) :
    Takes (fun l l' => editKind l' = editKind l) (fun fuel => editCommands api openrcs fuel rf) ls e
      rest := by
  induction fuel generalizing rf ls with
  | zero => rcases ls with - | ⟨l, ls⟩ <;> simp [editCommands] at h
  | succ fuel ih =>
    rcases ls with - | ⟨l, ls⟩
    · simp [editCommands] at h
    rw [editCommands] at h
    rcases hchar : protoGetChar (some (cline l)) with ⟨- | cmd, line⟩
    · simp [hchar] at h
    simp only [hchar] at h
    by_cases hdot : cmd = 46 ∧ line = none
    · rw [if_pos hdot] at h
      obtain ⟨rfl, rfl⟩ := Prod.mk.inj (Except.ok.inj h)
      refine takes_head fun fuel l' t hl' => ?_
      -- the line `l'` ends the loop too
      rw [show editKind l = .ok false by simp only [editKind, hchar, if_pos hdot]] at hl'
      rcases hchar' : protoGetChar (some (cline l')) with ⟨- | cmd', line'⟩
      · simp [editKind, hchar'] at hl'
      by_cases hdot' : cmd' = 46 ∧ line' = none
      · simp only [editCommands, hchar', if_pos hdot']
      · simp only [editKind, hchar', if_neg hdot'] at hl'
        split at hl' <;> simp at hl'
    rw [if_neg hdot] at h
    rcases hparse : parseCmd cmd line with - | c
    · simp [hparse] at h
    simp only [hparse] at h
    rcases hopen : rf.orElse fun _ => openrcs with - | f
    · simp only [hopen] at h
      obtain ⟨rfl, rfl⟩ := Prod.mk.inj (Except.ok.inj h)
      refine takes_head fun fuel l' t hl' => ?_
      -- the line `l'` is a command too
      rw [show editKind l = .ok true by
        simp only [editKind, hchar, if_neg hdot, hparse, Option.isSome_some, if_true]] at hl'
      rcases hchar' : protoGetChar (some (cline l')) with ⟨- | cmd', line'⟩
      · simp [editKind, hchar'] at hl'
      by_cases hdot' : cmd' = 46 ∧ line' = none
      · simp [editKind, hchar', if_pos hdot'] at hl'
      · rcases hparse' : parseCmd cmd' line' with - | c'
        · simp [editKind, hchar', if_neg hdot', hparse'] at hl'
        · simp only [editCommands, hchar', if_neg hdot', hparse', hopen]
    · simp only [hopen] at h
      rcases hrun : runCmd api f ls c with e | ⟨f₁, ls₁⟩
      · simp [hrun, bind, Except.bind] at h
      simp only [hrun, bind, Except.bind] at h
      have hls₁ : ls₁ ≠ [] := by
        rintro rfl
        rcases fuel with - | fuel <;> simp [editCommands] at h
      obtain ⟨front, rfl, htakes⟩ := runCmd_takes hls₁ hrun
      refine (ih h).cons front fun fuel ls => ?_
      simp only [editCommands, hchar, if_neg hdot, hparse, hopen, htakes, bind, Except.bind]

/-- The last line of the commands is one of its kind. -/
theorem readEdits_takes (openrcs : Option F) (e : EditEnd F) :
    TakesLines (fun l l' => editKind l' = editKind l) (readEdits api openrcs) e :=
  takesLines_of_takes fun fuel _ _ h => editCommands_takes fuel h

/-- The loop of `updater_rcsedit` runs the commands and, for an invalid file,
reads on to their end. -/
theorem editLoop_eq_editCommands (openrcs : Option F) (exactrcs : Bool) (fuel : Nat)
    (rf : Option F) (ls : List Line) :
    editLoop api openrcs exactrcs fuel rf ls =
      match editCommands api openrcs fuel rf ls with
      | .error e => .error e
      | .ok (.done rf, rest) => .ok (.done rf rest)
      | .ok (.invalid, rest) =>
        if !exactrcs then .error .msg
        else match skipLines rest with
          | none => .error .read
          | some rest => .ok (.invalid rest) := by
  induction fuel generalizing rf ls with
  | zero => rcases ls with - | ⟨l, ls⟩ <;> rfl
  | succ fuel ih =>
    rcases ls with - | ⟨l, ls⟩
    · rfl
    rw [editLoop, editCommands]
    rcases protoGetChar (some (cline l)) with ⟨- | cmd, line⟩
    · rfl
    dsimp only
    by_cases hdot : cmd = 46 ∧ line = none
    · rw [if_pos hdot, if_pos hdot]
    rw [if_neg hdot, if_neg hdot]
    rcases parseCmd cmd line with - | c
    · rfl
    rcases hopen : rf.orElse fun _ => openrcs with - | f
    · rfl
    dsimp only [bind, Except.bind]
    rcases runCmd api f ls c with e | ⟨f₁, ls₁⟩
    · rfl
    · exact ih (some f₁) ls₁

end

/-! ## The contents of files -/

theorem textLoop_takes {first : Bool} {text text' : List Byte} {ls rest : List Line}
    (h : textLoop first text ls = .ok (text', rest)) :
    ∃ used l, ls = used ++ l :: rest ∧
      ∀ t, textLoop first text (used ++ l :: t) = .ok (text', t) := by
  induction ls generalizing first text with
  | nil => cases h
  | cons l ls ih =>
    simp only [textLoop] at h
    generalize hline : (if l.getLast? = some nl then l.dropLast else l) = line at h
    by_cases hdot : line = [46]
    · rw [if_pos hdot] at h
      obtain ⟨rfl, rfl⟩ := Prod.mk.inj (Except.ok.inj h)
      refine ⟨[], l, rfl, fun t => ?_⟩
      simp only [List.nil_append, textLoop, hline, if_pos hdot]
    rw [if_neg hdot] at h
    by_cases hplus : line = [46, 43]
    · rw [if_pos hplus] at h
      obtain ⟨rfl, rfl⟩ := Prod.mk.inj (Except.ok.inj h)
      refine ⟨[], l, rfl, fun t => ?_⟩
      simp only [List.nil_append, textLoop, hline, if_neg hdot, if_pos hplus]
    · rw [if_neg hplus] at h
      obtain ⟨used, l', rfl, htakes⟩ := ih h
      refine ⟨l :: used, l', rfl, fun t => ?_⟩
      simp only [List.cons_append, textLoop, hline, if_neg hdot, if_neg hplus, htakes]

theorem readCheckout_takes (text : List Byte) : TakesLines Eq readCheckout text := by
  intro ls rest h
  obtain ⟨used, l, hls, htakes⟩ := textLoop_takes h
  refine ⟨used, l, hls, ?_⟩
  rintro _ t rfl
  exact htakes t

theorem readSkipped_takes (u : Unit) : TakesLines Eq readSkipped u := by
  intro ls rest h
  induction ls with
  | nil => cases h
  | cons l ls ih =>
    rw [readSkipped, skipLines] at h
    by_cases hl : cline l = [46]
    · rw [if_pos hl] at h
      obtain ⟨-, rfl⟩ := Prod.mk.inj (Except.ok.inj h)
      refine ⟨[], l, rfl, ?_⟩
      rintro _ t rfl
      rw [List.nil_append, readSkipped, skipLines, if_pos hl]
    · rw [if_neg hl] at h
      obtain ⟨used, l', rfl, htakes⟩ := ih h
      refine ⟨l :: used, l', rfl, ?_⟩
      rintro _ t rfl
      have := htakes _ t rfl
      rw [readSkipped] at this
      rw [List.cons_append, readSkipped, skipLines, if_neg hl, this]

theorem chunkLoop_takes {orig : List Byte} {blocksize : Nat} (fuel : Nat) {text text' : List Byte}
    {off : Nat} {ls rest : List Line}
    (h : chunkLoop orig blocksize fuel text off ls = .ok ((text', false), rest)) :
    Takes (fun l l' => cline l' = cline l)
      (fun fuel => chunkLoop orig blocksize fuel text off) ls (text', false) rest := by
  induction fuel generalizing text off ls with
  | zero => rcases ls with - | ⟨l, ls⟩ <;> simp [chunkLoop] at h
  | succ fuel ih =>
    rcases ls with - | ⟨l, ls⟩
    · simp [chunkLoop] at h
    rw [chunkLoop] at h
    by_cases hdot : cline l = [46]
    · rw [if_pos hdot] at h
      obtain ⟨hb, rfl⟩ := Prod.mk.inj (Except.ok.inj h)
      refine takes_head fun fuel l' t hl' => ?_
      simp only [chunkLoop, hl', if_pos hdot, hb]
    rw [if_neg hdot] at h
    rcases hchunk : parseChunk l with e | ⟨blockstart, blockcount⟩
    · simp [hchunk, bind, Except.bind] at h
    simp only [hchunk, bind, Except.bind] at h
    rcases hmore : readCheckout ls with e | ⟨more, ls₁⟩
    · simp [hmore] at h
    simp only [hmore] at h
    obtain ⟨front, rfl, htakes⟩ := TakesLines.front (readCheckout_takes more) hmore
    refine (ih h).cons front fun fuel ls => ?_
    simp only [chunkLoop, if_neg hdot, hchunk, htakes, bind, Except.bind]

/-- Where the chunks end with a `.`, that is the last line. -/
theorem readRsync_takes (orig : List Byte) (blocksize : Int) (text : List Byte) :
    TakesLines (fun l l' => cline l' = cline l) (readRsync orig blocksize) (text, false) := by
  intro ls rest h
  simp only [readRsync, bind, Except.bind] at h
  rcases htext : readCheckout ls with e | ⟨text₁, ls₁⟩
  · simp [htext] at h
  simp only [htext] at h
  by_cases hneg : blocksize < 0
  · simp [if_pos hneg] at h
  rw [if_neg hneg] at h
  obtain ⟨front, rfl, htakes⟩ := TakesLines.front (readCheckout_takes text₁) htext
  obtain ⟨used, l, rfl, hloop⟩ := takesLines_of_takes (fun fuel _ _ => chunkLoop_takes fuel) _ _ h
  refine ⟨front ++ used, l, by simp, fun l' t hl' => ?_⟩
  simp only [readRsync, bind, Except.bind, List.append_assoc, htakes, if_neg hneg]
  exact hloop l' t hl'

/-- Where they end without, the stream has ended. -/
theorem readRsync_eof {orig : List Byte} {blocksize : Int} {text : List Byte} {ls rest : List Line}
    (h : readRsync orig blocksize ls = .ok ((text, true), rest)) : rest = [] := by
  have hloop (fuel : Nat) {text₁ : List Byte} {off : Nat} {ls : List Line}
      (h : chunkLoop orig blocksize.toNat fuel text₁ off ls = .ok ((text, true), rest)) :
      rest = [] := by
    induction fuel generalizing text₁ off ls with
    | zero =>
      rcases ls with - | ⟨l, ls⟩
      · exact (Prod.mk.inj (Except.ok.inj h)).2.symm
      · simp [chunkLoop] at h
    | succ fuel ih =>
      rcases ls with - | ⟨l, ls⟩
      · exact (Prod.mk.inj (Except.ok.inj h)).2.symm
      rw [chunkLoop] at h
      split at h
      · simp at h
      · rcases hchunk : parseChunk l with e | ⟨blockstart, blockcount⟩
        · simp [hchunk, bind, Except.bind] at h
        rcases hmore : readCheckout ls with e | ⟨more, ls₁⟩
        · simp [hchunk, hmore, bind, Except.bind] at h
        · simp only [hchunk, hmore, bind, Except.bind] at h
          exact ih h
  simp only [readRsync, bind, Except.bind] at h
  rcases htext : readCheckout ls with e | ⟨text₁, ls₁⟩
  · simp [htext] at h
  simp only [htext] at h
  by_cases hneg : blocksize < 0
  · simp [if_pos hneg] at h
  · rw [if_neg hneg] at h
    exact hloop _ h

end Csup.Updater
