import Csup.Pathcomp.Defs

/-!
# What the path compressor emits

`drain_ups` and `drain_downs` are the two phases of the draining, from any
place in them; `put_drain` is a put and its draining, from the directory that
the put before it has left open (`AtRest`). `pathcompRun_walk` is a whole run.
-/

namespace Csup.Pathcomp

open Framework

/-! ## The abstract walk -/

def event : Move Component → Event
  | .down d => (.dirDown, joinPath d)
  | .up d => (.dirUp, joinPath d)

/-- The directory that a put is to leave open. -/
def targetDir : PcType → List Component → List Component
  | .dirDown, path => path
  | .file, path => path.dropLast
  | .dirUp, path => path.dropLast

/-- A path as the caller has it in memory. -/
def pathBytes (path : List Component) : List Byte := joinPath path ++ [0]

/-! ## Between two puts -/

/-- Nothing is to be done, and `d` is open. -/
structure AtRest (pc : State) (d : List Component) : Prop where
  target : pc.target = false
  targetlen : pc.targetlen = 0
  trashed : pc.trashed = none
  curlen : pc.curlen = (joinPath d).length
  prev : pc.prev = none ∧ d = [] ∨ pc.prev = some (pathBytes d) ∧ pc.prevlen = (joinPath d).length

theorem atRest_new (goal : Nat) : AtRest (pathcompNew goal) [] where
  target := rfl
  targetlen := rfl
  trashed := rfl
  curlen := rfl
  prev := .inl ⟨rfl, rfl⟩

/-! ## Going up -/

theorem joinPath_prefix (d e : List Component) : ∃ s, joinPath (d ++ e) = joinPath d ++ s := by
  by_cases hd : d = []
  · exact ⟨joinPath e, by rw [hd]; rfl⟩
  · exact ⟨slashed e, joinPath_append hd e⟩

theorem length_le_joinPath (d : List Component) : d.length ≤ (joinPath d).length := by
  induction d using List.reverseRecOn with
  | nil => exact Nat.zero_le _
  | append_singleton d c ih =>
    have := joinPath_length_lt d (List.cons_ne_nil c [])
    rw [List.length_append, List.length_singleton]
    omega

/-- One call. -/
theorem getUp_eq {pc : State} {d : List Component} {c : Component} {rest : List Byte}
    (hprev : pc.prev = some (joinPath (d ++ [c]) ++ rest)) (hrest : rest ≠ [])
    (hcur : pc.curlen = (joinPath (d ++ [c])).length) (hgoal : pc.goal ≤ (joinPath d).length) :
    ∃ rest', rest' ≠ [] ∧ getUp pc = .ok ({ pc with
      prev := some (joinPath d ++ rest')
      curlen := (joinPath d).length
      goal := if pc.goal = (joinPath d).length then pc.targetlen else pc.goal },
      .dirUp, joinPath (d ++ [c])) := by
  obtain ⟨b, rest, rfl⟩ := List.exists_cons_of_ne_nil hrest
  obtain ⟨s, hs⟩ := joinPath_prefix d [c]
  have hset : (joinPath (d ++ [c]) ++ b :: rest).set pc.curlen 0 =
      joinPath (d ++ [c]) ++ 0 :: rest := by
    rw [hcur, List.set_append_right _ _ (Nat.le_refl _), Nat.sub_self]
    rfl
  have hslash : (slashBefore (joinPath (d ++ [c]) ++ 0 :: rest) pc.curlen).getD 0 =
      (joinPath d).length := by
    rw [hcur, slashBefore_joinPath]
  have hname : cstr (joinPath (d ++ [c]) ++ 0 :: rest) = joinPath (d ++ [c]) :=
    cstr_append_nul (zero_notMem_joinPath _) rest
  have hin : ¬ (joinPath (d ++ [c]) ++ b :: rest).length ≤ pc.curlen := by
    simp only [List.length_append, List.length_cons]
    omega
  refine ⟨s ++ 0 :: rest, by simp, ?_⟩
  rw [getUp, hprev]
  simp only [if_neg hin, hset, hslash, hname]
  rw [hs, List.append_assoc]
  by_cases hg : pc.goal = (joinPath d).length
  · rw [if_neg (by omega), if_pos hg.symm, if_pos hg]
  · rw [if_pos (by omega), if_neg hg]

/-- From the open directory up to `l`; the goal is then the target. -/
theorem drain_ups (pc : State) (l s : List Component) (hs : s ≠ []) {rest : List Byte}
    (hprev : pc.prev = some (joinPath (l ++ s.reverse) ++ rest)) (hrest : rest ≠ [])
    (hcur : pc.curlen = (joinPath (l ++ s.reverse)).length)
    (hgoal : pc.goal = (joinPath l).length) (calls : Nat) (path : List Byte) :
    ∃ prev, drain (s.length + calls) pc path = (do
      let (events, pc', path') ← drain calls { pc with
        prev, curlen := (joinPath l).length, goal := pc.targetlen } path
      return ((ups l s).map event ++ events, pc', path')) := by
  induction s generalizing pc rest with
  | nil => exact absurd rfl hs
  | cons a s ih =>
    rw [List.reverse_cons, ← List.append_assoc] at hprev hcur
    have hlt := joinPath_length_lt (l ++ s.reverse) (List.cons_ne_nil a [])
    have hle : (joinPath l).length ≤ (joinPath (l ++ s.reverse)).length := by
      obtain ⟨x, hx⟩ := joinPath_prefix l s.reverse
      rw [hx, List.length_append]
      omega
    obtain ⟨rest', hrest', hget⟩ := getUp_eq hprev hrest hcur (by omega)
    have hname : event (.up (l ++ (a :: s).reverse)) =
        (.dirUp, joinPath (l ++ s.reverse ++ [a])) := by
      rw [List.reverse_cons, ← List.append_assoc]
      rfl
    have hstep : ∀ n, drain (n + 1) pc path = (do
        let (events, pc', path') ← drain n { pc with
          prev := some (joinPath (l ++ s.reverse) ++ rest')
          curlen := (joinPath (l ++ s.reverse)).length
          goal := if pc.goal = (joinPath (l ++ s.reverse)).length then pc.targetlen else pc.goal }
          path
        return ((.dirUp, joinPath (l ++ s.reverse ++ [a])) :: events, pc', path')) := by
      intro n
      rw [drain, pathcompGet, if_pos (by omega), hget]
      rfl
    rw [List.length_cons, show s.length + 1 + calls = s.length + calls + 1 by omega, hstep, ups,
      List.map_cons, hname]
    by_cases hs' : s = []
    · subst hs'
      refine ⟨some (joinPath (l ++ [].reverse) ++ rest'), ?_⟩
      simp only [List.reverse_nil, List.append_nil, List.length_nil, Nat.zero_add, ups,
        List.map_nil, hgoal, if_true]
      rfl
    · have hne : ¬ pc.goal = (joinPath (l ++ s.reverse)).length := by
        have := joinPath_length_lt l (show s.reverse ≠ [] by simpa using hs')
        omega
      rw [if_neg hne]
      obtain ⟨prev, hd⟩ := ih { pc with
        prev := some (joinPath (l ++ s.reverse) ++ rest')
        curlen := (joinPath (l ++ s.reverse)).length } hs' rfl hrest' rfl hgoal
      refine ⟨prev, ?_⟩
      rw [hd]
      rcases drain calls { pc with prev, curlen := (joinPath l).length, goal := pc.targetlen } path
        with e | ⟨events, pc', path'⟩ <;> rfl

/-! ## Going down -/

/-- The caller's path begins with the target; a NUL or a slash is behind it. -/
structure Targets (path : List Byte) (t : List Component) : Prop where
  front : ∃ z rest, path = joinPath t ++ z :: rest ∧ (t ≠ [] → z = 0 ∨ z = 47)

/-- One call. -/
theorem getDown_eq {pc : State} {buf path : List Byte} {d e : List Component} {c : Component}
    (htarget : pc.target = true) (hbuf : restore pc.trashed buf = path)
    (hpath : Targets path (d ++ c :: e)) (hcur : pc.curlen = (joinPath d).length)
    (hgoal : pc.goal = (joinPath (d ++ c :: e)).length) :
    ∃ trashed buf', restore trashed buf' = path ∧ getDown pc buf = .ok ({ pc with
      trashed, curlen := (joinPath (d ++ [c])).length }, buf', .dirDown, joinPath (d ++ [c])) := by
  obtain ⟨z, rest, hz, hsep⟩ := hpath.front
  have hpos : nextSlash path (pc.goal - if pc.curlen = 0 then 0 else pc.curlen + 1)
      (if pc.curlen = 0 then 0 else pc.curlen + 1) = (joinPath (d ++ [c])).length := by
    rw [hz, hgoal, hcur, nextSlash_joinPath]
  -- the byte behind the component
  have hcut : ∃ b rest', path = joinPath (d ++ [c]) ++ b :: rest' ∧ (b = 0 ∨ b = 47) := by
    match e with
    | [] => exact ⟨z, rest, hz, hsep (by simp)⟩
    | c' :: e =>
      refine ⟨47, c'.val ++ slashed e ++ z :: rest, ?_, .inr rfl⟩
      rw [hz, show d ++ c :: c' :: e = d ++ [c] ++ (c' :: e) by simp,
        joinPath_append (by simp), slashed_cons]
      simp
  obtain ⟨b, rest', hb, hb'⟩ := hcut
  have hget : path[(joinPath (d ++ [c])).length]? = some b := by
    rw [hb, List.getElem?_append_right (Nat.le_refl _), Nat.sub_self]
    rfl
  have hnul := cstr_append_nul (zero_notMem_joinPath (d ++ [c])) rest'
  rw [getDown, if_pos htarget]
  simp only [hbuf, hpos, hget]
  rcases hb' with rfl | rfl
  · refine ⟨none, path, rfl, ?_⟩
    rw [if_pos rfl]
    nth_rewrite 2 [hb]
    rw [hnul]
  · have hset : path.set (joinPath (d ++ [c])).length 0 = joinPath (d ++ [c]) ++ 0 :: rest' := by
      rw [hb, List.set_append_right _ _ (Nat.le_refl _), Nat.sub_self]
      rfl
    refine ⟨some (joinPath (d ++ [c])).length, path.set (joinPath (d ++ [c])).length 0, ?_, ?_⟩
    · rw [restore, hset, List.set_append_right _ _ (Nat.le_refl _), Nat.sub_self, hb]
      rfl
    · rw [if_neg (by decide), if_pos rfl, hset, hnul]

/-- Down to the target, and the last call. -/
theorem drain_downs (pc : State) (d s : List Component) {buf path : List Byte}
    (htarget : pc.target = true) (hbuf : restore pc.trashed buf = path)
    (hpath : Targets path (d ++ s)) (hcur : pc.curlen = (joinPath d).length)
    (hlen : pc.targetlen = (joinPath (d ++ s)).length) (hgoal : pc.goal = pc.targetlen)
    (calls : Nat) :
    ∃ pc', drain (s.length + 1 + calls) pc buf = .ok ((downs d s).map event, pc', path) ∧
      AtRest pc' (d ++ s) := by
  induction s generalizing pc d buf with
  | nil =>
    rw [List.append_nil] at hlen hpath
    obtain ⟨z, rest, hz, -⟩ := hpath.front
    have htake : path.take pc.targetlen = joinPath d := by
      rw [hlen, hz, List.take_left]
    rw [List.length_nil, show 0 + 1 + calls = calls + 1 by omega, drain, pathcompGet,
      if_neg (by omega), if_neg (by omega), if_pos htarget]
    refine ⟨_, by rw [hbuf]; rfl, ?_⟩
    rw [List.append_nil]
    refine ⟨rfl, rfl, rfl, hcur, .inr ⟨?_, hlen⟩⟩
    show some (path.take pc.targetlen ++ [0]) = _
    rw [htake]
    rfl
  | cons c s ih =>
    have hlt := joinPath_length_lt d (List.cons_ne_nil c s)
    have hgoal' := hgoal.trans hlen
    obtain ⟨trashed, buf', hbuf', hget⟩ := getDown_eq htarget hbuf hpath hcur hgoal'
    have happ : d ++ c :: s = d ++ [c] ++ s := by simp
    rw [happ] at hpath hlen
    obtain ⟨pc', hd, hrest⟩ := ih { pc with
      trashed, curlen := (joinPath (d ++ [c])).length } (d ++ [c]) htarget hbuf' hpath rfl hlen hgoal
    refine ⟨pc', ?_, by rwa [happ]⟩
    rw [List.length_cons, show s.length + 1 + 1 + calls = s.length + 1 + calls + 1 by omega, drain,
      pathcompGet, if_neg (by omega), if_pos (by omega), hget]
    show (drain (s.length + 1 + calls) _ buf' >>= _) = _
    rw [hd]
    rfl

/-! ## A put -/

theorem pathBytes_targets (type : PcType) (path : List Component) :
    Targets (pathBytes path) (targetDir type path) ∧
      targetLength type (pathBytes path) = (joinPath (targetDir type path)).length := by
  have hcstr : cstr (pathBytes path) = joinPath path :=
    cstr_append_nul (zero_notMem_joinPath path) []
  have hdir : Targets (pathBytes path) path.dropLast ∧
      (slashBefore (pathBytes path) (cstr (pathBytes path)).length).getD 0 =
        (joinPath path.dropLast).length := by
    rw [hcstr]
    rcases List.eq_nil_or_concat path with rfl | ⟨d, c, rfl⟩
    · exact ⟨⟨⟨0, [], rfl, fun h => absurd rfl h⟩⟩, rfl⟩
    · rw [List.concat_eq_append, List.dropLast_concat]
      refine ⟨⟨?_⟩, slashBefore_joinPath d c [0]⟩
      by_cases hd : d = []
      · obtain ⟨x, xs, hx⟩ := List.exists_cons_of_ne_nil c.ne_nil
        refine ⟨x, xs ++ [0], ?_, fun h => absurd hd h⟩
        rw [hd, pathBytes, List.nil_append, joinPath_singleton, hx]
        rfl
      · refine ⟨47, c.val ++ [0], ?_, fun _ => .inr rfl⟩
        rw [pathBytes, joinPath_concat hd]
        simp
  match type with
  | .dirDown => exact ⟨⟨⟨0, [], rfl, fun _ => .inl rfl⟩⟩, congrArg List.length hcstr⟩
  | .file => exact hdir
  | .dirUp => exact hdir

theorem pathcompPut_eq {pc : State} {d : List Component} (h : AtRest pc d) (type : PcType)
    (path : List Component) :
    pathcompPut pc type (pathBytes path) = .ok ({ pc with
      target := true
      targetlen := (joinPath (targetDir type path)).length
      goal := if d = common d (targetDir type path) then (joinPath (targetDir type path)).length
        else (joinPath (common d (targetDir type path))).length }, 0) := by
  obtain ⟨htargets, hlen⟩ := pathBytes_targets type path
  obtain ⟨z, rest, hz, -⟩ := htargets.front
  have hhead : ¬ (pathBytes path).head? = some 47 := by
    intro hh
    rw [pathBytes, List.head?_append] at hh
    rcases hj : (joinPath path).head? with _ | b
    · rw [hj] at hh
      exact absurd hh (by decide)
    · rw [hj] at hh
      exact joinPath_head path (hj.trans hh)
  have hcommon : commonGoal pc (pathBytes path) (joinPath (targetDir type path)).length =
      (joinPath (common d (targetDir type path))).length := by
    unfold commonGoal
    rcases h.prev with ⟨hp, rfl⟩ | ⟨hp, hl⟩
    · rw [hp]
      rfl
    · rw [hp, hl, hz]
      exact commonpathlength_joinPath d (targetDir type path) [0] (z :: rest)
  have hiff : pc.curlen = (joinPath (common d (targetDir type path))).length ↔
      d = common d (targetDir type path) := by
    rw [h.curlen]
    constructor
    · intro hl
      obtain ⟨s, hs⟩ := common_prefix_left d (targetDir type path)
      by_cases hs' : s = []
      · rw [hs', List.append_nil] at hs
        exact hs.symm
      · have := joinPath_length_lt (common d (targetDir type path)) hs'
        rw [hs] at this
        omega
    · intro hd
      rw [← hd]
  unfold pathcompPut
  rw [h.target, if_neg (by decide), if_neg hhead]
  simp only [hlen, hcommon]
  by_cases hd : d = common d (targetDir type path)
  · rw [if_pos hd, if_pos (hiff.mpr hd)]
  · rw [if_neg hd, if_neg fun hc => hd (hiff.mp hc)]

/-- The calls behind a put: up to the deepest common directory, then down. -/
theorem drain_moves (pc : State) {d t : List Component} {path : List Byte}
    (htarget : pc.target = true) (htrashed : pc.trashed = none)
    (hprev : pc.prev = none ∧ d = [] ∨ pc.prev = some (pathBytes d))
    (hcur : pc.curlen = (joinPath d).length) (hlen : pc.targetlen = (joinPath t).length)
    (hgoal : pc.goal = if d = common d t then (joinPath t).length
      else (joinPath (common d t)).length) (hpath : Targets path t) :
    ∃ pc', drain (pc.curlen + pc.targetlen + 1) pc path =
      .ok ((moves d t).map event, pc', path) ∧ AtRest pc' t := by
  have hleft := common_append_drop_left d t
  have hright := common_append_drop_right d t
  have hd := length_le_joinPath d
  have ht := length_le_joinPath t
  have hbuf : restore pc.trashed path = path := by
    rw [htrashed]
    rfl
  -- there are no more components than bytes
  obtain ⟨calls, hcalls⟩ := Nat.exists_eq_add_of_le
    (show (d.drop (common d t).length).reverse.length + (t.drop (common d t).length).length + 1 ≤
      pc.curlen + pc.targetlen + 1 by
        simp only [List.length_reverse, List.length_drop]
        omega)
  have hmoves : moves d t = ups (common d t) (d.drop (common d t).length).reverse ++
      downs (common d t) (t.drop (common d t).length) := rfl
  rw [hcalls, hmoves, Nat.add_assoc, Nat.add_assoc, ← Nat.add_assoc _ 1]
  by_cases hdc : d = common d t
  · rw [if_pos hdc] at hgoal
    have hnil : d.drop (common d t).length = [] := by
      rw [← hdc, List.drop_length]
    rw [hnil, List.reverse_nil, List.length_nil, Nat.zero_add, ups, List.nil_append]
    have h := drain_downs pc (common d t) (t.drop (common d t).length) htarget hbuf (by rwa [hright]) (by rwa [← hdc])
      (by rwa [hright]) (by omega) calls
    rwa [hright] at h
  · rw [if_neg hdc] at hgoal
    have hne : (d.drop (common d t).length).reverse ≠ [] := by
      intro h
      rw [List.reverse_eq_nil_iff] at h
      rw [h, List.append_nil] at hleft
      exact hdc hleft.symm
    have hprev' : pc.prev = some (joinPath d ++ [0]) := by
      rcases hprev with ⟨-, rfl⟩ | hp
      · exact absurd rfl hdc
      · exact hp
    obtain ⟨prev, hup⟩ := drain_ups pc (common d t) (d.drop (common d t).length).reverse hne
      (by rwa [List.reverse_reverse, hleft]) (by simp) (by rwa [List.reverse_reverse, hleft]) hgoal
      ((t.drop (common d t).length).length + 1 + calls) path
    have h := drain_downs { pc with
      prev, curlen := (joinPath (common d t)).length, goal := pc.targetlen } (common d t)
      (t.drop (common d t).length) htarget hbuf (by rwa [hright]) rfl (by rwa [hright]) rfl calls
    rw [hright] at h
    obtain ⟨pc', hdown, hrest⟩ := h
    refine ⟨pc', ?_, hrest⟩
    rw [hup, hdown, List.map_append]
    rfl

/-- A put and the calls behind it: the shortest walk to the target. -/
theorem put_drain {pc : State} {d : List Component} (h : AtRest pc d) (type : PcType)
    (path : List Component) :
    ∃ pc₁ pc₂, pathcompPut pc type (pathBytes path) = .ok (pc₁, 0) ∧
      drain (pc₁.curlen + pc₁.targetlen + 1) pc₁ (pathBytes path) =
        .ok ((moves d (targetDir type path)).map event, pc₂, pathBytes path) ∧
      AtRest pc₂ (targetDir type path) := by
  obtain ⟨htargets, -⟩ := pathBytes_targets type path
  obtain ⟨pc₂, hdrain, hrest⟩ := drain_moves { pc with
      target := true
      targetlen := (joinPath (targetDir type path)).length
      goal := if d = common d (targetDir type path) then (joinPath (targetDir type path)).length
        else (joinPath (common d (targetDir type path))).length } rfl h.trashed
    (h.prev.imp_right And.left) h.curlen rfl rfl htargets
  exact ⟨_, pc₂, pathcompPut_eq h type path, hdrain, hrest⟩

/-- `pathcomp_finish` and the calls behind it. -/
theorem finish_drain {pc : State} {d : List Component} (h : AtRest pc d) :
    ∃ pc', drain (pc.curlen + 1) (pathcompFinish pc) [] = .ok ((moves d []).map event, pc', []) := by
  have hcommon : common d [] = [] := by
    cases d <;> rfl
  have hmoves : moves d [] = ups [] d.reverse := by
    rw [moves, hcommon]
    simp [downs]
  rw [hmoves]
  -- the last call
  have hlast (n : Nat) (pc : State) (ht : pc.target = false) (hg : pc.goal = pc.curlen) :
      drain (n + 1) pc [] = .ok ([], pc, []) := by
    rw [drain, pathcompGet, if_neg (by omega), if_neg (by omega), ht, if_neg (by decide)]
    rfl
  by_cases hd : d = []
  · subst hd
    have hcur : pc.curlen = 0 := h.curlen
    exact ⟨_, hlast pc.curlen (pathcompFinish pc) rfl hcur.symm⟩
  · have hprev : pc.prev = some (joinPath d ++ [0]) := by
      rcases h.prev with ⟨-, hnil⟩ | ⟨hp, -⟩
      · exact absurd hnil hd
      · exact hp
    obtain ⟨calls, hcalls⟩ := Nat.exists_eq_add_of_le
      (show d.reverse.length ≤ pc.curlen by
        rw [h.curlen, List.length_reverse]
        exact length_le_joinPath d)
    obtain ⟨prev, hup⟩ := drain_ups (pathcompFinish pc) [] d.reverse (by simpa using hd)
      (by rwa [List.reverse_reverse]) (by simp)
      (by rw [List.reverse_reverse]; exact h.curlen) rfl (calls + 1) []
    rw [hlast _ _ rfl rfl, ← Nat.add_assoc, ← hcalls] at hup
    refine ⟨{ pathcompFinish pc with prev, curlen := 0, goal := 0 }, hup.trans ?_⟩
    show Except.ok ((ups [] d.reverse).map event ++ [], _, []) = _
    rw [List.append_nil]
    rfl

/-! ## A run -/

/-- The events are a walk from `d` to `t` that leaves the directories around
both open. -/
def Visits (d t : List Component) (events : List Event) : Prop :=
  ∃ ms, events = ms.map event ∧ Walk d ms t ∧
    ∀ u, u <+: d → u <+: t → Move.up u ∉ ms

/-- One target after the other. -/
def VisitsAll : List Component → List (List Component) → List (List Event) → Prop
  | d, t :: ts, events :: outs => Visits d t events ∧ VisitsAll t ts outs
  | _, [], [] => True
  | _, _, _ => False

theorem visits_moves (d t : List Component) : Visits d t ((moves d t).map event) :=
  ⟨moves d t, rfl, walk_moves d t, fun _ hd ht => up_notMem_moves hd ht⟩

theorem run_atRest {pc : State} {d : List Component} (h : AtRest pc d)
    (puts : List (PcType × List Component)) :
    ∃ outs last pc', pathcompRun pc (puts.map fun p => (p.1, pathBytes p.2)) =
        .ok (outs, last, pc') ∧
      outs.map Prod.snd = puts.map (fun p => pathBytes p.2) ∧
      VisitsAll d (puts.map (fun p => targetDir p.1 p.2) ++ [[]]) (outs.map Prod.fst ++ [last]) := by
  induction puts generalizing pc d with
  | nil =>
    obtain ⟨pc', hf⟩ := finish_drain h
    refine ⟨[], _, pc', ?_, rfl, visits_moves d [], trivial⟩
    rw [List.map_nil, pathcompRun, hf]
    rfl
  | cons p puts ih =>
    obtain ⟨pc₁, pc₂, hput, hdrain, hrest⟩ := put_drain h p.1 p.2
    obtain ⟨outs, last, pc', hrun, hpaths, hvisits⟩ := ih hrest
    refine ⟨((moves d (targetDir p.1 p.2)).map event, pathBytes p.2) :: outs, last, pc', ?_, ?_, ?_⟩
    · rw [List.map_cons, pathcompRun, hput]
      show (drain (pc₁.curlen + pc₁.targetlen + 1) pc₁ (pathBytes p.2) >>= _) = _
      rw [hdrain]
      show (pathcompRun pc₂ (puts.map fun p => (p.1, pathBytes p.2)) >>= _) = _
      rw [hrun]
      rfl
    · rw [List.map_cons, List.map_cons, hpaths]
    · exact ⟨visits_moves d (targetDir p.1 p.2), hvisits⟩

/-- Whatever is put, the compressor walks from target to target and back to the
root, and the callers' paths are as they were. -/
theorem pathcompRun_walk (goal : Nat) (puts : List (PcType × List Component)) :
    ∃ outs last pc, pathcompRun (pathcompNew goal) (puts.map fun p => (p.1, pathBytes p.2)) =
        .ok (outs, last, pc) ∧
      outs.map Prod.snd = puts.map (fun p => pathBytes p.2) ∧
      VisitsAll [] (puts.map (fun p => targetDir p.1 p.2) ++ [[]])
        (outs.map Prod.fst ++ [last]) :=
  run_atRest (atRest_new goal) puts

end Csup.Pathcomp
