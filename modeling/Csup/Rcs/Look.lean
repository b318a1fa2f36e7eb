import Csup.Rcs.Tree
import Mathlib.Data.List.Find

/-!
# What `rcsfile_getdelta` finds

`RcsFile.look` says of a revision number whether there is a delta, a placeholder or nothing.
`rcsfile_importdelta` depends on the table by this alone: it looks into the branch point of the
entry, unless there is a delta already or the number is one of the trunk.

* `Importable`, `lookImport`: when an entry can be imported, and what is found then;
* `Inv.importdelta_eq`: `rcsfile_importdelta` in these terms.
-/

namespace Csup.Rcs

variable {rf rf' : RcsFile} {extra : List Ptr}

/-- What `rcsfile_getdelta` finds: nothing, a placeholder or a delta that is none. -/
def RcsFile.look (rf : RcsFile) (revnum : Revnum) : Option Bool := (rf.getdelta revnum).map rf.real

theorem map_revnum_eq (rf : RcsFile) (p : Ptr) :
    (rf.mem p).map Delta.revnum = if (rf.mem p).isSome then some (rf.revnum p) else none := by
  unfold RcsFile.revnum
  cases rf.mem p <;> rfl

theorem getdelta_congr (rf rf' : RcsFile) (htab : rf'.deltatable = rf.deltatable)
    (hmem : ∀ p ∈ rf.deltatable, (rf'.mem p).isSome = (rf.mem p).isSome ∧
      rf'.revnum p = rf.revnum p) (revnum : Revnum) : rf'.getdelta revnum = rf.getdelta revnum := by
  unfold RcsFile.getdelta
  rw [htab]
  refine List.find?_congr fun p hp => ?_
  rw [map_revnum_eq, map_revnum_eq, (hmem p hp).1, (hmem p hp).2]

theorem look_congr (htab : rf'.deltatable = rf.deltatable)
    (hmem : ∀ p ∈ rf.deltatable, (rf'.mem p).isSome = (rf.mem p).isSome ∧
      rf'.revnum p = rf.revnum p) (hreal : ∀ p ∈ rf.deltatable, rf'.real p = rf.real p) :
    rf'.look = rf.look := by
  funext revnum
  unfold RcsFile.look
  rw [getdelta_congr rf rf' htab hmem]
  cases hp : rf.getdelta revnum with
  | none => rfl
  | some p => exact congrArg some (hreal p (getdelta_some hp).1)

theorem Keeps.look (hk : Keeps rf rf') : rf'.look = rf.look :=
  look_congr hk.deltatable (fun p _ => ⟨hk.isSome p, hk.revnum p⟩) fun p _ => hk.real p

theorem look_modify {p : Ptr} {f : Delta → Delta} (hr : ∀ d, (f d).revnum = d.revnum)
    (hp : ∀ d, (f d).placeholder = d.placeholder) : (rf.modify p f).look = rf.look :=
  look_congr rfl (fun _ _ => ⟨modify_isSome, modify_revnum hr⟩) fun _ _ => modify_real hp

theorem Inv.look_alloc (h : Inv rf extra) (d : Delta) : (rf.alloc d).look = rf.look := by
  have hmem : ∀ p ∈ rf.deltatable, (rf.alloc d).mem p = rf.mem p := fun p hp =>
    alloc_mem (h.ne_brk (h.live p hp))
  refine look_congr rfl (fun p hp => ?_) fun p hp => ?_
  · unfold RcsFile.revnum
    rw [hmem p hp]
    exact ⟨rfl, rfl⟩
  · unfold RcsFile.real
    rw [hmem p hp]

theorem getdelta_insertsorteddelta {d : Ptr} (hd : (rf.mem d).isSome) (revnum : Revnum) :
    (insertsorteddelta rf d).getdelta revnum =
      if rf.revnum d = revnum then some d else rf.getdelta revnum := by
  have hiff (p : Ptr) : decide ((rf.mem p).map Delta.revnum = some revnum) = true →
      rf.revnum p = revnum := fun h => by
    rw [decide_eq_true_eq, map_revnum_eq] at h
    split at h
    · exact Option.some.inj h
    · cases h
  refine (find?_insertBefore fun y _ hx hy => ?_).trans ?_
  · rw [hiff d hx, hiff y hy, rcsnumCmp_self]
    decide
  · show (if decide ((rf.mem d).map Delta.revnum = some revnum) = true then _ else _) = _
    rw [map_revnum_eq, if_pos hd]
    simp only [Option.some.injEq, decide_eq_true_eq]
    rfl

theorem look_insertsorteddelta {d : Ptr} (hd : (rf.mem d).isSome) :
    (insertsorteddelta rf d).look =
      fun r => if rf.revnum d = r then some (rf.real d) else rf.look r := by
  funext r
  unfold RcsFile.look
  rw [getdelta_insertsorteddelta hd]
  split <;> rfl

theorem look_unmark {p : Ptr} {revnum : Revnum} (hp : rf.getdelta revnum = some p) :
    (rf.modify p Delta.unmark).look = fun r => if revnum = r then some true else rf.look r := by
  funext r
  unfold RcsFile.look
  have hget : (rf.modify p Delta.unmark).getdelta r = rf.getdelta r :=
    getdelta_congr rf (rf.modify p Delta.unmark) rfl (fun _ _ => ⟨modify_isSome, modify_revnum Delta.unmark_revnum⟩) r
  rw [hget]
  obtain ⟨-, d, hd, -⟩ := getdelta_some hp
  split
  · rename_i hr
    rw [← hr, hp]
    simp [RcsFile.real, RcsFile.modify, hd, Delta.unmark]
  · rename_i hr
    cases hq : rf.getdelta r with
    | none => rfl
    | some q =>
      have hqp : q ≠ p := fun h => hr (by rw [← getdelta_revnum hp, ← getdelta_revnum hq, h])
      show some _ = some _
      simp only [RcsFile.real, modify_mem hqp]

/-! ## Where a delta goes -/

theorem branchpoint_eq_ok {revnum bprev brev : Revnum} : branchpoint revnum = .ok (bprev, brev) ↔
    rcsrevPrefix revnum = some brev ∧ rcsrevPrefix brev = some bprev := by
  unfold branchpoint
  cases rcsrevPrefix revnum with
  | none => simp
  | some b =>
    dsimp only
    cases hb : rcsrevPrefix b with
    | none =>
      refine ⟨fun h => (by cases h), fun ⟨h, h'⟩ => ?_⟩
      rw [← Option.some.inj h, hb] at h'
      cases h'
    | some bp =>
      constructor
      · intro h
        obtain ⟨rfl, rfl⟩ := Prod.mk.inj (Except.ok.inj h)
        exact ⟨rfl, hb⟩
      · rintro ⟨h, h'⟩
        obtain rfl := Option.some.inj h
        rw [hb] at h'
        rw [Option.some.inj h']

/-- A number that is not of the trunk has a branch point. -/
theorem branchpoint_isOk {revnum : Revnum} (h : rcsrevIstrunk revnum = some false) :
    ∃ bprev brev, branchpoint revnum = .ok (bprev, brev) := by
  rw [rcsrevIstrunk_eq] at h
  split at h
  · cases h
  rename_i hdots
  have hone : revnum.count dot ≠ 1 := by simpa using h
  cases hbrev : rcsrevPrefix revnum with
  | none => exact absurd (rcsrevPrefix_eq_none.mp hbrev) hdots
  | some brev =>
    have hcount := count_of_rcsrevPrefix hbrev
    cases hbprev : rcsrevPrefix brev with
    | none =>
      have := rcsrevPrefix_eq_none.mp hbprev
      omega
    | some bprev => exact ⟨bprev, brev, branchpoint_eq_ok.mpr ⟨hbrev, hbprev⟩⟩

/-- The number has a dot, and it is one of the trunk, or its branch point is known. -/
def HasPlace (known : Revnum → Option Bool) (revnum : Revnum) : Prop :=
  rcsrevIstrunk revnum = some true ∨ rcsrevIstrunk revnum = some false ∧
    ∃ bprev brev, branchpoint revnum = .ok (bprev, brev) ∧ (known bprev).isSome

theorem getbranch_of_some (h : Inv rf extra) {revnum bprev brev : Revnum} {p : Ptr}
    (hbp : branchpoint revnum = .ok (bprev, brev)) (hp : rf.getdelta bprev = some p) :
    ∃ b, rf.getbranch revnum = .ok b := by
  obtain ⟨d, hd⟩ := Option.isSome_iff_exists.mp (h.live p (getdelta_some hp).1)
  refine ⟨if d.branchlist.any (Branch.is brev) then some (.ofDelta p brev) else none, ?_⟩
  simp only [RcsFile.getbranch, hbp, hp, bind, Except.bind, deref_ok.mpr hd]
  rfl

theorem Inv.findbranch_isOk (h : Inv rf extra) {revnum : Revnum} (hplace : HasPlace rf.look revnum) :
    ∃ rf' b, rf.findbranch revnum = .ok (rf', some b) := by
  unfold RcsFile.findbranch
  rcases hplace with htrunk | ⟨htrunk, bprev, brev, hbp, hlook⟩
  · rw [htrunk]
    exact ⟨rf, .trunk, rfl⟩
  · rw [htrunk]
    rw [RcsFile.look, Option.isSome_map] at hlook
    obtain ⟨p, hp⟩ := Option.isSome_iff_exists.mp hlook
    obtain ⟨b, hb⟩ := getbranch_of_some h hbp hp
    simp only [bind, Except.bind, hb]
    cases b with
    | some b => exact ⟨rf, b, rfl⟩
    | none =>
      simp only [hbp, hp]
      exact ⟨_, .ofDelta p brev, rfl⟩

theorem findbranch_undefined {revnum : Revnum} (hplace : ¬HasPlace rf.look revnum) :
    rf.findbranch revnum = .error .undefined := by
  unfold RcsFile.findbranch
  match htrunk : rcsrevIstrunk revnum with
  | none => rfl
  | some true => exact absurd (.inl htrunk) hplace
  | some false =>
    obtain ⟨bprev, brev, hbp⟩ := branchpoint_isOk htrunk
    have hnone : rf.getdelta bprev = none := by
      by_contra hsome
      refine hplace (.inr ⟨htrunk, bprev, brev, hbp, ?_⟩)
      rw [RcsFile.look, Option.isSome_map]
      exact Option.isSome_iff_ne_none.mpr hsome
    simp only [RcsFile.getbranch, hbp, hnone, bind, Except.bind]

/-! ## What is imported -/

/-- What is found behind an entry, by what was found before: the entry has a delta, unless it had
one already, and its `next` is a placeholder. -/
def lookImport (known : Revnum → Option Bool) (revnum : Revnum) (next : Option Revnum) :
    Revnum → Option Bool :=
  if known revnum = some true then known
  else fun r => if next = some r then some false else if revnum = r then some true else known r

/-- An entry has a delta already, or there is a place for one. -/
def Importable (known : Revnum → Option Bool) (revnum : Revnum) : Prop :=
  known revnum = some true ∨ HasPlace known revnum

theorem importbase_isOk (b : BranchRef) (d : Ptr) {revnum : Revnum}
    (hplace : HasPlace rf.look revnum) : ∃ rf', rf.importbase b d revnum = .ok rf' ∧
      (rf' = rf ∨ ∃ bp, rf' = rf.modify d fun dd => { dd with diffbase := some bp }) := by
  unfold RcsFile.importbase
  split
  · rename_i hcond
    rcases hplace with htrunk | ⟨-, bprev, brev, hbp, hlook⟩
    · exact absurd htrunk hcond.1
    · rw [RcsFile.look, Option.isSome_map] at hlook
      obtain ⟨p, hp⟩ := Option.isSome_iff_exists.mp hlook
      simp only [hbp, hp, bind, Except.bind]
      exact ⟨_, rfl, .inr ⟨p, rfl⟩⟩
  · exact ⟨rf, rfl, .inl rfl⟩

theorem Inv.importplace_isOk (h : Inv rf []) {d : Ptr} {revnum : Revnum} {placeholder : Bool}
    (hrev : rf.revnum d = revnum) (hlive : (rf.mem d).isSome) (hreal : rf.real d = !placeholder)
    (hd : placeholder = true → rf.getdelta revnum = some d) (hplace : HasPlace rf.look revnum) :
    ∃ rf', rf.importplace d revnum placeholder = .ok (some rf') ∧
      (rf'.look = fun r => if revnum = r then some true else rf.look r) ∧
      ∀ q, rf'.revnum q = rf.revnum q := by
  obtain ⟨rf1, b, hfind⟩ := h.findbranch_isOk hplace
  obtain ⟨hi2, hk⟩ := h.insertFound hrev hlive hfind (rcsrevIstrunk revnum = some true)
  simp only [RcsFile.importplace, bind, Except.bind, hfind]
  generalize rf1.insertdelta b d (rcsrevIstrunk revnum = some true) = rf2 at hi2 hk
  cases placeholder with
  | true =>
    have hget : rf2.getdelta revnum = some d := by
      rw [getdelta_congr rf rf2 hk.deltatable (fun p _ => ⟨hk.isSome p, hk.revnum p⟩), hd rfl]
    refine ⟨_, rfl, ?_, fun q => ?_⟩
    · rw [look_unmark hget, hk.look]
    · rw [modify_revnum Delta.unmark_revnum, hk.revnum]
  | false =>
    obtain ⟨rf3, hbase, hrf3⟩ := importbase_isOk b d (hk.look ▸ hplace)
    simp only [hbase]
    refine ⟨_, rfl, ?_⟩
    have h3 : rf3.look = rf2.look ∧ (rf3.mem d).isSome ∧ rf3.real d = true ∧
        ∀ q, rf3.revnum q = rf2.revnum q := by
      have hmark (bp : Ptr) (dd : Delta) :
          ({ dd with diffbase := some bp } : Delta).placeholder = dd.placeholder := rfl
      have hlive2 : (rf2.mem d).isSome := by rw [hk.isSome]; exact hlive
      have hreal2 : rf2.real d = true := by rw [hk.real, hreal]; rfl
      rcases hrf3 with rfl | ⟨bp, rfl⟩
      · exact ⟨rfl, hlive2, hreal2, fun _ => rfl⟩
      · exact ⟨look_modify (fun _ => rfl) fun _ => rfl, by rw [modify_isSome]; exact hlive2,
          (modify_real (hmark bp)).trans hreal2, fun q => modify_revnum fun _ => rfl⟩
    obtain ⟨hlook3, hlive3, hreal3, hrev3⟩ := h3
    refine ⟨?_, fun q => (hrev3 q).trans (hk.revnum q)⟩
    rw [look_insertsorteddelta hlive3, hrev3, hk.revnum, hrev, hreal3, hlook3, hk.look]

theorem importplace_undefined {d : Ptr} {revnum : Revnum} {placeholder : Bool}
    (hplace : ¬HasPlace rf.look revnum) :
    rf.importplace d revnum placeholder = .error .undefined := by
  simp only [RcsFile.importplace, bind, Except.bind, findbranch_undefined hplace]

/-- The delta of the entry is put into the tree, and then its `next` into the table. -/
theorem Inv.importinto_isOk (h : Inv rf []) {d : Ptr} {placeholder : Bool} {revnum : Revnum}
    (revdate author : List Byte) (state : Option (List Byte)) (next : Option Revnum)
    (hrev : rf.revnum d = revnum) (hreal : rf.real d = !placeholder) (hlive : (rf.mem d).isSome)
    (hd : if placeholder then rf.getdelta revnum = some d else Fresh rf d)
    (hplace : HasPlace rf.look revnum) :
    ∃ rf', rf.importinto d placeholder revnum revdate author state next = .ok rf' ∧
      rf'.look = fun r => if next = some r then some false
        else if revnum = r then some true else rf.look r := by
  have hfill : Inv (rf.modify d (Delta.fill revdate author state)) [] :=
    h.modify (fun _ => rfl) (fun _ => rfl) fun _ => rfl
  have hlook : (rf.modify d (Delta.fill revdate author state)).look = rf.look :=
    look_modify (fun _ => rfl) fun _ => rfl
  have hget : (rf.modify d (Delta.fill revdate author state)).getdelta revnum =
      rf.getdelta revnum :=
    getdelta_congr rf (rf.modify d (Delta.fill revdate author state)) rfl
      (fun _ _ => ⟨modify_isSome, modify_revnum (Delta.fill_revnum _ _ _)⟩) revnum
  have hrev1 : (rf.modify d (Delta.fill revdate author state)).revnum d = revnum :=
    (modify_revnum (Delta.fill_revnum _ _ _)).trans hrev
  have hreal1 : (rf.modify d (Delta.fill revdate author state)).real d = !placeholder :=
    (modify_real (Delta.fill_placeholder _ _ _)).trans hreal
  have hlive1 : ((rf.modify d (Delta.fill revdate author state)).mem d).isSome := by
    rw [modify_isSome]
    exact hlive
  have hd1 : if placeholder then
      (rf.modify d (Delta.fill revdate author state)).getdelta revnum = some d
      else Fresh (rf.modify d (Delta.fill revdate author state)) d := by
    cases placeholder with
    | true => exact hget.trans hd
    | false => exact Fresh.modify hd (Delta.fill_branchlist _ _ _)
  rw [← hlook] at hplace ⊢
  simp only [RcsFile.importinto, bind, Except.bind]
  generalize rf.modify d (Delta.fill revdate author state) = rf1 at *
  cases next with
  | none =>
    obtain ⟨rf2, hrf2, hlook2, -⟩ := hfill.importplace_isOk hrev1 hlive1 hreal1
      (fun hp => by rw [hp, if_pos rfl] at hd1; exact hd1) hplace
    simp only [RcsFile.importnext, hrf2]
    exact ⟨rf2, rfl, by rw [hlook2]; simp⟩
  | some next =>
    simp only [RcsFile.importnext]
    generalize hdn : { createdelta next with placeholder := true, diffbase := some d } = dn
    have hne := hfill.ne_brk hlive1
    have halloc := hfill.alloc dn
    have hlookA := hfill.look_alloc dn
    have hmemA : (rf1.alloc dn).mem d = rf1.mem d := alloc_mem hne
    have hrevA : (rf1.alloc dn).revnum d = revnum := by simpa only [RcsFile.revnum, hmemA]
    have hrealA : (rf1.alloc dn).real d = !placeholder := by simpa only [RcsFile.real, hmemA]
    have hliveA : ((rf1.alloc dn).mem d).isSome := by rw [hmemA]; exact hlive1
    have hgetA : placeholder = true → (rf1.alloc dn).getdelta revnum = some d := fun hp => by
      rw [hp, if_pos rfl] at hd1
      rw [← hd1]
      refine getdelta_congr rf1 (rf1.alloc dn) rfl (fun p hp => ?_) revnum
      unfold RcsFile.revnum
      rw [alloc_mem (hfill.ne_brk (hfill.live p hp))]
      exact ⟨rfl, rfl⟩
    obtain ⟨rf2, hrf2, hlook2, hrev2⟩ :=
      halloc.importplace_isOk hrevA hliveA hrealA hgetA (hlookA ▸ hplace)
    simp only [hrf2]
    refine ⟨_, rfl, ?_⟩
    obtain ⟨-, hfr⟩ := halloc.importplace hrevA hrealA hliveA (by
      cases placeholder with
      | true => exact (getdelta_some hd1).1
      | false => exact Fresh.alloc hd1 hfill dn) hrf2
    obtain ⟨hfresh, hreal2⟩ := hfr rf1.brk hne.symm (hfill.fresh_alloc (by rw [← hdn]; rfl))
      (by simp [RcsFile.real, alloc_mem_brk, ← hdn])
    have hrevn : rf2.revnum rf1.brk = next := by
      rw [hrev2]
      simp [RcsFile.revnum, alloc_mem_brk, ← hdn, createdelta]
    rw [look_insertsorteddelta hfresh.live, hrevn, hreal2, hlook2, hlookA]
    simp

theorem importinto_undefined {d : Ptr} {placeholder : Bool} {revnum revdate author : List Byte}
    {state : Option (List Byte)} {next : Option Revnum} (h : Inv rf [])
    (hplace : ¬HasPlace rf.look revnum) :
    rf.importinto d placeholder revnum revdate author state next = .error .undefined := by
  have hfill : Inv (rf.modify d (Delta.fill revdate author state)) [] :=
    h.modify (fun _ => rfl) (fun _ => rfl) fun _ => rfl
  have hlook : (rf.modify d (Delta.fill revdate author state)).look = rf.look :=
    look_modify (fun _ => rfl) fun _ => rfl
  simp only [RcsFile.importinto, bind, Except.bind]
  rw [← hlook] at hplace
  cases next with
  | none => simp only [RcsFile.importnext, importplace_undefined hplace]
  | some next =>
    simp only [RcsFile.importnext]
    rw [importplace_undefined (by rw [hfill.look_alloc]; exact hplace)]

/-- `rcsfile_importdelta` on what is found. -/
theorem Inv.importdelta_eq (h : Inv rf []) (revnum revdate author : List Byte)
    (state : Option (List Byte)) (next : Option Revnum) :
    (Importable rf.look revnum → ∃ rf',
      rf.importdelta revnum revdate author state next = .ok rf' ∧ Inv rf' [] ∧
        rf'.look = lookImport rf.look revnum next) ∧
    (¬Importable rf.look revnum →
      rf.importdelta revnum revdate author state next = .error .undefined) := by
  have hinv {rf' : RcsFile} (hok : rf.importdelta revnum revdate author state next = .ok rf') :=
    h.importdelta hok
  unfold RcsFile.importdelta at hinv ⊢
  match hp : rf.getdelta revnum with
  | none =>
    have hnew : rf.look revnum ≠ some true := by
      rw [RcsFile.look, hp]
      simp
    rw [hp] at hinv
    dsimp only at hinv ⊢
    refine ⟨fun himp => ?_, fun himp => ?_⟩
    · have hplace := himp.resolve_left hnew
      have hrev : (rf.alloc (createdelta revnum)).revnum rf.brk = revnum := by
        simp [RcsFile.revnum, alloc_mem_brk, createdelta]
      have hreal : (rf.alloc (createdelta revnum)).real rf.brk = !false := by
        simp [RcsFile.real, alloc_mem_brk, createdelta]
      obtain ⟨rf', hrf', hlook⟩ := (h.alloc (createdelta revnum)).importinto_isOk revdate author
        state next hrev hreal (by rw [alloc_mem_brk]; rfl) (h.fresh_alloc rfl)
        (by rw [h.look_alloc]; exact hplace)
      refine ⟨rf', hrf', hinv hrf', ?_⟩
      rw [hlook, h.look_alloc, lookImport, if_neg hnew]
    · exact importinto_undefined (h.alloc _) (by rw [h.look_alloc]; exact fun hpl => himp (.inr hpl))
  | some p =>
    obtain ⟨hpt, d, hd, hr⟩ := getdelta_some hp
    have hreal : rf.look revnum = some (rf.real p) := by rw [RcsFile.look, hp]; rfl
    rw [hp] at hinv
    simp only [bind, Except.bind, deref_ok.mpr hd] at hinv ⊢
    by_cases hph : d.placeholder = true
    · have hnot : rf.real p = !true := by simp [RcsFile.real, hd, hph]
      have hnew : rf.look revnum ≠ some true := by
        rw [hreal, hnot]
        simp
      rw [if_pos hph] at hinv ⊢
      refine ⟨fun himp => ?_, fun himp => ?_⟩
      · have hplace := himp.resolve_left hnew
        obtain ⟨rf', hrf', hlook⟩ := h.importinto_isOk revdate author state next
          (getdelta_revnum hp) hnot (by rw [hd]; rfl) hp hplace
        refine ⟨rf', hrf', hinv hrf', ?_⟩
        rw [hlook, lookImport, if_neg hnew]
      · exact importinto_undefined h fun hpl => himp (.inr hpl)
    · have hold : rf.look revnum = some true := by
        rw [hreal]
        simp [RcsFile.real, hd, hph]
      rw [if_neg hph] at hinv ⊢
      refine ⟨fun _ => ⟨rf, rfl, hinv rfl, by rw [lookImport, if_pos hold]⟩, fun himp => ?_⟩
      exact absurd (.inl hold) himp

end Csup.Rcs
