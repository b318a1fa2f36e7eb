import Csup.Rcs.Grow

/-!
# Reading a repository

What `rcsparse` makes of a file that is in its layout: `rcsfile_importdelta` finds the parent of each
delta, by the placeholder that the parent has left or by the branch point.

* `importinto_spec`: what is new behind an entry, and what is not.
-/

namespace Csup.Rcs

open Csup.Framework

variable {rf rf' : RcsFile} {p q d : Ptr}

/-! ## One entry -/

theorem insertBefore_front {α : Type*} {before : α → Bool} {x : α} {l : List α}
    (h : ∀ y ∈ l, before y = true) : insertBefore before x l = x :: l := by
  cases l with
  | nil => rfl
  | cons y ys => rw [insertBefore, if_pos (h y List.mem_cons_self)]

theorem find?_modifyFirst {α : Type*} {p : α → Bool} {f : α → α} (hf : ∀ y, p (f y) = p y)
    (l : List α) : (modifyFirst p f l).find? p = (l.find? p).map f := by
  induction l with
  | nil => rfl
  | cons y ys ih =>
    rw [modifyFirst]
    split
    · rename_i hy
      rw [List.find?_cons_of_pos (by rw [hf]; exact hy), List.find?_cons_of_pos hy]
      rfl
    · rename_i hy
      rw [List.find?_cons_of_neg hy, List.find?_cons_of_neg hy, ih]

/-- What a delta is put in front of: the others on its branch. -/
def Leads (rf : RcsFile) (revnum : Revnum) : Prop :=
  ∀ x ∈ rf.deltatable, rf.real x = true → rcsrevPrefix (rf.revnum x) = rcsrevPrefix revnum →
    rcsnumCmp revnum (rf.revnum x) = .lt

/-- A delta that leads its branch is the first one there. -/
theorem first_insertdelta (hs : Sorted rf) (hi : Inv rf []) {revnum : Revnum} {rf1 : RcsFile}
    {b : BranchRef} (hfind : rf.findbranch revnum = .ok (rf1, some b)) (hd : rf1.revnum d = revnum)
    (hnot : rcsrevIstrunk revnum ≠ some true) (hlead : Leads rf revnum) :
    (rf1.insertdelta b d false).first b = some d := by
  obtain ⟨hi1, hk, hv⟩ := hi.findbranch hfind
  obtain ⟨hs1, htrunk⟩ := hs.findbranch hi hfind
  cases b with
  | trunk => exact absurd (htrunk rfl) hnot
  | ofDelta p brev =>
    obtain ⟨hp, ⟨b₀, hb₀, his⟩, hbp⟩ := hv _ rfl
    obtain ⟨dp, hdp⟩ := Option.isSome_iff_exists.mp (hi1.live p hp)
    have hbr : rf1.branches p = dp.branchlist := branches_of_mem hdp
    obtain ⟨b₁, hfound⟩ := Option.isSome_iff_exists.mp (List.find?_isSome.mpr ⟨b₀, hbr ▸ hb₀, his⟩)
    have hb₁ : b₁ ∈ rf1.branches p := hbr ▸ List.mem_of_find?_eq_some hfound
    have hnum : b₁.revnum = brev := by
      refine eq_of_rcsnumCmp (by simpa [Branch.is] using List.find?_some hfound) ?_
      exact count_eq_of_rcsrevPrefix ((hs1.branches p hp).branchNum b₁ hb₁)
        (branchpoint_eq_ok.mp hbp).2
    have hfront : insertdelta rf1 false d b₁.deltalist = d :: b₁.deltalist := by
      refine insertBefore_front fun x hx => ?_
      have hxm := hi1.mem_members.mp (mem_members_of_branch hp hb₁ hx)
      rw [hk.deltatable, hk.real] at hxm
      have hnumber := (hs1.branches p hp).deltaNum b₁ hb₁ x hx
      rw [hk.revnum, hnum, ← (branchpoint_eq_ok.mp hbp).1] at hnumber
      have := hlead x hxm.1 hxm.2 hnumber
      rw [hd, hk.revnum]
      simpa using this
    have hmem : (rf1.insertdelta (.ofDelta p brev) d false).mem p = some { dp with
        branchlist := modifyFirst (Branch.is brev)
          (fun b => { b with deltalist := insertdelta rf1 false d b.deltalist }) dp.branchlist } := by
      rw [RcsFile.insertdelta, modify_mem_self, hdp]
      rfl
    have hfind' := find?_modifyFirst (p := Branch.is brev)
      (f := fun b => { b with deltalist := insertdelta rf1 false d b.deltalist }) (fun _ => rfl)
      dp.branchlist
    rw [hfound] at hfind'
    simp only [RcsFile.first, hmem, bind, Option.bind, hfind', Option.map, hfront, List.head?_cons]

/-- What is new when the delta `d` is put into the tree, with the diffbase `db`. -/
structure Placed (rf rf' : RcsFile) (d : Ptr) (revnum : Revnum) (db : Option Ptr) : Prop where
  data : ∀ q, q ≠ d → rf'.data q = rf.data q
  delta : rf'.data d = (rf.data d).map fun dd => { dd with placeholder := false, diffbase := db }
  head : rf'.head = rf.head
  table : ∀ q, q ∈ rf'.deltatable ↔ q = d ∨ q ∈ rf.deltatable
  branches : ∀ q, ∀ b ∈ rf'.branches q, b ∈ rf.branches q ∨
    some b.revnum = rcsrevPrefix revnum ∨ d ∈ b.deltalist

theorem importplace_spec (hs : Sorted rf) (hi : Inv rf []) {revnum : Revnum} {placeholder : Bool}
    {dd : Delta} (hdata : rf.data d = some dd) (hrev : dd.revnum = revnum)
    (hph : dd.placeholder = placeholder) (hd : placeholder = true → d ∈ rf.deltatable)
    (hok : rf.importplace d revnum placeholder = .ok (some rf')) :
    ∃ db, Placed rf rf' d revnum db ∧
      (placeholder = true ∨ rcsrevIstrunk revnum = some true → db = dd.diffbase) ∧
      (placeholder = false → rcsrevIstrunk revnum ≠ some true → Leads rf revnum →
        ∃ bprev brev, branchpoint revnum = .ok (bprev, brev) ∧ db = rf.getdelta bprev) := by
  simp only [RcsFile.importplace, bind, Except.bind] at hok
  split at hok
  · cases hok
  rename_i v hfind
  obtain ⟨rf1, b⟩ := v
  cases b with
  | none => cases hok
  | some b =>
    obtain ⟨hd1, ht1, hh1, hb1⟩ := findbranch_frame hfind
    obtain ⟨hd2, hh2, ht2, hb2⟩ := insertdelta_frame rf1 b d (rcsrevIstrunk revnum = some true)
    obtain ⟨-, hk, hv⟩ := hi.findbranch hfind
    have hfirst := first_insertdelta (d := d) hs hi hfind (by
      rw [hk.revnum]
      obtain ⟨d₀, hd₀, rfl⟩ := Option.map_eq_some_iff.mp hdata
      simpa [RcsFile.revnum, hd₀, Delta.data] using hrev)
    have htab : (rf1.insertdelta b d (rcsrevIstrunk revnum = some true)).deltatable =
        rf.deltatable := by
      cases b <;> exact hk.deltatable
    have hdata2 (q : Ptr) :
        (rf1.insertdelta b d (rcsrevIstrunk revnum = some true)).data q = rf.data q :=
      (hd2 q).trans (hd1 q)
    have hbr (q : Ptr) (b' : Branch)
        (hb' : b' ∈ (rf1.insertdelta b d (rcsrevIstrunk revnum = some true)).branches q) :
        b' ∈ rf.branches q ∨ some b'.revnum = rcsrevPrefix revnum ∨ d ∈ b'.deltalist := by
      rcases hb2 q b' hb' with h | h
      · exact (hb1 q b' h).imp_right .inl
      · exact .inr (.inr h)
    have hhead := hh2.trans hh1
    -- the same deltas are found
    have hget (r : Revnum) : (rf1.insertdelta b d (rcsrevIstrunk revnum = some true)).getdelta r =
        rf.getdelta r := by
      refine getdelta_congr rf _ htab (fun q _ => ⟨?_, revnum_of_data (hdata2 q)⟩) r
      have := congrArg Option.isSome (hdata2 q)
      simpa [RcsFile.data] using this
    cases placeholder with
    | true =>
      obtain rfl := Option.some.inj (Except.ok.inj hok)
      refine ⟨dd.diffbase, ⟨fun q hq => ?_, ?_, hhead, fun q => ?_, fun q b' hb' => ?_⟩,
        fun _ => rfl, fun h => by cases h⟩
      · rw [data_modify_ne hq, hdata2]
      · have h2 := (hdata2 d).trans hdata
        obtain ⟨d₀, hd₀, rfl⟩ := Option.map_eq_some_iff.mp h2
        rw [RcsFile.data, modify_mem_self, hd₀, hdata]
        rfl
      · rw [show (RcsFile.modify _ d Delta.unmark).deltatable = _ from htab]
        refine ⟨.inr, fun h => h.elim (fun h => h ▸ hd rfl) id⟩
      · rw [modify_branches Delta.unmark_branchlist] at hb'
        exact hbr q b' hb'
    | false =>
      simp only [Bool.false_eq_true, if_false] at hok
      split at hok
      · cases hok
      rename_i rf3 hbase
      obtain rfl := Option.some.inj (Except.ok.inj hok)
      have hsame : ({ dd with placeholder := false, diffbase := dd.diffbase } : Delta) = dd := by
        rw [← hph]
      have htable (rf4 : RcsFile) (h4 : rf4.deltatable = rf.deltatable) (q : Ptr) :
          q ∈ (insertsorteddelta rf4 d).deltatable ↔ q = d ∨ q ∈ rf.deltatable := by
        rw [← h4]
        exact (insertBefore_perm _ _ _).mem_iff.trans List.mem_cons
      rw [RcsFile.importbase] at hbase
      split at hbase
      · rename_i hcond
        simp only [bind, Except.bind] at hbase
        split at hbase
        · cases hbase
        rename_i v hbp
        obtain ⟨bprev, brev⟩ := v
        dsimp only at hbase
        rw [hget] at hbase
        split at hbase
        · cases hbase
        rename_i bp hbpget
        obtain rfl := Except.ok.inj hbase
        refine ⟨some bp, ⟨fun q hq => (data_modify_ne hq).trans (hdata2 q), ?_, hhead,
          fun q => htable (RcsFile.modify _ d _) htab q, fun q b' hb' => ?_⟩, fun h => ?_,
          fun _ _ _ => ⟨bprev, brev, hbp, hbpget.symm⟩⟩
        · have h2 := (hdata2 d).trans hdata
          obtain ⟨d₀, hd₀, rfl⟩ := Option.map_eq_some_iff.mp h2
          rw [hdata]
          show ((RcsFile.modify _ d _).mem d).map Delta.data = _
          rw [modify_mem_self, hd₀]
          exact congrArg some (by rw [← show d₀.placeholder = false from hph]; rfl)
        · refine hbr q b' ?_
          have hset (d' : Delta) :
            ({ d' with diffbase := some bp } : Delta).branchlist = d'.branchlist := rfl
          rw [← modify_branches (p := d) (q := q) hset]
          exact hb'
        · exact absurd (h.resolve_left (by decide)) hcond.1
      · rename_i hcond
        obtain rfl := Except.ok.inj hbase
        refine ⟨dd.diffbase, ⟨fun q _ => hdata2 q, ?_, hhead, fun q => htable _ htab q, hbr⟩,
          fun _ => rfl, fun _ hnot hlead => ?_⟩
        · rw [hdata, Option.map_some, hsame]
          exact (hdata2 d).trans hdata
        · refine absurd ⟨hnot, ?_⟩ hcond
          rw [decide_eq_false hnot]
          exact hfirst hnot hlead

theorem importplace_some (hi : Inv rf []) {revnum : Revnum} {placeholder : Bool} {v : Option RcsFile}
    (hplace : HasPlace rf.look revnum) (hok : rf.importplace d revnum placeholder = .ok v) :
    ∃ rf', v = some rf' := by
  obtain ⟨rf1, b, hfind⟩ := hi.findbranch_isOk hplace
  simp only [RcsFile.importplace, bind, Except.bind, hfind] at hok
  split at hok
  · exact ⟨_, (Except.ok.inj hok).symm⟩
  · split at hok
    · cases hok
    · exact ⟨_, (Except.ok.inj hok).symm⟩

/-- What is new behind an entry, whose delta is `d`: there is a placeholder `n` for its next one. -/
structure Entered (rf rf' : RcsFile) (d n : Ptr) (dd : Delta) (next : Option Revnum) : Prop where
  data : ∀ q ∈ rf.deltatable, q ≠ d → rf'.data q = rf.data q
  delta : rf'.data d = some dd
  head : rf'.head = rf.head
  table : ∀ q, q ∈ rf'.deltatable ↔ q = d ∨ q ∈ rf.deltatable ∨ q = n ∧ next.isSome
  next : ∀ r, next = some r →
    rf'.data n = some { createdelta r with placeholder := true, diffbase := some d }
  newer : d < n ∧ ∀ q ∈ rf.deltatable, q < n
  branches : ∀ q ∈ rf'.deltatable, ∀ b ∈ rf'.branches q, q ∈ rf.deltatable ∧ b ∈ rf.branches q ∨
    some b.revnum = rcsrevPrefix dd.revnum ∨ d ∈ b.deltalist

theorem importinto_spec (hs : Sorted rf) (hi : Inv rf []) {dd : Delta} {placeholder : Bool}
    {revnum revdate author : List Byte} {state : Option (List Byte)} {next : Option Revnum}
    (hdata : rf.data d = some dd) (hrev : dd.revnum = revnum) (hph : dd.placeholder = placeholder)
    (hd : if placeholder then d ∈ rf.deltatable else Fresh rf d) (hplace : HasPlace rf.look revnum)
    (hok : rf.importinto d placeholder revnum revdate author state next = .ok rf') :
    ∃ db, Entered rf rf' d rf.brk
        { dd.fill revdate author state with placeholder := false, diffbase := db } next ∧
      (placeholder = true ∨ rcsrevIstrunk revnum = some true → db = dd.diffbase) ∧
      (placeholder = false → rcsrevIstrunk revnum ≠ some true → Leads rf revnum →
        ∃ bprev brev, branchpoint revnum = .ok (bprev, brev) ∧ db = rf.getdelta bprev) := by
  have hlive : (rf.mem d).isSome := by
    obtain ⟨d₀, hd₀, -⟩ := Option.map_eq_some_iff.mp hdata
    rw [hd₀]
    rfl
  have hltd : d < rf.brk := hi.fresh d hlive
  have hdbl : dd.branchlist = [] := by
    obtain ⟨d₀, -, rfl⟩ := Option.map_eq_some_iff.mp hdata
    rfl
  have hlt : ∀ q ∈ rf.deltatable, q < rf.brk := fun q hq => hi.fresh q (hi.live q hq)
  have hiF : Inv (rf.modify d (Delta.fill revdate author state)) [] :=
    hi.modify (fun _ => rfl) (fun _ => rfl) fun _ => rfl
  have hsF : Sorted (rf.modify d (Delta.fill revdate author state)) :=
    hs.modify hi (Delta.fill_revnum _ _ _) (Delta.fill_branchlist _ _ _)
  have hdF : (rf.modify d (Delta.fill revdate author state)).data d =
      some (dd.fill revdate author state) := by
    obtain ⟨d₀, hd₀, rfl⟩ := Option.map_eq_some_iff.mp hdata
    rw [RcsFile.data, modify_mem_self, hd₀]
    rfl
  have hqF {q : Ptr} (hq : q ≠ d) :
      (rf.modify d (Delta.fill revdate author state)).data q = rf.data q := data_modify_ne hq
  have hlookF : (rf.modify d (Delta.fill revdate author state)).look = rf.look :=
    look_modify (fun _ => rfl) fun _ => rfl
  have hrevF (q : Ptr) : (rf.modify d (Delta.fill revdate author state)).revnum q = rf.revnum q :=
    modify_revnum (Delta.fill_revnum _ _ _)
  have hrealF (q : Ptr) : (rf.modify d (Delta.fill revdate author state)).real q = rf.real q :=
    modify_real (Delta.fill_placeholder _ _ _)
  have hgetF (r : Revnum) : (rf.modify d (Delta.fill revdate author state)).getdelta r =
      rf.getdelta r :=
    getdelta_congr rf (rf.modify d (Delta.fill revdate author state)) rfl
      (fun _ _ => ⟨modify_isSome, hrevF _⟩) r
  have hbrF (q : Ptr) : (rf.modify d (Delta.fill revdate author state)).branches q = rf.branches q :=
    modify_branches (Delta.fill_branchlist _ _ _)
  have htabF : (rf.modify d (Delta.fill revdate author state)).deltatable = rf.deltatable := rfl
  have hbrkF : (rf.modify d (Delta.fill revdate author state)).brk = rf.brk := rfl
  have hheadF : (rf.modify d (Delta.fill revdate author state)).head = rf.head := rfl
  have hleadF (h : Leads rf revnum) : Leads (rf.modify d (Delta.fill revdate author state)) revnum :=
    fun x hx hreal hpre => by
      rw [hrealF] at hreal
      rw [hrevF] at hpre ⊢
      exact h x hx hreal hpre
  have hdmem : placeholder = true → d ∈ rf.deltatable := fun hp => by rwa [hp, if_pos rfl] at hd
  have hdbr : placeholder = false → rf.branches d = [] := fun hp => by
    rw [hp, if_neg (by decide)] at hd
    exact hd.branches
  simp only [RcsFile.importinto, bind, Except.bind] at hok
  generalize rf.modify d (Delta.fill revdate author state) = rf1 at *
  -- where the branches of a delta of the table were
  have hbranches (rf2 : RcsFile) (h2 : ∀ q, ∀ b ∈ rf2.branches q, b ∈ rf1.branches q ∨
      some b.revnum = rcsrevPrefix revnum ∨ d ∈ b.deltalist) {q : Ptr} (hq : q = d ∨ q ∈ rf.deltatable)
      {b : Branch} (hb : b ∈ rf2.branches q) : q ∈ rf.deltatable ∧ b ∈ rf.branches q ∨
        some b.revnum = rcsrevPrefix (dd.fill revdate author state).revnum ∨ d ∈ b.deltalist := by
    rw [Delta.fill_revnum, hrev]
    refine (h2 q b hb).imp_left fun hb => ?_
    rw [hbrF] at hb
    rcases hq with rfl | hq
    · cases placeholder with
      | true => exact ⟨hdmem rfl, hb⟩
      | false => rw [hdbr rfl] at hb; cases hb
    · exact ⟨hq, hb⟩
  cases next with
  | none =>
    simp only [RcsFile.importnext] at hok
    split at hok
    · cases hok
    rename_i v hv
    obtain ⟨rf2, rfl⟩ := importplace_some hiF (hlookF ▸ hplace) hv
    obtain rfl := Except.ok.inj hok
    obtain ⟨db, hplaced, hdb, hdb'⟩ := importplace_spec hsF hiF hdF hrev hph
      (fun hp => htabF ▸ hdmem hp) hv
    refine ⟨db, ⟨fun q hq hqd => (hplaced.data q hqd).trans (hqF hqd), ?_, hplaced.head.trans hheadF,
      fun q => ?_, fun r hr => (by cases hr), ⟨hltd, hlt⟩, fun q hq b hb => ?_⟩, hdb,
      fun hp hn hl => ?_⟩
    · rw [hplaced.delta, hdF, Option.map_some]
    · rw [hplaced.table, htabF]
      simp
    · exact hbranches _ hplaced.branches (htabF ▸ (hplaced.table q).mp hq) hb
    · obtain ⟨bprev, brev, hbp, heq⟩ := hdb' hp hn (hleadF hl)
      exact ⟨bprev, brev, hbp, heq.trans (hgetF bprev)⟩
  | some next =>
    simp only [RcsFile.importnext] at hok
    generalize hdn : { createdelta next with placeholder := true, diffbase := some d } = dn at hok
    have hdnd : dn.data = dn := by rw [← hdn]; rfl
    have hiA := hiF.alloc dn
    have hsA := hsF.alloc hiF dn
    have hne : d ≠ rf1.brk := Nat.ne_of_lt (hbrkF ▸ hltd)
    have hold {q : Ptr} (hq : q ∈ rf.deltatable) : q ≠ rf1.brk := Nat.ne_of_lt (hbrkF ▸ hlt q hq)
    have hdA : (rf1.alloc dn).data d = some (dd.fill revdate author state) :=
      (data_alloc dn hne).trans hdF
    have hgetA (r : Revnum) : (rf1.alloc dn).getdelta r = rf1.getdelta r := by
      refine getdelta_congr rf1 (rf1.alloc dn) rfl (fun q hq => ?_) r
      have := hold (htabF ▸ hq)
      exact ⟨by rw [alloc_mem this], by rw [RcsFile.revnum, alloc_mem this, RcsFile.revnum]⟩
    split at hok
    · cases hok
    rename_i v hv
    obtain ⟨rf2, rfl⟩ := importplace_some hiA (by rw [hiF.look_alloc, hlookF]; exact hplace) hv
    obtain rfl := Except.ok.inj hok
    obtain ⟨db, hplaced, hdb, hdb'⟩ := importplace_spec hsA hiA hdA hrev hph
      (fun hp => htabF ▸ hdmem hp) hv
    have hleadA (h : Leads rf revnum) : Leads (rf1.alloc dn) revnum := fun x hx hreal hpre => by
      have hxne := hold (htabF ▸ hx)
      have hdata := data_alloc dn hxne
      rw [real_of_data hdata] at hreal
      rw [revnum_of_data hdata] at hpre ⊢
      exact hleadF h x hx hreal hpre
    have htable (q : Ptr) : q ∈ (insertsorteddelta rf2 rf1.brk).deltatable ↔
        q = rf1.brk ∨ q ∈ rf2.deltatable := (insertBefore_perm _ _ _).mem_iff.trans List.mem_cons
    refine ⟨db, ⟨fun q hq hqd => ?_, ?_, hplaced.head.trans hheadF, fun q => ?_, fun r hr => ?_,
      ⟨hltd, hlt⟩, fun q hq b hb => ?_⟩, hdb, fun hp hn hl => ?_⟩
    · exact (hplaced.data q hqd).trans ((data_alloc dn (hold hq)).trans (hqF hqd))
    · show rf2.data d = _
      rw [hplaced.delta, hdA, Option.map_some]
    · rw [htable, hplaced.table, hbrkF]
      show _ ∨ _ ∨ q ∈ rf1.deltatable ↔ _
      rw [htabF]
      simp only [Option.isSome_some, and_true]
      exact ⟨fun h => h.elim (fun h => .inr (.inr h)) fun h => h.imp_right .inl,
        fun h => h.elim (fun h => .inr (.inl h)) fun h => h.elim (fun h => .inr (.inr h)) .inl⟩
    · obtain rfl := Option.some.inj hr
      show rf2.data rf.brk = _
      rw [← hbrkF, hplaced.data _ hne.symm, data_alloc_brk, hdnd, ← hdn]
    · have hb2 : b ∈ rf2.branches q := hb
      have hbA := hplaced.branches q b hb2
      rcases (htable q).mp hq with rfl | hq
      · rcases hbA with hbA | hbA
        · rw [(hiF.fresh_alloc (by rw [← hdn]; rfl)).branches] at hbA
          cases hbA
        · rw [Delta.fill_revnum, hrev]
          exact .inr hbA
      · refine hbranches rf2 (fun q' b' hb' => ?_) (htabF ▸ (hplaced.table q).mp hq) hb2
        refine (hplaced.branches q' b' hb').imp_left fun hb' => ?_
        by_cases hq' : q' = rf1.brk
        · rw [hq', (hiF.fresh_alloc (by rw [← hdn]; rfl)).branches] at hb'
          cases hb'
        · rwa [RcsFile.branches, alloc_mem hq'] at hb'
    · obtain ⟨bprev, brev, hbp, heq⟩ := hdb' hp hn (hleadA hl)
      exact ⟨bprev, brev, hbp, heq.trans ((hgetA bprev).trans (hgetF bprev))⟩

/-- The delta of an entry, from where it has its place. -/
def entryDelta (e : DeltaEntry) (db : Option Ptr) : Delta :=
  { createdelta e.revnum with
    revdate := e.revdate, author := e.author, state := e.state, diffbase := db }

theorem importdelta_spec (hs : Sorted rf) (hi : Inv rf []) {e : DeltaEntry}
    (hold : ∀ d, rf.getdelta e.revnum = some d → ∃ b,
      rf.data d = some { createdelta e.revnum with placeholder := true, diffbase := some b })
    (hplace : HasPlace rf.look e.revnum)
    (hok : rf.importdelta e.revnum e.revdate e.author e.state e.next = .ok rf') :
    ∃ d n db, Entered rf rf' d n (entryDelta e db) e.next ∧
      (rf.getdelta e.revnum = some d ∧ rf.diffbase d = db ∨
        rf.getdelta e.revnum = none ∧ d ∉ rf.deltatable ∧ (∀ q ∈ rf.deltatable, q < d) ∧
          (rcsrevIstrunk e.revnum = some true → db = none) ∧
          (rcsrevIstrunk e.revnum ≠ some true → Leads rf e.revnum →
            ∃ bprev brev, branchpoint e.revnum = .ok (bprev, brev) ∧ db = rf.getdelta bprev)) := by
  have hfill {dd : Delta} (db : Option Ptr) (hst : dd.state = none) (h : dd = { createdelta e.revnum with
      placeholder := dd.placeholder, diffbase := dd.diffbase }) :
      ({ dd.fill e.revdate e.author e.state with placeholder := false, diffbase := db } : Delta) =
        entryDelta e db := by
    rw [h]
    cases hstate : e.state <;> simp [Delta.fill, entryDelta, createdelta, hstate]
  rw [RcsFile.importdelta] at hok
  split at hok
  · rename_i hnone
    have hdata : (rf.alloc (createdelta e.revnum)).data rf.brk = some (createdelta e.revnum) :=
      data_alloc_brk _
    have hne {q : Ptr} (hq : q ∈ rf.deltatable) : q ≠ rf.brk := hi.ne_brk (hi.live q hq)
    obtain ⟨db, hent, htrunk, hlead⟩ := importinto_spec (hs.alloc hi _) (hi.alloc _) hdata rfl rfl
      (hi.fresh_alloc rfl) (by rw [hi.look_alloc]; exact hplace) hok
    have hget (r : Revnum) : (rf.alloc (createdelta e.revnum)).getdelta r = rf.getdelta r := by
      refine getdelta_congr rf (rf.alloc (createdelta e.revnum)) rfl (fun q hq => ?_) r
      exact ⟨by rw [alloc_mem (hne hq)], by rw [RcsFile.revnum, alloc_mem (hne hq), RcsFile.revnum]⟩
    rw [hfill db rfl rfl] at hent
    refine ⟨rf.brk, _, db, ⟨fun q hq hqd => (hent.data q hq hqd).trans (data_alloc _ (hne hq)),
      hent.delta, hent.head, hent.table, hent.next, hent.newer, fun q hq b hb => ?_⟩,
      .inr ⟨hnone, fun hmem => hne hmem rfl, fun q hq => hi.fresh q (hi.live q hq),
        fun ht => htrunk (.inr ht), fun hn hl => ?_⟩⟩
    · refine (hent.branches q hq b hb).imp_left fun hqb => ⟨hqb.1, ?_⟩
      have hb := hqb.2
      rwa [RcsFile.branches, alloc_mem (hne hqb.1)] at hb
    · obtain ⟨bprev, brev, hbp, heq⟩ := hlead rfl hn fun x hx hreal hpre => by
        have hdx : (rf.alloc (createdelta e.revnum)).data x = rf.data x := data_alloc _ (hne hx)
        rw [real_of_data hdx] at hreal
        rw [revnum_of_data hdx] at hpre ⊢
        exact hl x hx hreal hpre
      exact ⟨bprev, brev, hbp, heq.trans (hget bprev)⟩
  · rename_i d hd
    obtain ⟨b, hdata⟩ := hold d hd
    obtain ⟨hdt, d₀, hd₀, -⟩ := getdelta_some hd
    have hph : d₀.placeholder = true := by
      rw [RcsFile.data, hd₀] at hdata
      exact congrArg Delta.placeholder (Option.some.inj hdata)
    have hdiff : rf.diffbase d = some b := by
      rw [RcsFile.data, hd₀] at hdata
      rw [RcsFile.diffbase, hd₀]
      exact congrArg Delta.diffbase (Option.some.inj hdata)
    simp only [bind, Except.bind, deref_ok.mpr hd₀, hph, if_true] at hok
    obtain ⟨db, hent, hdb, -⟩ := importinto_spec hs hi hdata rfl rfl hdt hplace hok
    rw [hfill db rfl rfl] at hent
    exact ⟨d, _, db, hent, .inl ⟨hd, hdiff.trans (hdb (.inl rfl)).symm⟩⟩

end Csup.Rcs
