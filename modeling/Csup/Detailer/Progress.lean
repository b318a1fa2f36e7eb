import Csup.Detailer.Once

/-!
# The detailer comes to its end

As long as it has not, there is a thread that can go on; and they do not go on for
ever.

* `Inv.finished`: when no thread can go on the detailer has finished;
* `Step.rank_lt`: each step takes from `State.rank`.
-/

namespace Csup.Detailer

variable {C N : Type*} {conf : Config C N} {names : C → List N} {s s' : State C N}

/-! ## They do not go on for ever -/

def UpdaterPc.rank : UpdaterPc C N → Nat
  | idle => 0
  | locked _ => 4
  | unlock _ => 3
  | signal => 2

def DetailerPc.rank (fixup : Option (Fixup C N)) (fixupseof : Bool) : DetailerPc C N → Nat
  | loop => 8
  | block => if fixupseof then 1 else if fixup.isNone then 5 else 6
  | call => 4
  | locked => 3
  | wait => 2
  | woken => 4
  | unlock ret => if ret.isNone then 2 else 7
  | finished => 0

/-- A collection and a fixup in the queue count for more than a turn of the detailer, and
a call of the updater for more than a fixup. -/
def State.rank (s : State C N) : Nat :=
  10 * (5 * s.todo.length + s.updater.rank) +
    10 * (s.fixups.fixupq ++ s.pending.filterMap Op.fixup).length + 10 * s.colls.length +
    s.detailer.rank s.fixup s.fixupseof

theorem rank_wake (pc : DetailerPc C N) (fixup : Option (Fixup C N)) (eof : Bool) :
    pc.wake.rank fixup eof ≤ pc.rank fixup eof + 2 := by
  cases pc <;> simp [DetailerPc.wake, DetailerPc.rank]

theorem Write.rank_lt {line : Line N} (hw : Write conf s line s') : s'.rank < s.rank := by
  cases hw with
  | done hd => simp [State.rank, State.pending, hd, DetailerPc.rank]
  | coll hd =>
    simp only [State.rank, State.pending, hd, DetailerPc.rank]
    split <;> [skip; split] <;> omega
  | eof hd hc he =>
    simp [State.rank, State.pending, hd, hc, he, DetailerPc.rank]
    omega
  | other hd hc he hf =>
    simp [State.rank, State.pending, hd, hc, he, hf, DetailerPc.rank]
    omega
  | request hd hc he hf => simp [State.rank, State.pending, hd, he, hf, DetailerPc.rank]

theorem Step.rank_lt (hs : Step conf s s') : s'.rank < s.rank := by
  cases hs with
  | write _ hw => exact hw.rank_lt
  | lock hu ht =>
    simp [State.rank, State.pending, hu, ht, UpdaterPc.op, UpdaterPc.rank]
    omega
  | @op op _ _ hu hc =>
    simp [State.rank, State.pending, hu, UpdaterPc.op, UpdaterPc.rank, call_fixupq hc]
    cases op <;> simp [Op.fixup, List.filterMap_cons]
    omega
  | @unlock dosignal hu =>
    cases dosignal <;> simp [State.rank, State.pending, hu, UpdaterPc.op, UpdaterPc.rank]
  | signal hu =>
    have hw := rank_wake s.detailer s.fixup s.fixupseof
    simp [State.rank, State.pending, hu, UpdaterPc.op, UpdaterPc.rank]
    omega
  | skip _ _ hc => simp [State.rank, State.pending, hc]
  | call _ hd he hf => simp [State.rank, State.pending, hd, he, hf, DetailerPc.rank]
  | get hd => rcases hd with hd | hd <;> simp [State.rank, State.pending, hd, DetailerPc.rank]
  | wait hd => simp [State.rank, State.pending, hd, DetailerPc.rank]
  | ret hd hg =>
    rcases get_ret hg with ⟨rfl, rfl, -⟩ | ⟨f, fixupq, rfl, hq, -, rfl⟩
    · simp [State.rank, State.pending, hd, DetailerPc.rank]
    · simp [State.rank, State.pending, hd, hq, DetailerPc.rank]
      omega
  | @got fixup hd => cases fixup <;> simp [State.rank, State.pending, hd, DetailerPc.rank]

theorem wellFounded_step (conf : Config C N) : WellFounded fun s' s => Step conf s s' :=
  Subrelation.wf Step.rank_lt (measure State.rank).wf

/-! ## Nobody gets stuck -/

theorem loop_step (hf : s.failed = false) (hd : s.detailer = .loop) : ∃ s', Step conf s s' := by
  cases hc : s.colls with
  | nil => exact ⟨_, .write hf (.done hd hc)⟩
  | cons c colls =>
    cases hk : (conf.coll c).skip with
    | true => exact ⟨_, .skip hf hd hc hk⟩
    | false => exact ⟨_, .write hf (.coll hd hc hk)⟩

variable [DecidableEq C]

theorem Inv.op_step (h : Inv conf names s) {op : Op C N} (hu : s.updater = .locked op) :
    ∃ s', Step conf s s' := by
  have hc : s.fixups.closed = false := by
    by_contra hc
    simpa [State.pending, hu, UpdaterPc.op] using h.queue.closed (by simpa using hc)
  cases op with
  | put f => exact ⟨_, .op hu (by rw [Fixups.call, Fixups.put, hc]; rfl)⟩
  | close => exact ⟨_, .op hu rfl⟩

theorem Inv.get_step (h : Inv conf names s) (hd : s.detailer = .locked) :
    ∃ s', Step conf s s' := by
  cases hg : s.fixups.get with
  | none => exact absurd hg (get_ne_none h.queue.size)
  | some got =>
    cases got with
    | wait => exact ⟨_, .wait hd hg⟩
    | ret fixup q => exact ⟨_, .ret hd hg⟩

theorem Inv.lock_step (h : Inv conf names s) (hl : s.fixups.lock ≠ none) :
    ∃ s', Step conf s s' := by
  cases ht : s.fixups.lock with
  | none => exact absurd ht hl
  | some t =>
    cases t with
    | updater =>
      have hu := h.lock.updater.mp ht
      cases hp : s.updater with
      | idle | signal => simp [hp, UpdaterPc.Locked] at hu
      | locked op => exact h.op_step hp
      | unlock => exact ⟨_, .unlock hp⟩
    | detailer =>
      have hd := h.lock.detailer.mp ht
      cases hp : s.detailer with
      | locked => exact h.get_step hp
      | unlock => exact ⟨_, .got hp⟩
      | _ => simp [hp, DetailerPc.Locked] at hd

theorem Inv.block_step (h : Inv conf names s) (hf : s.failed = false) (hd : s.detailer = .block) :
    ∃ s', Step conf s s' := by
  obtain ⟨c, colls, hc⟩ := List.exists_cons_of_ne_nil (h.asks.colls (.inl hd))
  cases he : s.fixupseof with
  | true => exact ⟨_, .write hf (.eof hd hc he)⟩
  | false =>
    cases hx : s.fixup with
    | none => exact ⟨_, .call hf hd he hx⟩
    | some f =>
      by_cases hfc : f.coll = c
      · exact ⟨_, .write hf (.request hd hc he hx hfc)⟩
      · exact ⟨_, .write hf (.other hd hc he hx hfc)⟩

/-- While the detailer waits the updater goes on. -/
theorem Inv.wait_step (h : Inv conf names s) (hd : s.detailer = .wait) : ∃ s', Step conf s s' := by
  by_cases hl : s.fixups.lock = none
  · cases hu : s.updater with
    | locked op => exact h.op_step hu
    | unlock => exact ⟨_, .unlock hu⟩
    | signal => exact ⟨_, .signal hu⟩
    | idle =>
      cases ht : s.todo with
      | cons op todo => exact ⟨_, .lock hu ht hl⟩
      | nil =>
        rcases h.awake hd with ⟨-, hc⟩ | hs
        · obtain ⟨fs, hp⟩ := h.queue.opened hc
          simp [State.pending, hu, ht, UpdaterPc.op] at hp
        · simp [hu, UpdaterPc.Signals] at hs
  · exact h.lock_step hl

theorem Inv.finished (h : Inv conf names s) (hf : s.failed = false)
    (hs : ∀ s', ¬Step conf s s') : s.detailer = .finished := by
  have hn : ¬∃ s', Step conf s s' := fun ⟨s', h'⟩ => hs s' h'
  have hl : s.fixups.lock = none := by
    by_contra hl
    exact hn (h.lock_step hl)
  cases hd : s.detailer with
  | loop => exact absurd (loop_step hf hd) hn
  | block => exact absurd (h.block_step hf hd) hn
  | call => exact absurd ⟨_, .get (.inl hd) hl⟩ hn
  | locked => exact absurd (h.get_step hd) hn
  | wait => exact absurd (h.wait_step hd) hn
  | woken => exact absurd ⟨_, .get (.inr hd) hl⟩ hn
  | unlock => exact absurd ⟨_, .got hd⟩ hn
  | finished => rfl

/-! ## All fixups -/

/-- The detailer does not wait while there is something in the queue, unless it is about
to be woken up; what it has written is a part of what it should write, in whatever order
the threads went on; and they go on until it is all of it, if it could be written. -/
theorem fixups_once (conf : Config C N) (names : C → List N) :
    (∀ s, Run conf names s →
      (s.detailer = .wait → s.fixups.fixupq ≠ [] ∨ s.fixups.closed = true → s.updater.Signals) ∧
      s.out <+: conf.expected names ∧
      (s.failed = false → (∀ s', ¬Step conf s s') →
        s.detailer = .finished ∧ s.out = conf.expected names)) ∧
    WellFounded fun s' s => Step conf s s' := by
  refine ⟨fun s hr => ⟨fun hd hq => ?_, ?_, fun hf hs => ?_⟩, wellFounded_step conf⟩
  · rcases hr.inv.awake hd with ⟨h0, hc⟩ | hsig
    · have he := List.eq_nil_of_length_eq_zero (hr.inv.queue.size.symm.trans h0)
      simp [he, hc] at hq
    · exact hsig
  · exact ⟨s.rest conf, hr.inv.written⟩
  · have hd := hr.inv.finished hf hs
    have hw := hr.inv.written
    rw [State.rest, hd, List.append_nil] at hw
    exact ⟨hd, hw⟩

/-- One collection. -/
def oneColl : Config Unit Nat := ⟨[()], by decide, fun _ => ⟨false, true, 1, 2, 3, 4⟩⟩

/-- The detailer waits, and then there is a fixup. -/
theorem exists_waiting : ∃ s, Run oneColl (fun _ => [7]) s ∧ s.detailer = .wait ∧
    s.fixups.fixupq ≠ [] ∧ s.failed = false := by
  have h1 := Run.init.next (.step (.write rfl (.coll rfl rfl rfl)) : Next oneColl (.init _ fun _ => [7]) _)
  have h2 := h1.next (.step (.call rfl rfl rfl rfl))
  have h3 := h2.next (.step (.get (.inl rfl) rfl))
  have h4 := h3.next (.step (.wait rfl rfl))
  have h5 := h4.next (.step (.lock rfl rfl rfl))
  have h6 := h5.next (.step (.op rfl rfl))
  have h7 := h6.next (.step (.unlock rfl))
  exact ⟨_, h7, rfl, by simp, rfl⟩

theorem fixups_once_waiting : ∃ s, Run oneColl (fun _ => [7]) s ∧ s.detailer = .wait ∧
    s.updater.Signals ∧ s.out <+: [.coll 1 2, .Y 7 3 4, .dot, .dot] ∧
    ((∀ s', ¬Step oneColl s s') → s.out = [.coll 1 2, .Y 7 3 4, .dot, .dot]) := by
  obtain ⟨s, h, hd, hq, hf⟩ := exists_waiting
  obtain ⟨hw, hp, hs⟩ := (fixups_once oneColl fun _ => [7]).1 s h
  exact ⟨s, h, hd, hw hd (.inl hq), hp, fun hn => (hs hf hn).2⟩

end Csup.Detailer
