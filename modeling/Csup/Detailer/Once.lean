import Csup.Detailer.Queue

/-!
# Fixups are asked for once

Whatever the order in which the threads go on, what the detailer writes is what it
would write if it had all fixups from the beginning (`Config.expected`).

* `Write.rest_eq`: a line that is written is the next of `State.rest`, what is still to
  be written;
* `Inv.next`: what was written and what is still to be written are `expected`.
-/

namespace Csup.Detailer

variable {C N : Type*} {conf : Config C N} {names : C → List N}
  {s s' : State C N}

/-! ## What is left -/

def Op.fixup : Op C N → Option (Fixup C N)
  | put f => some f
  | close => none

/-- What `fixups_get` is about to return. -/
def DetailerPc.ret : DetailerPc C N → Option (Fixup C N)
  | unlock ret => ret
  | _ => none

/-- The fixups that are not written yet, in their order. -/
def State.left (s : State C N) : List (Fixup C N) :=
  s.fixup.toList ++ s.detailer.ret.toList ++ s.fixups.fixupq ++ s.pending.filterMap Op.fixup

theorem left_congr (hf : s'.fixup = s.fixup) (hr : s'.detailer.ret = s.detailer.ret)
    (hq : s'.fixups.fixupq ++ s'.pending.filterMap Op.fixup =
      s.fixups.fixupq ++ s.pending.filterMap Op.fixup) : s'.left = s.left := by
  rw [State.left, State.left, hf, hr, List.append_assoc, hq, ← List.append_assoc]

theorem ret_wake (pc : DetailerPc C N) : pc.wake.ret = pc.ret := by cases pc <;> rfl

/-- A call puts the fixup where it stays in its place. -/
theorem call_fixupq {q q' : Fixups C N} {op : Op C N} {dosignal : Bool}
    (h : q.call op = some (q', dosignal)) : q'.fixupq = q.fixupq ++ op.fixup.toList := by
  cases op with
  | put f => rw [(call_put h).2.1]; rfl
  | close => rw [(call_close h).1]; exact (List.append_nil _).symm

/-! ## What is written for fixups -/

variable [DecidableEq C]

/-- All that the detailer writes, given the names for each collection. -/
def Config.expected (conf : Config C N) (names : C → List N) : List (Line N) :=
  ((conf.colls.filter fun c => !(conf.coll c).skip).flatMap fun c =>
    (conf.coll c).line :: (names c).map (conf.coll c).request ++ [.dot]) ++ [.dot]

/-- The fixups for `c` at the head of the queue, and what is behind them. -/
def requests (conf : Config C N) (c : C) (fs : List (Fixup C N)) : List (Line N) :=
  (fs.takeWhile (·.coll = c)).map fun f => (conf.coll c).request f.name

def dropColl (c : C) (fs : List (Fixup C N)) : List (Fixup C N) := fs.dropWhile (·.coll = c)

/-- What the detailer writes for the collections `cs` when `fs` is all that it gets. -/
def blocks (conf : Config C N) : List C → List (Fixup C N) → List (Line N)
  | [], _ => [.dot]
  | c :: cs, fs =>
    if (conf.coll c).skip then blocks conf cs fs
    else (conf.coll c).line :: (requests conf c fs ++ .dot :: blocks conf cs (dropColl c fs))

theorem requests_of_ne (conf : Config C N) {c : C} {fs : List (Fixup C N)} (h : ∀ f ∈ fs.head?, f.coll ≠ c) :
    requests conf c fs = [] ∧ dropColl c fs = fs := by
  cases fs with
  | nil => exact ⟨rfl, rfl⟩
  | cons f fs =>
    have hne : f.coll ≠ c := h f rfl
    simp [requests, dropColl, hne]

theorem requests_cons (conf : Config C N) (f : Fixup C N) (fs : List (Fixup C N)) :
    requests conf f.coll (f :: fs) = (conf.coll f.coll).request f.name :: requests conf f.coll fs ∧
      dropColl f.coll (f :: fs) = dropColl f.coll fs := by
  simp [requests, dropColl]

theorem requests_append (conf : Config C N) (c : C) (ns : List N) {fs : List (Fixup C N)}
    (h : ∀ f ∈ fs.head?, f.coll ≠ c) :
    requests conf c (ns.map (Fixup.mk c) ++ fs) = ns.map (conf.coll c).request ∧
      dropColl c (ns.map (Fixup.mk c) ++ fs) = fs := by
  induction ns with
  | nil => exact requests_of_ne conf h
  | cons n ns ih =>
    have hc := requests_cons conf ⟨c, n⟩ (ns.map (Fixup.mk c) ++ fs)
    simp only [List.map_cons, List.cons_append]
    exact ⟨hc.1.trans (congrArg _ ih.1), hc.2.trans ih.2⟩

/-- With the fixups in the order of the collections, each is in the block of its own. -/
theorem blocks_fixups (conf : Config C N) (names : C → List N) :
    blocks conf conf.colls (conf.fixups names) = conf.expected names := by
  suffices h : ∀ cs : List C, cs.Nodup →
      blocks conf cs ((cs.filter fun c => !(conf.coll c).skip).flatMap fun c =>
        (names c).map (Fixup.mk c)) =
      ((cs.filter fun c => !(conf.coll c).skip).flatMap fun c =>
        (conf.coll c).line :: (names c).map (conf.coll c).request ++ [.dot]) ++ [.dot] from
    h conf.colls conf.nodup
  intro cs hcs
  induction cs with
  | nil => rfl
  | cons c cs ih =>
    obtain ⟨hc, hcs⟩ := List.nodup_cons.mp hcs
    by_cases hk : (conf.coll c).skip = true
    · simpa [blocks, hk] using ih hcs
    · have hne : ∀ f ∈ ((cs.filter fun c => !(conf.coll c).skip).flatMap fun c =>
          (names c).map (Fixup.mk c)).head?, f.coll ≠ c := by
        intro f hf
        obtain ⟨d, hd, hf⟩ := List.mem_flatMap.mp (List.mem_of_mem_head? hf)
        obtain ⟨n, -, rfl⟩ := List.mem_map.mp hf
        exact fun h => hc (h ▸ (List.mem_filter.mp hd).1)
      obtain ⟨hr, hd⟩ := requests_append conf c (names c) hne
      rw [List.filter_cons_of_pos (by simpa using hk), List.flatMap_cons, List.flatMap_cons, blocks,
        if_neg hk, hr, hd, ih hcs]
      simp

/-- The rest of a block, and what is behind it. -/
def blockRest (conf : Config C N) (fs : List (Fixup C N)) : List C → List (Line N)
  | [] => []
  | c :: cs => requests conf c fs ++ .dot :: blocks conf cs (dropColl c fs)

/-- What is still to be written. -/
def State.rest (conf : Config C N) (s : State C N) : List (Line N) :=
  match s.detailer with
  | .loop => blocks conf s.colls s.left
  | .finished => []
  | _ => blockRest conf s.left s.colls

structure Inv (conf : Config C N) (names : C → List N) (s : State C N) : Prop where
  queue : s.Queue
  lock : s.Lock
  asks : s.Asks
  held : s.Held
  awake : s.Awake
  /-- At the end of the queue there is nothing left. -/
  eof : s.fixupseof = true ∨ s.detailer = .unlock none → s.left = []
  written : s.out ++ s.rest conf = conf.expected names

/-! ## The steps -/

theorem rest_loop (conf : Config C N) (h : s.detailer = .loop) :
    s.rest conf = blocks conf s.colls s.left := by
  rw [State.rest, h]

theorem rest_block (conf : Config C N) (h : s.detailer = .block ∨ s.detailer.Getting) :
    s.rest conf = blockRest conf s.left s.colls := by
  unfold State.rest
  split <;> simp_all [DetailerPc.Getting]

theorem rest_congr (conf : Config C N) (hl : s'.left = s.left) (hc : s'.colls = s.colls)
    (hd : s'.detailer = s.detailer ∨ (s.detailer = .block ∨ s.detailer.Getting) ∧
      (s'.detailer = .block ∨ s'.detailer.Getting)) :
    s'.left = s.left ∧ s'.rest conf = s.rest conf := by
  refine ⟨hl, ?_⟩
  rcases hd with hd | ⟨hd, hd'⟩
  · rw [State.rest, State.rest, hl, hc, hd]
  · rw [rest_block conf hd, rest_block conf hd', hl, hc]

theorem rest_skip (conf : Config C N) {c : C} (hd : s.detailer = .loop) (hd' : s'.detailer = .loop)
    (hc : s.colls = c :: s'.colls) (hk : (conf.coll c).skip = true) (hl : s'.left = s.left) :
    s'.rest conf = s.rest conf := by
  rw [rest_loop conf hd, rest_loop conf hd', hl, hc, blocks, if_pos hk]

theorem rest_dot (conf : Config C N) {c : C} (hd : s.detailer = .block) (hd' : s'.detailer = .loop)
    (hc : s.colls = c :: s'.colls) (hl : s'.left = s.left) (h : ∀ f ∈ s.left.head?, f.coll ≠ c) :
    s.rest conf = .dot :: s'.rest conf := by
  obtain ⟨hr, hq⟩ := requests_of_ne conf h
  rw [rest_block conf (.inl hd), rest_loop conf hd', hl, hc, blockRest, hr, hq]
  rfl

theorem rest_request (conf : Config C N) {f : Fixup C N} (hd : s.detailer = .block)
    (hd' : s'.detailer = .block) (hc : s.colls.head? = some f.coll) (hc' : s'.colls = s.colls)
    (hl : s.left = f :: s'.left) :
    s.rest conf = (conf.coll f.coll).request f.name :: s'.rest conf := by
  obtain ⟨colls, hs⟩ := List.head?_eq_some_iff.mp hc
  obtain ⟨hr, hq⟩ := requests_cons conf f s'.left
  rw [rest_block conf (.inl hd), rest_block conf (.inl hd'), hl, hc', hs, blockRest, blockRest, hr, hq]
  rfl

/-- A line that is written is the next one. -/
theorem Write.rest_eq {line : Line N} (he : s.fixupseof = true → s.left = [])
    (hw : Write conf s line s') : s.rest conf = line :: s'.rest conf := by
  cases hw with
  | done hd hc => rw [rest_loop conf hd, hc]; rfl
  | @coll c colls hd hc hk =>
    have hl : State.left { s with detailer := .block } = s.left :=
      left_congr rfl (by simp [hd, DetailerPc.ret]) rfl
    rw [rest_loop conf hd, rest_block conf (.inl rfl), hl, hc, blocks, if_neg (by simp [hk])]
    rfl
  | eof hd hc h0 =>
    exact rest_dot conf hd rfl hc (left_congr rfl (by simp [hd, DetailerPc.ret]) rfl) (by simp [he h0])
  | other hd hc _ hf hne =>
    exact rest_dot conf hd rfl hc (left_congr rfl (by simp [hd, DetailerPc.ret]) rfl)
      (by simpa [State.left, hf] using hne)
  | request hd hc _ hf hfc =>
    subst hfc
    exact rest_request conf hd hd (by simp [hc]) rfl (by simp [State.left, State.pending, hf])

omit [DecidableEq C] in
theorem Write.left_nil {line : Line N} (hw : Write conf s line s') (h0 : s.left = []) :
    s'.left = [] := by
  cases hw with
  | done hd | coll hd | eof hd | other hd =>
    rw [← h0]
    exact left_congr rfl (by simp [hd, DetailerPc.ret]) rfl
  | request _ _ _ hf => simp [State.left, hf] at h0

/-- A step that writes nothing changes nothing of what is left. -/
theorem Step.quiet (h : s.Asks) (hs : Step conf s s') :
    (∃ line s₁, Write conf s line s₁ ∧ s' = { s₁ with out := s.out ++ [line] }) ∨
      s'.out = s.out ∧ s'.left = s.left ∧ s'.rest conf = s.rest conf := by
  cases hs with
  | write _ hw => exact .inl ⟨_, _, hw, rfl⟩
  | lock hu ht =>
    refine .inr ⟨rfl, rest_congr conf (left_congr rfl rfl ?_) rfl (.inl rfl)⟩
    simp [State.pending, UpdaterPc.op, hu, ht]
  | @op op _ _ hu hc =>
    refine .inr ⟨rfl, rest_congr conf (left_congr rfl rfl ?_) rfl (.inl rfl)⟩
    simp only [State.pending, hu, UpdaterPc.op, List.nil_append, call_fixupq hc]
    cases op <;> simp [Op.fixup, List.filterMap_cons]
  | @unlock dosignal hu =>
    refine .inr ⟨rfl, rest_congr conf (left_congr rfl rfl ?_) rfl (.inl rfl)⟩
    cases dosignal <;> simp [State.pending, hu, UpdaterPc.op]
  | signal hu =>
    refine .inr ⟨rfl, rest_congr conf (left_congr rfl (ret_wake _) ?_) rfl ?_⟩
    · simp [State.pending, hu, UpdaterPc.op]
    · cases hd : s.detailer <;> simp [DetailerPc.wake, DetailerPc.Getting]
  | skip _ hd hc hk =>
    exact .inr ⟨rfl, rfl, rest_skip conf hd hd hc hk rfl⟩
  | call _ hd =>
    exact .inr ⟨rfl, rest_congr conf (left_congr rfl (by simp [hd, DetailerPc.ret]) rfl) rfl
      (.inr ⟨.inl hd, .inr trivial⟩)⟩
  | get hd =>
    refine .inr ⟨rfl, rest_congr conf (left_congr rfl ?_ rfl) rfl (.inr ⟨.inr ?_, .inr trivial⟩)⟩ <;>
      rcases hd with hd | hd <;> simp [hd, DetailerPc.ret, DetailerPc.Getting]
  | wait hd =>
    exact .inr ⟨rfl, rest_congr conf (left_congr rfl (by simp [hd, DetailerPc.ret]) rfl) rfl
      (.inr ⟨.inr (by simp [hd, DetailerPc.Getting]), .inr trivial⟩)⟩
  | ret hd hg =>
    refine .inr ⟨rfl, rest_congr conf ?_ rfl
      (.inr ⟨.inr (by simp [hd, DetailerPc.Getting]), .inr trivial⟩)⟩
    rcases get_ret hg with ⟨rfl, rfl, -⟩ | ⟨f, fixupq, rfl, hq, -, rfl⟩
    · exact left_congr rfl (by simp [hd, DetailerPc.ret]) rfl
    · simp [State.left, State.pending, hd, hq, DetailerPc.ret]
  | got hd =>
    have hg : s.detailer.Getting := by rw [hd]; trivial
    refine .inr ⟨rfl, rest_congr conf ?_ rfl (.inr ⟨.inr hg, .inl rfl⟩)⟩
    simp [State.left, State.pending, hd, (h.fixup hg).1, DetailerPc.ret]

theorem Step.left_nil (h : s.Asks) (hs : Step conf s s') (h0 : s.left = []) : s'.left = [] := by
  rcases Step.quiet h hs with ⟨line, s₁, hw, rfl⟩ | ⟨-, hl, -⟩
  · exact hw.left_nil h0
  · exact hl.trans h0

omit [DecidableEq C] in
theorem left_eq_nil (hq : s.Queue) (hf : s.fixup = none) (hr : s.detailer.ret = none)
    (hc : s.fixups.closed = true) (h0 : s.fixups.size = 0) : s.left = [] := by
  have he : s.fixups.fixupq = [] := List.eq_nil_of_length_eq_zero (hq.size.symm.trans h0)
  simp [State.left, hf, hr, he, hq.closed hc]

/-- The end of the queue is found when nothing is left. -/
theorem Inv.left_nil (h : Inv conf names s) (hs : Step conf s s')
    (he : s'.fixupseof = true ∨ s'.detailer = .unlock none) : s.left = [] := by
  cases hs with
  | lock | op | unlock | skip => exact h.eof he
  | signal =>
    refine h.eof (he.imp id fun hd => ?_)
    cases hw : s.detailer <;> simp_all [DetailerPc.wake]
  | write _ hw => cases hw <;> exact h.eof (by simp_all)
  | call | get | wait => exact h.eof (.inl (by simpa using he))
  | ret hd hg =>
    have hf := h.asks.fixup (by rw [hd]; trivial)
    rcases get_ret hg with ⟨-, -, hc, h0⟩ | ⟨f, fixupq, rfl, -⟩
    · exact left_eq_nil h.queue hf.1 (by rw [hd]; rfl) hc h0
    · simp [hf.2] at he
  | @got fixup hd =>
    have hn : fixup = none := by simpa using he
    exact h.eof (.inr (hn ▸ hd))

theorem Inv.written_step (h : Inv conf names s) (hs : Step conf s s') :
    s'.out ++ s'.rest conf = s.out ++ s.rest conf := by
  rcases Step.quiet h.asks hs with ⟨line, s₁, hw, rfl⟩ | ⟨ho, -, hr⟩
  · have hr := hw.rest_eq fun he => h.eof (.inl he)
    show (s.out ++ [line]) ++ s₁.rest conf = _
    rw [hr, List.append_assoc]
    rfl
  · rw [ho, hr]

theorem Inv.step (h : Inv conf names s) (hs : Step conf s s') : Inv conf names s' where
  queue := h.queue.step hs
  lock := h.lock.step hs
  asks := h.asks.step hs
  held := h.held.step h.asks hs
  awake := h.awake.step hs
  eof he := Step.left_nil h.asks hs (h.left_nil hs he)
  written := (h.written_step hs).trans h.written

theorem Inv.next (h : Inv conf names s) (hn : Next conf s s') : Inv conf names s' := by
  cases hn with
  | step hs => exact h.step hs
  | fail =>
    exact ⟨h.queue.congr rfl rfl rfl rfl, ⟨h.lock.1, h.lock.2⟩, ⟨h.asks.1, h.asks.2⟩, h.held, h.awake,
      h.eof, h.written⟩
  | spurious hd =>
    have hg : s.detailer.Getting := by rw [hd]; trivial
    have hl : State.left { s with detailer := .woken } = s.left :=
      left_congr rfl (by simp [hd, DetailerPc.ret]) rfl
    obtain ⟨hu, hlk⟩ := h.lock
    obtain ⟨-, hr⟩ := rest_congr conf hl rfl (.inr ⟨.inr hg, .inr trivial⟩)
    exact
      { queue := h.queue.congr rfl rfl rfl rfl
        lock := ⟨hu, by simpa [hd, DetailerPc.Locked] using hlk⟩
        asks := ⟨fun _ => h.asks.colls (.inr hg), fun _ => h.asks.fixup hg⟩
        held := fun f hf => h.held f (.inl (by simpa using hf))
        awake := nofun
        eof := fun he => hl.trans (h.eof (.inl (by simpa using he)))
        written := (congrArg _ hr).trans h.written }

theorem inv_init (conf : Config C N) (names : C → List N) :
    Inv conf names (.init conf names) where
  queue := ⟨rfl, nofun, fun _ => ⟨_, rfl⟩⟩
  lock := ⟨⟨nofun, nofun⟩, ⟨nofun, nofun⟩⟩
  asks := ⟨by simp [State.init, DetailerPc.Getting], nofun⟩
  held := by simp [State.Held, State.init]
  awake := nofun
  eof := by simp [State.init]
  written := by
    have hl : (State.init conf names).left = conf.fixups names := by
      have hf : (Op.fixup ∘ Op.put : Fixup C N → Option (Fixup C N)) = some := rfl
      simp [State.left, State.init, State.pending, DetailerPc.ret, UpdaterPc.op, Fixups.new, hf,
        List.filterMap_map, List.filterMap_cons, Op.fixup]
    rw [rest_loop conf rfl, hl]
    exact blocks_fixups conf names

theorem Run.inv (h : Run conf names s) : Inv conf names s := by
  induction h with
  | init => exact inv_init conf names
  | next _ hn ih => exact ih.next hn

end Csup.Detailer
