import Csup.Framework.Cutoff

/-!
# What a program leaves as it is

`f` looks at the world; a run `Keeps f` if what it sees is the same before and
behind it, and a program is `Still f` if all of its runs do. Behind a part that is
still, a run keeps what the rest keeps (`keeps_bind`); a rest that is still does not
matter (`keeps_bind_left`). A program `Moves` the world by `r` if that is where all of its
runs take it.
-/

namespace Csup.Framework

variable {E E' W A R α β γ : Type} {f : W → γ}

/-! ## What is done without reading -/

namespace Work

def Keeps (f : W → γ) (m : Work E W A α) (w : W) : Prop := f (m w).world = f w

def Still (f : W → γ) (m : Work E W A α) : Prop := ∀ w, Keeps f m w

theorem still_pure (a : α) : Still f (pure a : Work E W A α) := fun _ => rfl

theorem still_fail (e : E) : Still f (fail e : Work E W A α) := fun _ => rfl

theorem still_ask (g : W → α) : Still f (ask g : Work E W A α) := fun _ => rfl

theorem still_tell {g : W → α × W} (h : ∀ w, f (g w).2 = f w) :
    Still f (tell g : Work E W A α) := h

theorem still_act (a : A) {g : W → α × W} (h : ∀ w, f (g w).2 = f w) :
    Still f (act a g : Work E W A α) := h

theorem keeps_bind {m : Work E W A α} {k : α → Work E W A β} {w : W} (hm : Keeps f m w) :
    Keeps f (m >>= k) w ↔ ∀ a, (m w).val = .ok a → Keeps f (k a) (m w).world := by
  show f (Work.bind m k w).world = f w ↔ _
  unfold Work.bind
  cases h : (m w).val with
  | ok a => simp [Keeps, hm.symm]
  | error e => exact iff_of_true hm (by simp)

theorem keeps_bind_left {m : Work E W A α} {k : α → Work E W A β} (hk : ∀ a, Still f (k a)) (w : W) :
    Keeps f (m >>= k) w ↔ Keeps f m w := by
  show f (Work.bind m k w).world = f w ↔ _
  unfold Work.bind
  cases h : (m w).val with
  | ok a => rw [show f (k a (m w).world).world = f (m w).world from hk a _]; rfl
  | error e => rfl

theorem Still.bind {m : Work E W A α} {k : α → Work E W A β} (hm : Still f m)
    (hk : ∀ a, Still f (k a)) : Still f (m >>= k) :=
  fun w => (keeps_bind_left hk w).mpr (hm w)

theorem Still.ite {c : Prop} [Decidable c] {m m' : Work E W A α} (hm : Still f m)
    (hm' : Still f m') : Still f (if c then m else m') := by
  split <;> assumption

section

variable {r : W → W → Prop}

def Moves (r : W → W → Prop) (m : Work E W A α) : Prop := ∀ w, r w (m w).world

theorem Still.moves (hr : ∀ w w', f w' = f w → r w w') {m : Work E W A α} (h : Still f m) :
    Moves r m := fun w => hr w _ (h w)

theorem Moves.bind (hr : ∀ a b c, r a b → r b c → r a c) {m : Work E W A α}
    {k : α → Work E W A β} (hm : Moves r m) (hk : ∀ a, Moves r (k a)) : Moves r (m >>= k) := by
  intro w
  show r w (Work.bind m k w).world
  unfold Work.bind
  split
  · exact hr _ _ _ (hm w) (hk _ _)
  · exact hm w

end

end Work

/-! ## Programs -/

namespace Prog

def Keeps (f : W → γ) (m : Prog E W A R α) (p : List UInt8) (w : W) : Prop :=
  f (m p w).world = f w

def Still (f : W → γ) (m : Prog E W A R α) : Prop := ∀ p w, Keeps f m p w

theorem still_pure (a : α) : Still f (pure a : Prog E W A R α) := fun _ _ => rfl

theorem keeps_work (wrap : E' → E) (m : Work E' W A α) (p : List UInt8) (w : W) :
    Keeps f (work wrap m : Prog E W A R α) p w ↔ Work.Keeps f m w := Iff.rfl

theorem keeps_bind {m : Prog E W A R α} {k : α → Prog E W A R β} {p : List UInt8} {w : W}
    (hm : Keeps f m p w) : Keeps f (bind m k) p w ↔
      ∀ a, (m p w).val = .ok a → Keeps f (k a) (m p w).input (m p w).world := by
  cases h : (m p w).val with
  | ok a =>
    unfold Keeps
    rw [bind_ok h]
    simp [show f w = f (m p w).world from hm.symm]
  | error e =>
    unfold Keeps
    rw [bind_error h]
    exact iff_of_true hm (by simp)

theorem keeps_bind_left {m : Prog E W A R α} {k : α → Prog E W A R β} (hk : ∀ a, Still f (k a))
    (p : List UInt8) (w : W) : Keeps f (bind m k) p w ↔ Keeps f m p w := by
  cases h : (m p w).val with
  | ok a =>
    unfold Keeps
    rw [bind_ok h, show f (k a (m p w).input (m p w).world).world = f (m p w).world from hk a _ _]
  | error e =>
    unfold Keeps
    rw [bind_error h]

/-- Behind a part that does not read. -/
theorem keeps_work_bind {wrap : E' → E} {m : Work E' W A α} {k : α → Prog E W A R β}
    (hm : Work.Still f m) (p : List UInt8) (w : W) : Keeps f (bind (work wrap m) k) p w ↔
      ∀ a, (m w).val = .ok a → Keeps f (k a) p (m w).world := by
  rw [keeps_bind ((keeps_work wrap m p w).mpr (hm w))]
  refine forall_congr' fun a => ?_
  cases h : (m w).val <;> simp [work, h, Except.mapError]

/-- Behind a part that reads. -/
theorem keeps_read_bind {mark : List UInt8 → α → List R}
    {g : List UInt8 → Except E (α × List UInt8)} {k : α → Prog E W A R β} (p : List UInt8) (w : W) :
    Keeps f (bind (read mark g) k) p w ↔
      ∀ a rest, g p = .ok (a, rest) → Keeps f (k a) rest w := by
  have hr : Keeps f (read mark g : Prog E W A R α) p w := by
    unfold Keeps read
    split <;> rfl
  rw [keeps_bind hr]
  cases h : g p with
  | ok x =>
    obtain ⟨a, rest⟩ := x
    simp [read, h]
  | error e => simp [read, h]

section

variable {r : W → W → Prop}

def Moves (r : W → W → Prop) (m : Prog E W A R α) : Prop := ∀ p w, r w (m p w).world

theorem moves_pure (hr : ∀ w, r w w) (a : α) : Moves r (pure a : Prog E W A R α) := fun _ => hr

theorem moves_work (wrap : E' → E) {m : Work E' W A α} (h : Work.Moves r m) :
    Moves r (work wrap m : Prog E W A R α) := fun _ => h

theorem moves_read (hr : ∀ w, r w w) (mark : List UInt8 → α → List R)
    (g : List UInt8 → Except E (α × List UInt8)) : Moves r (read mark g : Prog E W A R α) := by
  intro p w
  unfold read
  split <;> exact hr w

theorem Moves.bind (hr : ∀ a b c, r a b → r b c → r a c) {m : Prog E W A R α}
    {k : α → Prog E W A R β} (hm : Moves r m) (hk : ∀ a, Moves r (k a)) : Moves r (bind m k) := by
  intro p w
  cases h : (m p w).val with
  | ok a =>
    rw [bind_ok h]
    exact hr _ _ _ (hm p w) (hk a _ _)
  | error e =>
    rw [bind_error h]
    exact hm p w

end

end Prog

end Csup.Framework
