import Csup.Framework.Cutoff

/-!
# What a program logs

A run acts by `P` and gives `Q` if all that it logs is `P` and the value that it comes
to, if it comes to one, is `Q`. Of a part that comes first, the parts behind it need
only know its `Q`.
-/

namespace Csup.Framework

variable {E E' W A R α β : Type} {P : A → Prop} {Q : α → Prop} {S : β → Prop}

/-! ## What is done without reading -/

namespace Work

def ActsAt (P : A → Prop) (Q : α → Prop) (m : Work E W A α) (w : W) : Prop :=
  (∀ a ∈ (m w).log, P a) ∧ ∀ v, (m w).val = .ok v → Q v

def Acts (P : A → Prop) (Q : α → Prop) (m : Work E W A α) : Prop := ∀ w, ActsAt P Q m w

theorem actsAt_bind {m : Work E W A α} {k : α → Work E W A β} {w : W} (hm : ActsAt P Q m w)
    (hk : ∀ v, Q v → ActsAt P S (k v) (m w).world) : ActsAt P S (m >>= k) w := by
  show (∀ a ∈ (Work.bind m k w).log, P a) ∧ ∀ v, (Work.bind m k w).val = .ok v → S v
  unfold Work.bind
  cases h : (m w).val with
  | ok a =>
    have ha := hk a (hm.2 a h)
    exact ⟨List.forall_mem_append.mpr ⟨hm.1, ha.1⟩, ha.2⟩
  | error e => exact ⟨hm.1, by simp⟩

theorem acts_bind {m : Work E W A α} {k : α → Work E W A β} (hm : Acts P Q m)
    (hk : ∀ v, Q v → Acts P S (k v)) : Acts P S (m >>= k) :=
  fun w => actsAt_bind (hm w) fun v hv => hk v hv _

theorem acts_pure {a : α} (h : Q a) : Acts P Q (pure a : Work E W A α) :=
  fun _ => ⟨by simp [pure], fun v hv => by
    obtain rfl : a = v := by simpa [pure] using hv
    exact h⟩

theorem acts_fail (e : E) : Acts P Q (fail e : Work E W A α) := fun _ => by simp [ActsAt, fail]

theorem acts_ask {f : W → α} (h : ∀ w, Q (f w)) : Acts P Q (ask f : Work E W A α) :=
  fun w => by simpa [ActsAt, ask] using h w

theorem acts_tell {f : W → α × W} (h : ∀ w, Q (f w).1) : Acts P Q (tell f : Work E W A α) :=
  fun w => by simpa [ActsAt, tell] using h w

theorem acts_act {a : A} (ha : P a) {f : W → α × W} (h : ∀ w, Q (f w).1) :
    Acts P Q (act a f : Work E W A α) := fun w => by simpa [ActsAt, act, ha] using h w

theorem Acts.ite {c : Prop} [Decidable c] {m m' : Work E W A α} (hm : Acts P Q m)
    (hm' : Acts P Q m') : Acts P Q (if c then m else m') := by
  split <;> assumption

theorem Acts.mono {Q' : α → Prop} {m : Work E W A α} (hm : Acts P Q m) (h : ∀ v, Q v → Q' v) :
    Acts P Q' m := fun w => ⟨(hm w).1, fun v hv => h v ((hm w).2 v hv)⟩

end Work

/-! ## Programs -/

namespace Prog

def ActsAt (P : A → Prop) (Q : α → Prop) (m : Prog E W A R α) (p : List UInt8) (w : W) : Prop :=
  (∀ a ∈ (m p w).log, P a) ∧ ∀ v, (m p w).val = .ok v → Q v

def Acts (P : A → Prop) (Q : α → Prop) (m : Prog E W A R α) : Prop := ∀ p w, ActsAt P Q m p w

theorem actsAt_bind {m : Prog E W A R α} {k : α → Prog E W A R β} {p : List UInt8} {w : W}
    (hm : ActsAt P Q m p w) (hk : ∀ v, Q v → Acts P S (k v)) : ActsAt P S (bind m k) p w := by
  unfold ActsAt
  cases h : (m p w).val with
  | ok a =>
    rw [bind_ok h]
    have ha := hk a (hm.2 a h) (m p w).input (m p w).world
    exact ⟨List.forall_mem_append.mpr ⟨hm.1, ha.1⟩, ha.2⟩
  | error e =>
    rw [bind_error h]
    exact ⟨hm.1, by simp⟩

theorem acts_bind {m : Prog E W A R α} {k : α → Prog E W A R β} (hm : Acts P Q m)
    (hk : ∀ v, Q v → Acts P S (k v)) : Acts P S (bind m k) :=
  fun p w => actsAt_bind (hm p w) hk

theorem acts_pure {a : α} (h : Q a) : Acts P Q (pure a : Prog E W A R α) :=
  fun _ _ => ⟨by simp [pure], fun v hv => by
    obtain rfl : a = v := by simpa [pure] using hv
    exact h⟩

theorem actsAt_work {wrap : E' → E} {m : Work E' W A α} {p : List UInt8} {w : W}
    (h : Work.ActsAt P Q m w) : ActsAt P Q (work wrap m : Prog E W A R α) p w := by
  refine ⟨h.1, fun v hv => h.2 v ?_⟩
  cases hm : (m w).val <;> simp_all [work, Except.mapError]

theorem acts_read (mark : List UInt8 → α → List R)
    (f : List UInt8 → Except E (α × List UInt8)) :
    Acts P (fun _ => True) (read mark f : Prog E W A R α) := by
  intro p w
  unfold ActsAt read
  split <;> simp

end Prog

end Csup.Framework
