import Mathlib.Logic.Function.Basic

/-!
# Hash tables with chains

A table of lists, one for each value of a hash. An element is put in front of the list its key
hashes to, and the first element with a key is found.

`look_insert`: whichever keys share a list, a table is a function of the key, and an insertion
changes it at one key. `Found` is what holds of all the elements that are found.
-/

namespace Csup.Framework.Chained

variable {κ ε β : Type*} [DecidableEq κ]

def look (key : ε → κ) (bucket : κ → β) (tbl : β → List ε) (k : κ) : Option ε :=
  (tbl (bucket k)).find? fun e => decide (key e = k)

def Found (key : ε → κ) (bucket : κ → β) (tbl : β → List ε) (P : ε → Prop) : Prop :=
  ∀ k e, look key bucket tbl k = some e → P e

variable {key : ε → κ} {bucket : κ → β} {tbl : β → List ε} {k : κ} {e : ε} {P : ε → Prop}

theorem key_of_look (h : look key bucket tbl k = some e) : key e = k :=
  of_decide_eq_true (List.find?_some (p := fun e => decide (key e = k)) h)

theorem found_empty : Found key bucket (fun _ => []) P := fun _ _ h => by cases h

variable [DecidableEq β]

def insert (key : ε → κ) (bucket : κ → β) (tbl : β → List ε) (e : ε) : β → List ε :=
  Function.update tbl (bucket (key e)) (e :: tbl (bucket (key e)))

theorem look_insert : look key bucket (insert key bucket tbl e) k =
    if key e = k then some e else look key bucket tbl k := by
  unfold look insert
  by_cases hk : key e = k
  · subst hk
    rw [Function.update_self, List.find?_cons_of_pos (by simp), if_pos rfl]
  · rw [if_neg hk]
    by_cases hb : bucket k = bucket (key e)
    · rw [hb, Function.update_self, List.find?_cons_of_neg (by simpa using hk)]
    · rw [Function.update_of_ne hb]

theorem Found.insert (h : Found key bucket tbl P) (he : P e) :
    Found key bucket (Chained.insert key bucket tbl e) P := by
  intro k e' hlook
  rw [look_insert] at hlook
  split at hlook
  · exact Option.some.inj hlook ▸ he
  · exact h k e' hlook

end Csup.Framework.Chained
