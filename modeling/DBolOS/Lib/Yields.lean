import Mathlib

/-!
# What a partial computation returns

`Yields P x`: if the computation is defined, its value satisfies `P`.
-/

namespace Partial

universe u

variable {α β : Type u} {P Q : α → Prop} {R : β → Prop} {x y : Option α}

def Yields (P : α → Prop) (x : Option α) : Prop := ∀ a, x = some a → P a

theorem Yields.of_some {a : α} (h : P a) : Yields P (some a) := by
  intro b hb
  cases hb
  exact h

theorem Yields.of_none : Yields P none := by
  intro a ha
  cases ha

/-- Nothing is said about the value. -/
theorem Yields.any : Yields (fun _ => True) x := fun _ _ => trivial

/-- Sequencing: what the first computation returns is what the second may assume. -/
theorem Yields.bind {f : α → Option β} (h : Yields P x) (hf : ∀ a, P a → Yields R (f a)) : Yields R (x >>= f) := by
  intro b hb
  obtain ⟨a, ha, hb⟩ := Option.bind_eq_some_iff.1 hb
  exact hf a (h a ha) b hb

theorem Yields.ite {c : Prop} [Decidable c] (hx : c → Yields P x) (hy : ¬c → Yields P y) :
    Yields P (if c then x else y) := by
  split
  · exact hx ‹_›
  · exact hy ‹_›

end Partial
