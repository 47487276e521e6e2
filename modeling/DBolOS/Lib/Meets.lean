import Mathlib

/-!
# Computations that may fail

`Meets E P x`: where `x` fails its error satisfies `E`, and where it returns its value satisfies `P`.
-/

namespace Failing

universe u v

variable {ε : Type u} {α β : Type v} {E : ε → Prop} {P Q : α → Prop} {R : β → Prop} {x : Except ε α}

def Meets (E : ε → Prop) (P : α → Prop) : Except ε α → Prop
  | .error e => E e
  | .ok a => P a

@[simp] theorem ok_bind (a : α) (f : α → Except ε β) : (Except.ok a >>= f) = f a := rfl

@[simp] theorem error_bind (e : ε) (f : α → Except ε β) : (Except.error e >>= f) = .error e := rfl

theorem Meets.value {a : α} (h : Meets E P x) (hx : x = .ok a) : P a := by
  subst hx
  exact h

theorem Meets.error {e : ε} (h : Meets E P x) (hx : x = .error e) : E e := by
  subst hx
  exact h

/-- Sequencing: what the first computation returns is what the second may assume. -/
theorem Meets.bind {f : α → Except ε β} (h : Meets E P x) (hf : ∀ a, P a → Meets E R (f a)) : Meets E R (x >>= f) := by
  cases x with
  | error e => exact h
  | ok a => exact hf a h

theorem Meets.ok_bind {a : α} {f : α → Except ε β} (h : Meets E R (f a)) : Meets E R (Except.ok a >>= f) := h

theorem Meets.map {f : α → β} (h : Meets E P x) (hf : ∀ a, P a → R (f a)) : Meets E R (f <$> x) := by
  cases x with
  | error e => exact h
  | ok a => exact hf a h

theorem Meets.mono (h : Meets E P x) (hPQ : ∀ a, P a → Q a) : Meets E Q x := by
  cases x with
  | error e => exact h
  | ok a => exact hPQ a h

/-- The value may be assumed to be one that the computation returns. -/
theorem Meets.self (h : ∀ e, x = .error e → E e) : Meets E (fun a => x = .ok a) x := by
  cases x with
  | error e => exact h e rfl
  | ok a => rfl

end Failing
