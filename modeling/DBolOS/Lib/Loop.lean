import Mathlib

/-!
# Counted loops

`times body n s` runs a body that may fail for the counts `0, 1, …, n - 1`.  A sequence of states that every round
carries on gives the state at the end (`times_eq`).
-/

namespace Loop

variable {σ : Type*}

def times (body : Nat → σ → Option σ) : Nat → σ → Option σ
  | 0, s => some s
  | n + 1, s => do
    let s ← times body n s
    body n s

/-- The states before and after each round are known. -/
theorem times_eq {body : Nat → σ → Option σ} {n : Nat} (S : Nat → σ)
    (hbody : ∀ i, i < n → body i (S i) = some (S (i + 1))) : times body n (S 0) = some (S n) := by
  induction n with
  | zero => rfl
  | succ n ih =>
    have hn : times body n (S 0) = some (S n) := ih (fun i hi => hbody i (by omega))
    rw [times, hn]
    exact hbody n (by omega)

end Loop
