import Mathlib

/-!
# Waiting for an answer

`waitFor probe n s` repeats a probe of `s` until it answers, at most `n` times.  A probe that answers in the end and keeps
an invariant meanwhile brings the wait to its end (`waitFor_of_fair`).
-/

namespace Polling

variable {σ : Type*} {probe : σ → Bool × σ} {s s' : σ} {n m : ℕ}

/-- `while (!probe());` -/
def waitFor (probe : σ → Bool × σ) : ℕ → σ → Option σ
  | 0, _ => none
  | n + 1, s => if (probe s).1 then some (probe s).2 else waitFor probe n (probe s).2

theorem waitFor_of_true (h : (probe s).1 = true) (n : ℕ) : waitFor probe (n + 1) s = some (probe s).2 := if_pos h

theorem waitFor_of_false (h : (probe s).1 = false) (n : ℕ) : waitFor probe (n + 1) s = waitFor probe n (probe s).2 :=
  if_neg (by simp [h])

/-- More repetitions do not change the end. -/
theorem waitFor_mono (h : waitFor probe n s = some s') (hnm : n ≤ m) : waitFor probe m s = some s' := by
  induction n generalizing s m with
  | zero => cases h
  | succ n ih =>
    obtain ⟨m, rfl⟩ := Nat.exists_eq_succ_of_ne_zero (by omega : m ≠ 0)
    cases hprobe : (probe s).1 with
    | true =>
      rw [waitFor_of_true hprobe] at h
      rw [Nat.succ_eq_add_one, waitFor_of_true hprobe, h]
    | false =>
      rw [waitFor_of_false hprobe] at h
      rw [Nat.succ_eq_add_one, waitFor_of_false hprobe]
      exact ih h (by omega)

/-- A probe keeps `I` as long as it gives no answer, leaves `J` with its answer, and does not go on without one for ever. -/
theorem waitFor_of_fair {I J : σ → Prop} (hno : ∀ s, I s → (probe s).1 = false → I (probe s).2)
    (hyes : ∀ s, I s → (probe s).1 = true → J (probe s).2)
    (hfair : ∀ s, I s → ∃ n, (probe ((fun s => (probe s).2)^[n] s)).1 = true) (hs : I s) :
    ∃ n s', (∀ m ≥ n, waitFor probe m s = some s') ∧ J s' := by
  obtain ⟨n, hn⟩ := hfair s hs
  induction n generalizing s with
  | zero => exact ⟨1, _, fun m hm => waitFor_mono (waitFor_of_true hn 0) hm, hyes s hs hn⟩
  | succ n ih =>
    cases hprobe : (probe s).1 with
    | true => exact ⟨1, _, fun m hm => waitFor_mono (waitFor_of_true hprobe 0) hm, hyes s hs hprobe⟩
    | false =>
      rw [Function.iterate_succ_apply] at hn
      obtain ⟨k, s', hk, hJ⟩ := ih (hno s hs hprobe) hn
      refine ⟨k + 1, s', fun m hm => waitFor_mono (n := k + 1) ?_ hm, hJ⟩
      rw [waitFor_of_false hprobe, hk k le_rfl]

end Polling
