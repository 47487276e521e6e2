import Mathlib.Data.Nat.Digits.Lemmas
import Mathlib.Tactic.Ring

/-!
# Numerals

The digits of a number, at least one, as repeated division finds them (`digitsOf_step`), and the value of a string of digits
over any alphabet.  Reading the digits of a number gives it back (`valueOf_digits`), and the first of them is zero for the
number zero only (`getLast?_digitsOf`).
-/

namespace Numeral

open Nat (ofDigits)

variable {α : Type*} {base n : Nat}

/-- The digits, the least significant first. -/
def digitsOf (base n : Nat) : List Nat := if n = 0 then [0] else base.digits n

/-- The value of a string of digits, the most significant first; the empty string has none. -/
def valueOf (digit? : α → Option Nat) (base : Nat) (s : List α) : Option Nat :=
  if s = [] then none else s.foldlM (fun value c => (digit? c).map (value * base + ·)) 0

/-! ### Digits -/

theorem digitsOf_ne_nil (base n : Nat) : digitsOf base n ≠ [] := by
  unfold digitsOf
  split
  · exact List.cons_ne_nil 0 []
  · rename_i hn
    rwa [Ne, Nat.digits_eq_nil_iff_eq_zero]

theorem digitsOf_step (hb : 1 < base) (n : Nat) :
    digitsOf base n = n % base :: if n / base = 0 then [] else digitsOf base (n / base) := by
  unfold digitsOf
  by_cases hn : n = 0
  · simp [hn]
  · rw [if_neg hn, Nat.digits_def' hb (Nat.pos_of_ne_zero hn)]
    split
    · rename_i hdiv
      rw [hdiv, Nat.digits_zero]
    · rfl

theorem ofDigits_digitsOf (base n : Nat) : ofDigits base (digitsOf base n) = n := by
  unfold digitsOf
  split
  · rename_i hn
    simp [hn]
  · exact Nat.ofDigits_digits base n

theorem digitsOf_lt (hb : 1 < base) {d : Nat} (hd : d ∈ digitsOf base n) : d < base := by
  unfold digitsOf at hd
  split at hd
  · rw [List.mem_singleton] at hd
    omega
  · exact Nat.digits_lt_base hb hd

theorem length_digitsOf_le (hb : 1 < base) {k : Nat} (hk : 0 < k) (hn : n < base ^ k) : (digitsOf base n).length ≤ k := by
  unfold digitsOf
  split
  · exact hk
  · exact (Nat.digits_length_le_iff hb n).2 hn

/-- No digit is superfluous. -/
theorem getLast?_digitsOf (h : (digitsOf base n).getLast? = some 0) : digitsOf base n = [0] := by
  by_cases hn : n = 0
  · rw [digitsOf, if_pos hn]
  · rw [digitsOf, if_neg hn, List.getLast?_eq_getLast_of_ne_nil (Nat.digits_ne_nil_iff_ne_zero.2 hn)] at h
    exact absurd (Option.some.inj h) (Nat.getLast_digit_ne_zero base hn)

/-! ### Values -/

variable {digit? : α → Option Nat} {char : Nat → α}

theorem foldlM_digits (ds : List Nat) (hds : ∀ d ∈ ds, digit? (char d) = some d) (value : Nat) :
    (ds.reverse.map char).foldlM (fun value c => (digit? c).map (value * base + ·)) value =
      some (value * base ^ ds.length + ofDigits base ds) := by
  induction ds generalizing value with
  | nil => simp
  | cons d ds ih =>
    have hd := hds d List.mem_cons_self
    have htail := ih (fun e he => hds e (List.mem_cons_of_mem d he)) value
    rw [List.reverse_cons, List.map_append, List.foldlM_append, htail]
    simp only [List.map_cons, List.map_nil, List.foldlM_cons, List.foldlM_nil, Option.bind_eq_bind, Option.bind_some, hd,
      Option.map_some, Option.pure_def, Nat.ofDigits_cons, List.length_cons, Option.some.injEq]
    ring

/-- Reading the digits of a number gives it back. -/
theorem valueOf_digits (hb : 1 < base) (hchar : ∀ d < base, digit? (char d) = some d) (n : Nat) :
    valueOf digit? base ((digitsOf base n).reverse.map char) = some n := by
  have hne : (digitsOf base n).reverse.map char ≠ [] := by
    simpa using digitsOf_ne_nil base n
  rw [valueOf, if_neg hne, foldlM_digits _ fun d hd => hchar d (digitsOf_lt hb hd), Nat.zero_mul, Nat.zero_add,
    ofDigits_digitsOf]

end Numeral
