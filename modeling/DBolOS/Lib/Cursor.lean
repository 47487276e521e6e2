import Mathlib.Data.List.Basic

/-!
# Cursors that count

A cursor on a list with a test counts the elements that pass: its position `n` is the element behind the `n`-th of them,
whether it passes or not.  A listing from position to position is that of the elements that pass exactly when these stand
in front (`map_listed_eq_iff`).
-/

namespace Cursor

variable {α β : Type} (used : α → Bool)

/-- The list behind its first element that passes. -/
def rest (xs : List α) : List α := (xs.dropWhile fun x => !used x).tail

/-- The element at position `n`. -/
def nth : List α → Nat → Option α
  | xs, 0 => xs.head?
  | xs, n + 1 => nth (rest used xs) n

/-- The elements at the positions below `size`, up to the end of the list. -/
def listed : Nat → List α → List α
  | 0, _ => []
  | _ + 1, [] => []
  | size + 1, x :: xs => x :: listed size (rest used (x :: xs))

variable {used} {xs : List α} {x : α}

theorem rest_cons_of_pos (h : used x = true) : rest used (x :: xs) = xs := by simp [rest, h]

theorem rest_cons_of_neg (h : used x = false) : rest used (x :: xs) = rest used xs := by simp [rest, h]

theorem nth_nil (n : Nat) : nth used [] n = none := by
  induction n with
  | zero => rfl
  | succ n ih => exact ih

/-- The position is found by a scan that counts down what passes. -/
theorem nth_cons (n : Nat) : nth used (x :: xs) n =
    if n = 0 then some x else if used x then nth used xs (n - 1) else nth used xs n := by
  cases n with
  | zero => rfl
  | succ n =>
    cases hx : used x with
    | true => rw [nth, rest_cons_of_pos hx]; rfl
    | false => rw [nth, rest_cons_of_neg hx]; rfl

theorem getElem?_listed (size n : Nat) :
    (listed used size xs)[n]? = if n < size then nth used xs n else none := by
  induction size generalizing xs n with
  | zero => rfl
  | succ size ih =>
    cases xs with
    | nil => rw [listed, List.getElem?_nil, nth_nil, ite_self]
    | cons x xs =>
      cases n with
      | zero => rfl
      | succ n =>
        rw [listed, List.getElem?_cons_succ, ih, nth]
        simp only [Nat.add_lt_add_iff_right]

theorem length_listed_le (size : Nat) : (listed used size xs).length ≤ size := by
  by_contra h
  have hget := List.getElem?_eq_getElem (Nat.not_le.1 h)
  rw [getElem?_listed, if_neg (Nat.lt_irrefl size)] at hget
  cases hget

theorem mem_of_mem_listed {size : Nat} (h : x ∈ listed used size xs) : x ∈ xs := by
  induction size generalizing xs with
  | zero => cases h
  | succ size ih =>
    cases xs with
    | nil => cases h
    | cons y xs =>
      rcases List.mem_cons.1 h with rfl | h
      · exact List.mem_cons_self
      · have hsuffix : (rest used (y :: xs)) <:+ y :: xs :=
          (List.tail_suffix _).trans (List.dropWhile_suffix _)
        exact hsuffix.subset (ih h)

/-- A listing that stops at `size` shows all that passes and nothing else: what passes stands in front, and the listing
stops behind it. -/
def Exact (used : α → Bool) (size : Nat) (xs : List α) : Prop :=
  ∃ k ≤ size, (∀ x ∈ xs.take k, used x = true) ∧ (∀ x ∈ xs.drop k, used x = false) ∧ (k = size ∨ xs.length ≤ k)

theorem exact_nil (size : Nat) : Exact used size [] :=
  ⟨0, Nat.zero_le _, by simp, by simp, .inr (Nat.le_refl 0)⟩

theorem exact_zero_iff : Exact used 0 xs ↔ ∀ x ∈ xs, used x = false := by
  constructor
  · rintro ⟨k, hk, -, hnone, -⟩
    obtain rfl := Nat.le_zero.1 hk
    exact hnone
  · intro hnone
    exact ⟨0, Nat.le_refl 0, by simp, by simpa using hnone, .inl rfl⟩

theorem exact_cons_of_pos {size : Nat} (h : used x = true) : Exact used (size + 1) (x :: xs) ↔ Exact used size xs := by
  constructor
  · rintro ⟨k, hk, hall, hnone, hend⟩
    cases k with
    | zero =>
      have := hnone x (by simp)
      rw [h] at this
      cases this
    | succ k =>
      refine ⟨k, by omega, fun y hy => hall y (by simp [hy]), hnone, ?_⟩
      simpa using hend
  · rintro ⟨k, hk, hall, hnone, hend⟩
    refine ⟨k + 1, by omega, ?_, hnone, by simpa using hend⟩
    intro y hy
    rcases List.mem_cons.1 hy with rfl | hy
    · exact h
    · exact hall y hy

theorem not_exact_cons {size : Nat} (h : used x = false) : ¬Exact used (size + 1) (x :: xs) := by
  rintro ⟨k, hk, hall, -, hend⟩
  cases k with
  | zero => simp at hend
  | succ k =>
    have := hall x (by simp)
    rw [h] at this
    cases this

/-- The listing reads as that of what passes exactly when it is exact and reads each element that passes right.  No
element that does not pass reads as one that does. -/
theorem map_listed_eq_iff {f g : α → β} (hf : ∀ x y, used y = true → f x = g y → used x = true) (size : Nat) :
    (listed used size xs).map f = (xs.filter used).map g ↔
      Exact used size xs ∧ ∀ x ∈ xs, used x = true → f x = g x := by
  induction xs generalizing size with
  | nil => cases size <;> simp [listed, exact_nil]
  | cons x xs ih =>
    cases size with
    | zero =>
      rw [listed, exact_zero_iff, List.map_nil, eq_comm, List.map_eq_nil_iff, List.filter_eq_nil_iff]
      simp only [Bool.not_eq_true]
      constructor
      · intro hnone
        refine ⟨hnone, fun y hy hused => ?_⟩
        rw [hnone y hy] at hused
        cases hused
      · exact fun h => h.1
    | succ size =>
      rw [listed]
      cases hx : used x with
      | true =>
        rw [rest_cons_of_pos hx, List.filter_cons_of_pos hx, List.map_cons, List.map_cons, List.cons.injEq, ih,
          exact_cons_of_pos hx, List.forall_mem_cons]
        constructor
        · rintro ⟨hhead, hexact, htail⟩
          exact ⟨hexact, fun _ => hhead, htail⟩
        · rintro ⟨hexact, hhead, htail⟩
          exact ⟨hhead hx, hexact, htail⟩
      | false =>
        refine iff_of_false ?_ fun h => not_exact_cons hx h.1
        rw [List.filter_cons_of_neg (by simp [hx]), List.map_cons]
        intro h
        obtain ⟨y, hy, hfy⟩ : ∃ y ∈ xs.filter used, g y = f x := by
          have hmem : f x ∈ (xs.filter used).map g := by
            rw [← h]
            exact List.mem_cons_self
          exact List.mem_map.1 hmem
        have := hf x y (List.mem_filter.1 hy).2 hfy.symm
        rw [hx] at this
        cases this

end Cursor
