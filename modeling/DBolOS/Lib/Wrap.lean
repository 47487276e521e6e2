import Mathlib

/-!
# Text broken into rows

`rows width p text` breaks a text at each character that satisfies `p` and before any character that would be one too
many for its row.  The rows of a longer text come from those of the shorter one by a step that looks at the last row
only (`rows_snoc`), which is how a terminal computes them.
-/

namespace Wrap

variable {α : Type*}

/-- A line broken before each character that would not fit. -/
def wrap (width : Nat) (line : List α) : List (List α) :=
  if width < line.length ∧ 0 < width then line.take width :: wrap width (line.drop width) else [line]
termination_by line.length

def rows (width : Nat) (p : α → Bool) (text : List α) : List (List α) := (text.splitOnP p).flatMap (wrap width)

variable {width : Nat} {p : α → Bool}

theorem wrap_nil : wrap width ([] : List α) = [[]] := by
  unfold wrap
  simp

/-- One character more at the end of the last row, or in a row of its own when the last row is full. -/
theorem wrap_snoc (hwidth : 0 < width) (line : List α) (a : α) : ∃ front last, wrap width line = front ++ [last] ∧
    last.length ≤ width ∧
    wrap width (line ++ [a]) = if last.length = width then front ++ [last, [a]] else front ++ [last ++ [a]] := by
  fun_induction wrap width line with
  | case1 line h ih =>
    obtain ⟨front, last, hfront, hlast, hsnoc⟩ := ih
    refine ⟨line.take width :: front, last, by rw [hfront, List.cons_append], hlast, ?_⟩
    have hlong : width < (line ++ [a]).length ∧ 0 < width := by
      rw [List.length_append]
      omega
    rw [wrap, if_pos hlong, List.take_append_of_le_length h.1.le, List.drop_append_of_le_length h.1.le, hsnoc]
    split <;> rfl
  | case2 line h =>
    have hshort : line.length ≤ width := by omega
    refine ⟨[], line, rfl, hshort, ?_⟩
    split
    · next hfull =>
      have hlong : width < (line ++ [a]).length ∧ 0 < width := by
        rw [List.length_append, hfull, List.length_singleton]
        omega
      rw [wrap, if_pos hlong, ← hfull, List.take_left, List.drop_left, wrap, if_neg]
      · rfl
      · rw [List.length_singleton]
        omega
    · next hroom =>
      rw [wrap, if_neg]
      · rfl
      · rw [List.length_append, List.length_singleton]
        omega

theorem splitOnP_ne_nil_split (text : List α) : ∃ lines line, text.splitOnP p = lines ++ [line] :=
  ⟨_, _, (List.dropLast_append_getLast (List.splitOnP_ne_nil p text)).symm⟩

theorem splitOnP_snoc_pos {a : α} (ha : p a = true) (text : List α) :
    (text ++ [a]).splitOnP p = text.splitOnP p ++ [[]] := by
  rw [List.splitOnP_append_cons text [] ha, List.splitOnP_nil]

theorem splitOnP_snoc_neg {a : α} (ha : p a = false) {lines : List (List α)} {line text : List α}
    (h : text.splitOnP p = lines ++ [line]) : (text ++ [a]).splitOnP p = lines ++ [line ++ [a]] := by
  induction text generalizing lines line with
  | nil =>
    change [] ++ [[]] = lines ++ [line] at h
    obtain ⟨rfl, hline⟩ := List.append_inj' h rfl
    obtain rfl : [] = line := by simpa using hline
    exact List.splitOnP_eq_singleton (by simpa using ha)
  | cons b text ih =>
    obtain ⟨lines', line', h'⟩ := splitOnP_ne_nil_split (p := p) text
    rw [List.splitOnP_cons_eq_if_modifyHead, h'] at h
    rw [List.cons_append, List.splitOnP_cons_eq_if_modifyHead, ih h']
    split
    · next hb =>
      rw [if_pos hb, ← List.cons_append] at h
      obtain ⟨rfl, hline⟩ := List.append_inj' h rfl
      obtain rfl : line' = line := by simpa using hline
      rfl
    · next hb =>
      rw [if_neg hb] at h
      cases lines' with
      | nil =>
        change [] ++ [b :: line'] = lines ++ [line] at h
        obtain ⟨rfl, hline⟩ := List.append_inj' h rfl
        obtain rfl : b :: line' = line := by simpa using hline
        rfl
      | cons first lines' =>
        change ((b :: first) :: lines') ++ [line'] = lines ++ [line] at h
        obtain ⟨rfl, hline⟩ := List.append_inj' h rfl
        obtain rfl : line' = line := by simpa using hline
        rfl

theorem rows_nil : rows width p ([] : List α) = [[]] := by
  rw [rows, List.splitOnP_nil, List.flatMap_singleton, wrap_nil]

/-- The rows of a text with one character more. -/
theorem rows_snoc (hwidth : 0 < width) (text : List α) (a : α) : ∃ front last, rows width p text = front ++ [last] ∧
    last.length ≤ width ∧ rows width p (text ++ [a]) =
      if p a then front ++ [last, []]
      else if last.length = width then front ++ [last, [a]]
      else front ++ [last ++ [a]] := by
  obtain ⟨lines, line, h⟩ := splitOnP_ne_nil_split (p := p) text
  obtain ⟨front, last, hwrap, hlast, hsnoc⟩ := wrap_snoc hwidth line a
  have hrows : rows width p text = lines.flatMap (wrap width) ++ front ++ [last] := by
    rw [rows, h, List.flatMap_append, List.flatMap_singleton, hwrap, List.append_assoc]
  refine ⟨lines.flatMap (wrap width) ++ front, last, hrows, hlast, ?_⟩
  split
  · next ha =>
    rw [rows, splitOnP_snoc_pos ha, List.flatMap_append, List.flatMap_singleton, wrap_nil, ← rows, hrows]
    simp
  · next ha =>
    rw [rows, splitOnP_snoc_neg (by simpa using ha) h, List.flatMap_append, List.flatMap_singleton, hsnoc]
    split <;> simp

end Wrap
