import Mathlib

/-!
# Cells linked both ways in an order

`Seam next prev gap x y`: the cell `x` is linked to `y` both ways, and `gap` holds between them.  A list is linked when
all its neighbours are (`List.IsChain`), so a list splits at any of its cells and is joined again there.  The links of
the last cell forward and of the first cell backward belong to no seam, and a change of them keeps the list linked.
-/

namespace Linked

variable {α : Type*} {next next' prev prev' : α → α} {gap : α → α → Prop} {x y c : α} {l pre post : List α}

structure Seam (next prev : α → α) (gap : α → α → Prop) (x y : α) : Prop where
  next : next x = y
  prev : prev y = x
  gap : gap x y

/-- A list up to its last cell, whose link forward may have changed. -/
theorem Seam.congr_front (h : (pre ++ [c]).IsChain (Seam next prev gap)) (hnext : ∀ x ∈ pre, next' x = next x)
    (hprev : ∀ x ∈ pre ++ [c], prev' x = prev x) : (pre ++ [c]).IsChain (Seam next' prev' gap) := by
  induction pre with
  | nil => exact List.isChain_singleton c
  | cons a pre ih =>
    rw [List.cons_append] at h ⊢
    have hrest := ih h.tail (fun x hx => hnext x (List.mem_cons_of_mem _ hx))
      (fun x hx => hprev x (List.mem_cons_of_mem _ hx))
    refine hrest.cons fun y hy => ?_
    have hseam := h.rel_head? hy
    have hmem : y ∈ pre ++ [c] := List.mem_of_mem_head? hy
    exact ⟨(hnext a List.mem_cons_self).trans hseam.next, (hprev y (List.mem_cons_of_mem _ hmem)).trans hseam.prev,
      hseam.gap⟩

/-- A list from its first cell on, whose link backward may have changed. -/
theorem Seam.congr_back (h : (c :: post).IsChain (Seam next prev gap)) (hnext : ∀ x ∈ c :: post, next' x = next x)
    (hprev : ∀ x ∈ post, prev' x = prev x) : (c :: post).IsChain (Seam next' prev' gap) := by
  induction post generalizing c with
  | nil => exact List.isChain_singleton c
  | cons b post ih =>
    rw [List.isChain_cons_cons] at h ⊢
    obtain ⟨hseam, hrest⟩ := h
    refine ⟨⟨?_, ?_, hseam.gap⟩, ih hrest ?_ ?_⟩
    · exact (hnext c List.mem_cons_self).trans hseam.next
    · exact (hprev b List.mem_cons_self).trans hseam.prev
    · intro x hx
      exact hnext x (List.mem_cons_of_mem _ hx)
    · intro x hx
      exact hprev x (List.mem_cons_of_mem _ hx)

/-- Where the gap is transitive, it holds between any two cells in order. -/
theorem Seam.pairwise [Trans gap gap gap] (h : l.IsChain (Seam next prev gap)) : l.Pairwise gap :=
  (h.imp fun _ _ hseam => hseam.gap).pairwise

/-- The list is visited by following `next` from its first cell. -/
theorem Seam.next_eq (h : (pre ++ x :: y :: post).IsChain (Seam next prev gap)) : Seam next prev gap x y := by
  rw [List.isChain_append_cons_cons] at h
  exact h.2.1

end Linked
