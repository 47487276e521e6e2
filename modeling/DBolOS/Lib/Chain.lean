import Mathlib

/-!
# Linked chains

`Chain next stop a l`: following `next` from the cell `a` visits the cells of `l` in order, and the last of them is
marked by `stop`.  A cell that is marked has no next one (`Terminates`), so a chain is determined by its first cell and
repeats none.  Chains are carried over to another linking by the links of their own cells.
-/

namespace Linked

variable {α : Type*}

inductive Chain (next : α → Option α) (stop : α → Prop) : α → List α → Prop
  | last {a : α} (h : stop a) : Chain next stop a [a]
  | cons {a b : α} {l : List α} (h : next a = some b) (hl : Chain next stop b l) : Chain next stop a (a :: l)

/-- Marked cells have no next one. -/
def Terminates (next : α → Option α) (stop : α → Prop) : Prop := ∀ a, stop a → next a = none

variable {next next' : α → Option α} {stop stop' : α → Prop} {a b n : α} {l l' : List α}

namespace Chain

theorem exists_cons (h : Chain next stop a l) : ∃ t, l = a :: t := by
  cases h with
  | last _ => exact ⟨[], rfl⟩
  | cons _ _ => exact ⟨_, rfl⟩

theorem ne_nil (h : Chain next stop a l) : l ≠ [] := by
  obtain ⟨t, rfl⟩ := h.exists_cons
  simp

theorem mem_head (h : Chain next stop a l) : a ∈ l := by
  obtain ⟨t, rfl⟩ := h.exists_cons
  simp

theorem length_pos (h : Chain next stop a l) : 0 < l.length := List.length_pos_of_ne_nil h.ne_nil

/-- A chain is determined by its first cell. -/
theorem functional (ht : Terminates next stop) (h : Chain next stop a l) (h' : Chain next stop a l') : l = l' := by
  induction h generalizing l' with
  | last hstop =>
    cases h' with
    | last _ => rfl
    | cons hnext _ =>
      rw [ht _ hstop] at hnext
      cases hnext
  | cons hnext _ ih =>
    cases h' with
    | last hstop =>
      rw [ht _ hstop] at hnext
      cases hnext
    | cons hnext' h' =>
      rw [hnext] at hnext'
      cases hnext'
      rw [ih h']

/-- From each of its cells on, a chain is a chain. -/
theorem suffix {pre suf : List α} (h : Chain next stop a (pre ++ b :: suf)) : Chain next stop b (b :: suf) := by
  induction pre generalizing a with
  | nil =>
    obtain ⟨t, ht⟩ := h.exists_cons
    cases ht
    exact h
  | cons c pre ih =>
    rw [List.cons_append] at h
    generalize hl : pre ++ b :: suf = l at h
    cases h with
    | last _ => simp at hl
    | cons _ h => exact ih (hl ▸ h)

/-- From its `i`-th cell on, a chain is a chain. -/
theorem drop (h : Chain next stop a l) {i : ℕ} (hb : l[i]? = some b) : Chain next stop b (l.drop i) := by
  obtain ⟨hi, rfl⟩ := List.getElem?_eq_some_iff.1 hb
  have hdrop := List.drop_eq_getElem_cons hi
  have hsplit : l.take i ++ l[i] :: l.drop (i + 1) = l := by rw [← hdrop, List.take_append_drop]
  rw [hdrop]
  exact (hsplit ▸ h : Chain next stop a (l.take i ++ l[i] :: l.drop (i + 1))).suffix

/-- No cell occurs twice. -/
theorem nodup (ht : Terminates next stop) (h : Chain next stop a l) : l.Nodup := by
  induction h with
  | last _ => simp
  | @cons a b l hnext hl ih =>
    rw [List.nodup_cons]
    refine ⟨fun hmem => ?_, ih⟩
    -- the part of the chain from the second visit on would be the whole chain
    obtain ⟨pre, suf, rfl⟩ := List.append_of_mem hmem
    have hsuf := functional ht hl.suffix (Chain.cons hnext hl)
    have hlen := congrArg List.length hsuf
    rw [List.length_cons, List.length_cons, List.length_append, List.length_cons] at hlen
    omega

/-- The links of the cells carry a chain over to another linking. -/
theorem congr (h : Chain next stop a l) (hnext : ∀ c ∈ l, next' c = next c) (hstop : ∀ c ∈ l, stop c → stop' c) :
    Chain next' stop' a l := by
  induction h with
  | last h => exact .last (hstop _ (by simp) h)
  | cons h _ ih =>
    refine .cons ?_ (ih (fun c hc => hnext c (by simp [hc])) (fun c hc => hstop c (by simp [hc])))
    rw [hnext _ (by simp), h]

theorem stop_getLast (h : Chain next stop a l) : stop (l.getLast h.ne_nil) := by
  induction h with
  | last h => exact h
  | cons _ hl ih => rwa [List.getLast_cons hl.ne_nil]

/-- The cells before the last one are linked. -/
theorem next_isSome (h : Chain next stop a l) {c : α} (hc : c ∈ l) : next c ≠ none ∨ stop c := by
  induction h with
  | last h =>
    rw [List.mem_singleton] at hc
    exact .inr (hc ▸ h)
  | cons h _ ih =>
    rcases List.mem_cons.1 hc with rfl | hc
    · left
      rw [h]
      simp
    · exact ih hc

/-- A chain grows by a marked cell linked behind its last one. -/
theorem snoc (ht : Terminates next stop) (h : Chain next stop a l) (hb : l.getLast? = some b)
    (hkeep : ∀ c ∈ l, c ≠ b → next' c = next c) (hlink : next' b = some n) (hstop : stop' n) :
    Chain next' stop' a (l ++ [n]) := by
  induction h with
  | last _ =>
    rw [List.getLast?_singleton, Option.some.injEq] at hb
    exact .cons (hb ▸ hlink) (.last hstop)
  | @cons a c l hnext hl ih =>
    rw [List.getLast?_cons_of_ne_nil hl.ne_nil] at hb
    have hbstop : stop b := by
      rw [List.getLast?_eq_getLast_of_ne_nil hl.ne_nil, Option.some.injEq] at hb
      exact hb ▸ hl.stop_getLast
    have hne : a ≠ b := by
      rintro rfl
      rw [ht _ hbstop] at hnext
      cases hnext
    refine .cons ?_ (ih hb fun c hc => hkeep c (by simp [hc]))
    rw [hkeep a (by simp) hne, hnext]

end Chain

end Linked
