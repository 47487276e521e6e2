import Mathlib

/-!
# Words of a text

`words p text` are the words of a text whose blanks are the characters with `p`: the pieces between the blanks, without
the empty ones.  A scanner finds them by skipping blanks (`words_dropWhile`) and taking what stands before the next one
(`words_eq_cons`); the words with one character more for each fit beside one another in the text and one character more
(`sum_length_words`).
-/

namespace Words

variable {α : Type*}

def words [DecidableEq α] (p : α → Bool) (text : List α) : List (List α) := (text.splitOnP p).filter (· ≠ [])

variable [DecidableEq α] {p : α → Bool} {text : List α}

theorem words_nil : words p ([] : List α) = [] := by simp [words]

theorem words_cons_blank {a : α} (ha : p a = true) (text : List α) : words p (a :: text) = words p text := by
  simp [words, List.splitOnP_cons_eq_if_modifyHead, ha]

/-- Blanks at the front do not count. -/
theorem words_dropWhile (text : List α) : words p (text.dropWhile p) = words p text := by
  induction text with
  | nil => rfl
  | cons a text ih =>
    by_cases ha : p a = true
    · rw [List.dropWhile_cons_of_pos ha, ih, words_cons_blank ha]
    · rw [List.dropWhile_cons_of_neg ha]

/-- A word in front of a blank, or at the end of the text. -/
theorem words_append {word rest : List α} (hword : ∀ a ∈ word, p a = false) (hne : word ≠ [])
    (hrest : ∀ b ∈ rest.head?, p b = true) : words p (word ++ rest) = word :: words p rest := by
  cases rest with
  | nil => simp [words, List.splitOnP_eq_singleton hword, hne]
  | cons b rest =>
    have hb : p b = true := hrest b rfl
    rw [words_cons_blank hb]
    simp [words, List.splitOnP_append_cons_of_forall_mem hword b hb, hne]

omit [DecidableEq α] in
theorem head_dropWhile_blank (text : List α) : ∀ b ∈ (text.dropWhile fun a => !p a).head?, p b = true := by
  intro b hb
  induction text with
  | nil => cases hb
  | cons a text ih =>
    by_cases ha : p a = true
    · simp [ha] at hb
      rwa [← hb]
    · simp [ha] at hb
      exact ih hb

/-- A text that starts with no blank: its first word, and the words behind. -/
theorem words_eq_cons {a : α} (ha : p a = false) (text : List α) : words p (a :: text) =
    ((a :: text).takeWhile fun a => !p a) :: words p ((a :: text).dropWhile fun a => !p a) := by
  have hsplit := List.takeWhile_append_dropWhile (p := fun a => !p a) (l := a :: text)
  conv_lhs => rw [← hsplit]
  apply words_append
  · intro b hb
    simpa using List.mem_takeWhile_imp hb
  · simp [ha]
  · exact head_dropWhile_blank _

/-- The words, each with one character more, fit in the text with one character more. -/
theorem sum_length_words (text : List α) :
    ((words p text).map fun word => word.length + 1).sum ≤ text.length + 1 := by
  have hsplit : ((text.splitOnP p).map fun word => word.length + 1).sum = text.length + 1 := by
    induction text with
    | nil => rfl
    | cons a text ih =>
      by_cases ha : p a = true
      · simp [List.splitOnP_cons_eq_if_modifyHead, ha, ih]
        omega
      · rw [List.splitOnP_cons_eq_if_modifyHead, if_neg ha]
        cases hcons : text.splitOnP p with
        | nil => exact absurd hcons (List.splitOnP_ne_nil p text)
        | cons word rest =>
          rw [hcons] at ih
          simp at ih ⊢
          omega
  rw [← hsplit]
  exact (List.filter_sublist.map _).sum_le_sum fun _ _ => Nat.zero_le _

end Words
