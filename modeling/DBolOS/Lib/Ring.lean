import Mathlib

/-!
# Rings

A list read as a ring: `l ~r (a :: rest)` says that `rest` are the other elements in the order met from `a` on.  What
appending to the list and erasing from it do to the ring, and which elements a walk has passed.
-/

namespace Ring

variable {α : Type*} {l rest rest' : List α} {a b c n p : α}

theorem rotated_cons_iff : l ~r (a :: rest) ↔ ∃ pre post, l = pre ++ a :: post ∧ rest = post ++ pre := by
  constructor
  · intro h
    obtain ⟨k, hk, hrot⟩ := List.isRotated_iff_mod.1 h
    rw [List.rotate_eq_drop_append_take hk] at hrot
    have hsplit := List.take_append_drop k l
    cases hdrop : l.drop k with
    | nil =>
      rw [hdrop, List.nil_append] at hrot
      rw [hdrop, hrot, List.append_nil] at hsplit
      exact ⟨[], rest, hsplit.symm, by simp⟩
    | cons b post =>
      rw [hdrop, List.cons_append, List.cons.injEq] at hrot
      obtain ⟨rfl, rfl⟩ := hrot
      exact ⟨l.take k, post, by rw [← hdrop, hsplit], rfl⟩
  · rintro ⟨pre, post, rfl, rfl⟩
    exact List.isRotated_append

/-- Each element starts the ring. -/
theorem exists_rotated_cons (h : a ∈ l) : ∃ rest, l ~r (a :: rest) := by
  obtain ⟨pre, post, hl⟩ := List.append_of_mem h
  exact ⟨post ++ pre, rotated_cons_iff.2 ⟨pre, post, hl, rfl⟩⟩

theorem rest_unique (hnodup : l.Nodup) (h : l ~r (a :: rest)) (h' : l ~r (a :: rest')) : rest = rest' := by
  obtain ⟨pre, post, hl, rfl⟩ := rotated_cons_iff.1 h
  obtain ⟨pre', post', hl', rfl⟩ := rotated_cons_iff.1 h'
  rw [hl] at hnodup hl'
  have ha : a ∉ pre := by
    intro ha
    rw [List.nodup_append] at hnodup
    exact hnodup.2.2 a ha a List.mem_cons_self rfl
  have ha' : a ∉ pre' := by
    intro ha'
    rw [hl', List.nodup_append] at hnodup
    exact hnodup.2.2 a ha' a List.mem_cons_self rfl
  obtain ⟨rfl, rfl⟩ : pre = pre' ∧ post = post' := by
    rcases List.append_eq_append_iff.1 hl' with ⟨x, hx, hpost⟩ | ⟨x, hx, hpost⟩
    · cases x with
      | nil => simp_all
      | cons y x =>
        obtain ⟨rfl, -⟩ := List.cons.inj hpost
        simp [hx] at ha'
    · cases x with
      | nil => simp_all
      | cons y x =>
        obtain ⟨rfl, -⟩ := List.cons.inj hpost
        simp [hx] at ha
  rfl

/-- Turning the ring on to a later element. -/
theorem rotated_of_split {behind ahead : List α} (h : l ~r (a :: (behind ++ c :: ahead))) :
    l ~r (c :: (ahead ++ a :: behind)) := by
  have hrot : (a :: behind ++ c :: ahead) ~r (c :: ahead ++ a :: behind) := List.isRotated_append
  exact h.trans hrot

/-- What is appended to the list comes somewhere behind `a`. -/
theorem rotated_append (h : l ~r (a :: rest)) (n : α) :
    ∃ u w, rest = u ++ w ∧ (l ++ [n]) ~r (a :: (u ++ n :: w)) := by
  obtain ⟨pre, post, rfl, rfl⟩ := rotated_cons_iff.1 h
  exact ⟨post, pre, rfl, rotated_cons_iff.2 ⟨pre, post ++ [n], by simp, by simp⟩⟩

theorem rotated_erase [DecidableEq α] (hnodup : l.Nodup) (h : l ~r (a :: rest)) : l.erase a ~r rest := by
  obtain ⟨pre, post, rfl, rfl⟩ := rotated_cons_iff.1 h
  have ha : a ∉ pre := by
    intro ha
    rw [List.nodup_append] at hnodup
    exact hnodup.2.2 a ha a List.mem_cons_self rfl
  rw [List.erase_append_right _ ha, List.erase_cons_head]
  exact List.isRotated_append

/-- On the way from `p` round the ring to `c`, which has come to `c`, `a` was passed. -/
def Passed (l : List α) (p c a : α) : Prop :=
  ∃ behind ahead, l ~r (p :: (behind ++ c :: ahead)) ∧ a ∈ behind ++ [c]

theorem Passed.self (hp : p ∈ l) (hc : c ∈ l) (h : c ≠ p) : Passed l p c c := by
  obtain ⟨rest, hrest⟩ := exists_rotated_cons hp
  have hmem : c ∈ rest := (List.mem_cons.1 (hrest.mem_iff.1 hc)).resolve_left h
  obtain ⟨behind, ahead, rfl⟩ := List.append_of_mem hmem
  exact ⟨behind, ahead, hrest, by simp⟩

/-- What was passed stays passed when the list grows. -/
theorem Passed.append (h : Passed l p c a) (n : α) : Passed (l ++ [n]) p c a := by
  obtain ⟨behind, ahead, hl, ha⟩ := h
  obtain ⟨u, w, hrest, hl'⟩ := rotated_append hl n
  rcases List.append_eq_append_iff.1 hrest with ⟨x, hu, hw⟩ | ⟨x, hbehind, hw⟩
  · cases x with
    | nil =>
      refine ⟨behind ++ [n], ahead, ?_, ?_⟩
      · rw [List.append_nil] at hu
        rw [List.nil_append] at hw
        rw [hu, ← hw] at hl'
        simpa using hl'
      · simp only [List.mem_append] at ha ⊢
        tauto
    | cons y x =>
      obtain ⟨rfl, rfl⟩ : c = y ∧ ahead = x ++ w := by simpa using hw
      refine ⟨behind, x ++ n :: w, ?_, ha⟩
      rw [hu] at hl'
      simpa using hl'
  · refine ⟨u ++ n :: x, ahead, ?_, ?_⟩
    · rw [hw] at hl'
      simpa using hl'
    · rw [hbehind] at ha
      simp only [List.mem_append, List.mem_cons] at ha ⊢
      tauto

/-- A walk on from `c`, not as far as `p`, comes to an element that was not passed. -/
theorem Passed.walk {skipped after : List α} {d : α} (hnodup : l.Nodup) (h : Passed l p c a) (hl : l ~r (c :: rest))
    (hsplit : rest ++ [c] = skipped ++ d :: after) (hskipped : p ∉ skipped) (hd : d ≠ p) :
    Passed l p d a ∧ d ≠ a := by
  obtain ⟨behind, ahead, hp, ha⟩ := h
  obtain rfl := rest_unique hnodup hl (rotated_of_split hp)
  obtain ⟨ahead', rfl⟩ : ∃ ahead', ahead = skipped ++ d :: ahead' := by
    rw [List.append_assoc] at hsplit
    rcases List.append_eq_append_iff.1 hsplit with ⟨x, hx, hpost⟩ | ⟨x, hx, hpost⟩
    · cases x with
      | nil =>
        obtain ⟨rfl, -⟩ : p = d ∧ _ := by simpa using hpost
        exact absurd rfl hd
      | cons y x =>
        obtain ⟨rfl, -⟩ : p = y ∧ _ := by simpa using hpost
        simp [hx] at hskipped
    · cases x with
      | nil =>
        obtain ⟨rfl, -⟩ : d = p ∧ _ := by simpa using hpost
        exact absurd rfl hd
      | cons y x =>
        obtain ⟨rfl, -⟩ : d = y ∧ _ := by simpa using hpost
        exact ⟨x, hx⟩
  refine ⟨⟨behind ++ c :: skipped, ahead', by simpa using hp, ?_⟩, ?_⟩
  · simp only [List.mem_append, List.mem_cons, List.not_mem_nil, or_false] at ha ⊢
    tauto
  · rintro rfl
    have hnodup' := hp.nodup_iff.1 hnodup
    simp only [List.mem_append, List.mem_cons, List.not_mem_nil, or_false] at ha
    rcases ha with ha | rfl
    · simp [List.nodup_append] at hnodup'
      grind
    · simp [List.nodup_append] at hnodup'

/-- Erasing the element the walk has come to, and walking on. -/
theorem Passed.erase [DecidableEq α] {d : α} (hnodup : l.Nodup) (h : Passed l p c a) (hl : l ~r (c :: rest))
    (hd : (rest ++ [c]).head? = some d) (hdp : d ≠ p) (hac : a ≠ c) : Passed (l.erase c) p d a ∧ d ≠ a := by
  obtain ⟨behind, ahead, hp, ha⟩ := h
  have hc := rotated_of_split hp
  obtain rfl := rest_unique hnodup hl hc
  have herase := rotated_erase hnodup hc
  have ha' : a ∈ behind := by simpa [hac] using ha
  cases ahead with
  | nil =>
    obtain rfl : p = d := by simpa using hd
    exact absurd rfl hdp
  | cons x ahead =>
    obtain rfl : x = d := by simpa using hd
    have hrot : (x :: ahead ++ p :: behind) ~r (p :: behind ++ x :: ahead) := List.isRotated_append
    refine ⟨⟨behind, ahead, herase.trans hrot, List.mem_append_left _ ha'⟩, ?_⟩
    rintro rfl
    have hnodup' := hp.nodup_iff.1 hnodup
    simp [List.nodup_append] at hnodup'
    grind

end Ring
