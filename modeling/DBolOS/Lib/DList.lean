import DBolOS.Lib.Ring

/-!
# Doubly linked lists

`DList next prev head tail l`: from `head` on, `next` visits the cells of `l` in order and `prev` leads back, the last
of them being `tail`.  Cells are linked in at the end and unlinked anywhere.  Read as a ring, where the first cell
follows the last one, the list has a cell after each cell, and the cells come in the order of a rotation of `l`.
-/

namespace Linked

variable {α : Type*}

structure DList (next prev : α → Option α) (head tail : Option α) (l : List α) : Prop where
  nodup : l.Nodup
  head_eq : head = l.head?
  tail_eq : tail = l.getLast?
  links : ∀ pre a post, l = pre ++ a :: post → next a = post.head? ∧ prev a = pre.getLast?

namespace DList

variable {next next' prev prev' : α → Option α} {head tail : Option α} {l rest : List α} {a n : α}

theorem nil (next prev : α → Option α) : DList next prev none none [] :=
  ⟨List.nodup_nil, rfl, rfl, fun pre a post h => by simp at h⟩

/-- The links of its own cells carry a list over to another linking. -/
theorem congr (h : DList next prev head tail l) (hnext : ∀ c ∈ l, next' c = next c) (hprev : ∀ c ∈ l, prev' c = prev c) :
    DList next' prev' head tail l := by
  refine ⟨h.nodup, h.head_eq, h.tail_eq, fun pre c post hl => ?_⟩
  have hc : c ∈ l := by rw [hl]; simp
  rw [hnext c hc, hprev c hc]
  exact h.links pre c post hl

/-- A new cell linked in behind the last one. -/
theorem append (h : DList next prev head tail l) (hn : n ∉ l) (hnext : next' n = none) (hprev : prev' n = tail)
    (hlink : ∀ t, tail = some t → next' t = some n) (hkeep : ∀ c ∈ l, tail ≠ some c → next' c = next c)
    (hkeep' : ∀ c ∈ l, prev' c = prev c) : DList next' prev' (head.or (some n)) (some n) (l ++ [n]) := by
  refine ⟨?_, ?_, by simp, ?_⟩
  · rw [List.nodup_append]
    exact ⟨h.nodup, by simp, fun x hx y hy => by
      rw [List.mem_singleton] at hy
      rintro rfl
      exact hn (hy ▸ hx)⟩
  · rw [h.head_eq, List.head?_append]
    rfl
  · intro pre c post hl
    rcases List.eq_nil_or_concat post with rfl | ⟨post', x, rfl⟩
    · obtain ⟨rfl, hc⟩ := List.append_inj' hl rfl
      obtain rfl := List.head_eq_of_cons_eq hc
      exact ⟨hnext, hprev.trans h.tail_eq⟩
    · rw [List.concat_eq_append, ← List.cons_append, ← List.append_assoc] at hl
      obtain ⟨rfl, hx⟩ := List.append_inj' hl rfl
      obtain rfl := List.head_eq_of_cons_eq hx
      obtain ⟨h1, h2⟩ := h.links pre c post' rfl
      refine ⟨?_, (hkeep' c (by simp)).trans h2⟩
      rw [List.concat_eq_append]
      rcases List.eq_nil_or_concat post' with rfl | ⟨post'', y, rfl⟩
      · exact hlink c (by rw [h.tail_eq]; simp)
      · rw [hkeep c (by simp), h1]
        · simp
        · -- the last cell is not `c`, which occurs once
          rw [h.tail_eq]
          intro hy
          have hlast : y = c := by simpa [List.getLast?_cons] using hy
          have hnodup := h.nodup
          rw [hlast] at hnodup
          simp [List.nodup_append] at hnodup

/-- The cell `a` unlinked. -/
theorem remove {pre post : List α} (h : DList next prev head tail (pre ++ a :: post))
    (hlink : ∀ p, prev a = some p → next' p = next a) (hlink' : ∀ q, next a = some q → prev' q = prev a)
    (hkeep : ∀ c, prev a ≠ some c → next' c = next c) (hkeep' : ∀ c, next a ≠ some c → prev' c = prev c) :
    DList next' prev' (if pre = [] then next a else head) (if post = [] then prev a else tail) (pre ++ post) := by
  obtain ⟨hna, hpa⟩ := h.links pre a post rfl
  refine ⟨?_, ?_, ?_, ?_⟩
  · exact h.nodup.sublist (List.Sublist.append_left (List.sublist_cons_self a post) pre)
  · rcases pre with _ | ⟨x, pre⟩
    · exact hna
    · rw [if_neg (List.cons_ne_nil _ _), h.head_eq]
      rfl
  · rcases List.eq_nil_or_concat post with rfl | ⟨post, x, rfl⟩
    · rw [if_pos rfl, hpa, List.append_nil]
    · rw [if_neg (by simp), h.tail_eq]
      simp [List.getLast?_cons]
  · intro u b w hl
    rcases List.append_eq_append_iff.1 hl with ⟨x, hu, hpost⟩ | ⟨x, hpre, hw⟩
    · -- behind the removed cell
      obtain ⟨h1, h2⟩ := h.links (pre ++ a :: x) b w (by rw [hpost]; simp)
      constructor
      · rw [hkeep b, h1]
        intro hb
        have hmem : b ∈ pre := List.mem_of_getLast? (hpa.symm.trans hb)
        have hnodup := h.nodup
        rw [hpost] at hnodup
        have hdisj := (List.nodup_append.1 hnodup).2.2 b hmem b (by simp)
        exact hdisj rfl
      · rcases List.eq_nil_or_concat x with rfl | ⟨x, y, rfl⟩
        · rw [hlink' b (by rw [hna, hpost]; rfl), hpa, hu, List.append_nil]
        · rw [hkeep' b, h2, hu]
          · simp [List.getLast?_cons]
          · intro hb
            rw [hna, hpost] at hb
            have hnodup := h.nodup
            rw [hpost] at hnodup
            cases x with
            | nil =>
              have : y = b := by simpa using hb
              subst this
              simp [List.nodup_append] at hnodup
            | cons z x =>
              have : z = b := by simpa using hb
              subst this
              simp [List.nodup_append] at hnodup
    · rcases x with _ | ⟨b', x⟩
      · -- right behind the removed cell
        have hw' : b :: w = post := by simpa using hw
        obtain ⟨h1, h2⟩ := h.links (pre ++ [a]) b w (by rw [← hw']; simp)
        constructor
        · rw [hkeep b, h1]
          intro hb
          have hmem : b ∈ pre := List.mem_of_getLast? (hpa.symm.trans hb)
          have hnodup := h.nodup
          rw [← hw'] at hnodup
          exact (List.nodup_append.1 hnodup).2.2 b hmem b (by simp) rfl
        · rw [hlink' b (by rw [hna, ← hw']; rfl), hpa, hpre, List.append_nil]
      · obtain ⟨rfl, rfl⟩ : b = b' ∧ w = x ++ post := by simpa using hw
        obtain ⟨h1, h2⟩ := h.links u b (x ++ a :: post) (by rw [hpre]; simp)
        constructor
        · rcases List.eq_nil_or_concat x with rfl | ⟨x, y, rfl⟩
          · rw [hlink b (by rw [hpa, hpre]; simp), hna, List.nil_append]
          · rw [hkeep b, h1]
            · cases x <;> simp
            · intro hb
              rw [hpa, hpre] at hb
              have hy : y = b := by simpa [List.getLast?_cons] using hb
              have hnodup := h.nodup
              rw [hpre, hy] at hnodup
              simp [List.nodup_append] at hnodup
        · rw [hkeep' b, h2]
          intro hb
          have hmem : b ∈ post := List.mem_of_head? (hna.symm.trans hb)
          have hnodup := h.nodup
          rw [hpre] at hnodup
          exact (List.nodup_append.1 hnodup).2.2 b (by simp) b (by simp [hmem]) rfl

/-- In the ring, the cell after `a` is the next one of the rotation. -/
theorem ring_next (h : DList next prev head tail l) (hl : l ~r (a :: rest)) :
    (next a).or head = (rest ++ [a]).head? := by
  obtain ⟨pre, post, rfl, rfl⟩ := Ring.rotated_cons_iff.1 hl
  obtain ⟨h1, _⟩ := h.links pre a post rfl
  rw [h1, h.head_eq, List.append_assoc]
  cases post <;> cases pre <;> simp

end DList

/-- `f` leads from `start` through the cells of `l` in their order, and ends behind the last one. -/
inductive Follows (f : α → Option α) : Option α → List α → Prop
  | nil : Follows f none []
  | cons {a : α} {l : List α} (h : Follows f (f a) l) : Follows f (some a) (a :: l)

theorem DList.follows_next (h : DList next prev head tail l) : Follows next head l := by
  have hpost : ∀ pre post, l = pre ++ post → Follows next post.head? post := by
    intro pre post hl
    induction post generalizing pre with
    | nil => exact .nil
    | cons a post ih =>
      apply Follows.cons
      rw [(h.links pre a post hl).1]
      exact ih (pre ++ [a]) (by rw [hl, List.append_assoc]; rfl)
  rw [h.head_eq]
  exact hpost [] l rfl

theorem DList.follows_prev (h : DList next prev head tail l) : Follows prev tail l.reverse := by
  have hpre : ∀ pre post, l = pre ++ post → Follows prev pre.getLast? pre.reverse := by
    intro pre post hl
    induction pre using List.reverseRecOn generalizing post with
    | nil => exact .nil
    | append_singleton pre a ih =>
      rw [List.getLast?_concat, List.reverse_concat]
      apply Follows.cons
      rw [List.append_assoc] at hl
      rw [(h.links pre a post hl).2]
      exact ih (a :: post) hl
  rw [h.tail_eq]
  exact hpre l [] (List.append_nil l).symm

/-- `a` is met on the walk along `next` from `head`. -/
def Visits (next : α → Option α) (head : Option α) (a : α) : Prop :=
  ∃ h, head = some h ∧ Relation.ReflTransGen (fun x y => next x = some y) h a

/-- The walk from the head meets exactly the cells of the list. -/
theorem DList.visits_iff (h : DList next prev head tail l) : Visits next head a ↔ a ∈ l := by
  constructor
  · rintro ⟨x, hx, hwalk⟩
    induction hwalk with
    | refl => exact List.mem_of_head? (h.head_eq.symm.trans hx)
    | tail _ hstep ih =>
      obtain ⟨pre, post, rfl⟩ := List.append_of_mem ih
      rw [(h.links pre _ post rfl).1] at hstep
      exact List.mem_append_right _ (List.mem_cons_of_mem _ (List.mem_of_head? hstep))
  · intro ha
    obtain ⟨pre, post, rfl⟩ := List.append_of_mem ha
    clear ha
    induction pre using List.reverseRecOn generalizing a post with
    | nil => exact ⟨a, h.head_eq, Relation.ReflTransGen.refl⟩
    | append_singleton pre x ih =>
      rw [List.append_assoc] at h
      obtain ⟨y, hy, hwalk⟩ := @ih x (a :: post) h
      exact ⟨y, hy, hwalk.tail (h.links pre x (a :: post) rfl).1⟩

end Linked
