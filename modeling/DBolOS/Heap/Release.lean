import DBolOS.Heap.Search

/-!
# Giving a block back

`free_block` cuts the list at the last block, or merges the block with a free one at its side.  The cut may unmap the
page of the new last entry, and neither merge stores the link backward of the block behind.  The list is kept where none
of this happens (`Listed.kfree_spec`).
-/

namespace DBolOS.Kmalloc

open Linked Heap

variable {h h' : Heap} {ns front post : List Nat} {a b d n : Nat}

/-- What a block needs to be given back: the last one that its header stays mapped, another one that there is no free
block at its side. -/
structure Releasable (h : Heap) (b : Nat) : Prop where
  last : h.next (h.next b) = 0 → h.currHeapEnd < b + 4096 ∨ b + 12 + 4096 ≤ h.currHeapEnd
  prev : h.next (h.next b) ≠ 0 → h.prev b ≠ 0 → h.free (h.prev b) = false
  next : h.next (h.next b) ≠ 0 → h.free (h.next b) = false

instance (h : Heap) (b : Nat) : Decidable (Releasable h b) :=
  decidable_of_iff ((h.next (h.next b) = 0 → h.currHeapEnd < b + 4096 ∨ b + 12 + 4096 ≤ h.currHeapEnd) ∧
    (h.next (h.next b) ≠ 0 → h.prev b ≠ 0 → h.free (h.prev b) = false) ∧
    (h.next (h.next b) ≠ 0 → h.free (h.next b) = false))
    ⟨fun ⟨hlast, hprev, hnext⟩ => ⟨hlast, hprev, hnext⟩, fun hr => ⟨hr.last, hr.prev, hr.next⟩⟩

/-- The stores that make a block the last entry. -/
private theorem Heap.cutStores (h : Heap) (hb : Inside h.currHeapEnd b) :
    ∃ bytes, (({ h with lastEntry := b }.setNext b 0).bind fun h => h.setFree b true) =
        some ⟨bytes, h.currHeapEnd, b⟩ ∧
      ∀ e, (Heap.mk bytes e b).mem b = { h.mem b with isFree := true, next := 0 } ∧
        ∀ x, x + 12 ≤ b → (Heap.mk bytes e b).mem x = h.mem x := by
  refine ⟨(({ h with lastEntry := b }.putNext b 0).putFree b true).bytes, ?_, fun e => ⟨?_, fun x hx => ?_⟩⟩
  · rw [setNext_eq (h := { h with lastEntry := b }) hb, Option.bind_some]
    exact setFree_eq (h := { h with lastEntry := b }.putNext b 0) hb true
  · calc _ = (({ h with lastEntry := b }.putNext b 0).putFree b true).mem b := rfl
      _ = _ := by
        rw [putFree_mem_self, putNext_mem_self (by omega), withLast_mem]
  · calc _ = (({ h with lastEntry := b }.putNext b 0).putFree b true).mem x := rfl
      _ = _ := by
        rw [putFree_mem _ (.inl hx), putNext_mem _ (.inl hx), withLast_mem]

namespace Listed

/-- A taken block has a header behind it. -/
theorem taken_split (hl : Listed h ns) (ht : Taken h ns b n) : ∃ front d post, ns = front ++ b :: d :: post := by
  obtain ⟨front, post, rfl⟩ := List.append_of_mem ht.mem
  obtain ⟨rest, rfl⟩ := hl.post_eq_cons ht.next
  exact ⟨front, _, rest, rfl⟩

/-- A header does not lie in a taken block. -/
theorem le_or_next_le (hl : Listed h ns) (ht : Taken h ns b n) (ha : a ∈ ns) : a ≤ b ∨ h.next b ≤ a := by
  obtain ⟨front, d, post, rfl⟩ := hl.taken_split ht
  have hl' : Listed h ((front ++ [b]) ++ d :: post) := by simpa using hl
  rw [hl.seam.next]
  rcases List.mem_append.1 ha with ha | ha
  · have := hl.apart_of_front ha
    unfold Apart at this
    exact .inl (by omega)
  · rcases List.mem_cons.1 ha with rfl | ha
    · exact .inl (Nat.le_refl a)
    · rcases List.mem_cons.1 ha with rfl | ha
      · exact .inr (Nat.le_refl a)
      · have := hl'.apart_of_post ha
        unfold Apart at this
        exact .inr (by omega)

private theorem cut (hl : Listed h (front ++ [b, d])) (hlast : h'.lastEntry = b)
    (hmem : h'.mem b = { h.mem b with isFree := true, next := 0 })
    (hrest : ∀ x, x + 12 ≤ b → h'.mem x = h.mem x) (hinside : b + 12 ≤ h'.currHeapEnd)
    (hend : h'.currHeapEnd = h.currHeapEnd ∨ h'.currHeapEnd + 4096 = h.currHeapEnd) :
    Listed h' (front ++ [b]) ∧ ∀ a size, a ≠ b → Taken h (front ++ [b, d]) a size → Taken h' (front ++ [b]) a size := by
  have hfront : ∀ x ∈ front, h'.mem x = h.mem x := by
    intro x hx
    have hxb := hl.apart_of_front hx
    unfold Apart at hxb
    exact hrest x (by omega)
  have hpage := hl.pageEnd
  have htop := hl.top
  refine ⟨hl.splice ?_ ?_ (List.isChain_singleton b) ?_ ?_ ?_ (by omega) (by omega), ?_⟩
  · intro x hx
    unfold Heap.next
    rw [hfront x hx]
  · intro x hx
    unfold Heap.prev
    rcases List.mem_append.1 hx with hx | hx
    · rw [hfront x hx]
    · rw [List.mem_singleton.1 hx, hmem]
  · rw [hlast]
    rfl
  · unfold Heap.next
    rw [hlast, hmem]
  · rw [hlast]
    exact hinside
  · intro a size hab ht
    have hlastd : d = h.lastEntry := by simpa using hl.last
    have had : a ≠ d := by
      rintro rfl
      exact ht.next (hlastd ▸ hl.lastNext)
    have ha : a ∈ front := by
      have := ht.mem
      simp only [List.mem_append, List.mem_cons, List.not_mem_nil, or_false, hab, had] at this
      exact this
    have hmema := hfront a ha
    refine ⟨List.mem_append_left _ ha, ?_, ?_, ?_⟩
    · unfold Heap.free
      rw [hmema]
      exact ht.taken
    · unfold Heap.next
      rw [hmema]
      exact ht.next
    · unfold Heap.next
      rw [hmema]
      exact ht.size

/-- The list with one header made free. -/
theorem setFree_spec (hl : Listed h (front ++ b :: post)) :
    Listed (h.putFree b true) (front ++ b :: post) ∧
      ∀ a size, a ≠ b → Taken h (front ++ b :: post) a size → Taken (h.putFree b true) (front ++ b :: post) a size := by
  have hother : ∀ x ∈ front ++ b :: post, x ≠ b → (h.putFree b true).mem x = h.mem x := by
    intro x hx hxb
    refine putFree_mem true ?_
    rcases List.mem_append.1 hx with hx | hx
    · have := hl.apart_of_front hx
      unfold Apart at this
      omega
    · rcases List.mem_cons.1 hx with hx | hx
      · exact absurd hx hxb
      · have := hl.apart_of_post hx
        unfold Apart at this
        omega
  have hlinks : ∀ x ∈ front ++ b :: post, (h.putFree b true).next x = h.next x ∧ (h.putFree b true).prev x = h.prev x := by
    intro x hx
    unfold Heap.next Heap.prev
    by_cases hxb : x = b
    · rw [hxb, putFree_mem_self]
      exact ⟨rfl, rfl⟩
    · rw [hother x hx hxb]
      exact ⟨rfl, rfl⟩
  refine ⟨hl.congr_links hlinks rfl rfl, ?_⟩
  intro a size hab ht
  have hnext := (hlinks a ht.mem).1
  refine ⟨ht.mem, ?_, by rw [hnext]; exact ht.next, by rw [hnext]; exact ht.size⟩
  unfold Heap.free
  rw [hother a ht.mem hab]
  exact ht.taken

/-- The first tests of `free_block`, which a block of the list passes. -/
private theorem freeBlock_enter (hl : Listed h (front ++ b :: d :: post)) :
    Inside h.currHeapEnd b ∧ Inside h.currHeapEnd d ∧ (h.mem b).next = d ∧ d ≠ 0 ∧
      ¬ (b < heapStart ∨ KERNEL_HEAP_END < b) := by
  have hbin : Inside h.currHeapEnd b := hl.mapped (by simp)
  have hend := hbin.2
  have htop := hl.top
  refine ⟨hbin, hl.mapped (by simp), hl.seam.next, hl.ne_zero (by simp), ?_⟩
  unfold KERNEL_HEAP_END
  have := hbin.1
  omega

/-- The last block becomes the last entry. -/
theorem freeBlock_last (hl : Listed h (front ++ [b, d]))
    (hlast : h.currHeapEnd < b + 4096 ∨ b + 12 + 4096 ≤ h.currHeapEnd) :
    ∃ h', h.freeBlock b = some h' ∧ Listed h' (front ++ [b]) ∧ (∀ x ∈ front, h'.mem x = h.mem x) ∧
      ∀ a size, a ≠ b → Taken h (front ++ [b, d]) a size → Taken h' (front ++ [b]) a size := by
  obtain ⟨hbin, hdin, hnext, hdne, hrange⟩ := hl.freeBlock_enter
  have hzero : (h.mem d).next = 0 := by
    have hentry : d = h.lastEntry := by simpa using hl.last
    rw [hentry]
    exact hl.lastNext
  have hfront : ∀ x ∈ front, x + 12 ≤ b := by
    intro x hx
    have hxb := hl.apart_of_front hx
    unfold Apart at hxb
    omega
  obtain ⟨bytes, hstores, hmems⟩ := h.cutStores hbin
  unfold freeBlock
  rw [if_neg hrange]
  simp only [load_eq hbin, load_eq hdin, hnext, Option.bind_eq_bind, Option.bind_some, if_neg hdne]
  rw [if_pos hzero, ← Option.bind_assoc, hstores, Option.bind_some]
  have hpages := hl.pageEnd
  have halign : align b PAGE_SIZE < align h.currHeapEnd PAGE_SIZE ↔ b + 4096 ≤ h.currHeapEnd := by
    unfold align PAGE_SIZE
    omega
  by_cases hpage : align b PAGE_SIZE < align h.currHeapEnd PAGE_SIZE
  · have hle := halign.1 hpage
    rw [if_pos hpage, deallocateLastHeapPage_mk]
    rcases hlast with hlt | hin
    · omega
    · obtain ⟨hmem, hrest⟩ := hmems (h.currHeapEnd - 4096)
      obtain ⟨hl', hkeeps⟩ := @cut h ⟨bytes, h.currHeapEnd - 4096, b⟩ _ _ _ hl rfl hmem hrest
        (Nat.le_sub_of_add_le hin) (.inr (Nat.sub_add_cancel (by omega)))
      exact ⟨_, rfl, hl', fun x hx => hrest x (hfront x hx), hkeeps⟩
  · rw [if_neg hpage]
    obtain ⟨hmem, hrest⟩ := hmems h.currHeapEnd
    obtain ⟨hl', hkeeps⟩ := @cut h ⟨bytes, h.currHeapEnd, b⟩ _ _ _ hl rfl hmem hrest hbin.2 (.inl rfl)
    exact ⟨_, rfl, hl', fun x hx => hrest x (hfront x hx), hkeeps⟩

/-- Another block is merged into the one before it, or made free with the one behind it. -/
theorem freeBlock_inner (hl : Listed h (front ++ b :: d :: post)) (hne : h.next d ≠ 0) :
    h.freeBlock b = some (if h.prev b ≠ 0 ∧ h.free (h.prev b) = true then h.putNext (h.prev b) d
      else (if h.free d = true then h.putNext b (h.next d) else h).putFree b true) := by
  obtain ⟨hbin, hdin, hnext, hdne, hrange⟩ := hl.freeBlock_enter
  have hpin : h.prev b ≠ 0 → Inside h.currHeapEnd (h.prev b) := by
    intro hb
    rw [hl.prev_eq] at hb ⊢
    rcases List.eq_nil_or_concat front with rfl | ⟨front, x, rfl⟩
    · exact absurd rfl hb
    · refine hl.mapped ?_
      simp
  have hprevFree : h.isFreeEntry (h.mem b).prev = some (decide (h.prev b ≠ 0 ∧ h.free (h.prev b) = true)) := by
    show h.isFreeEntry (h.prev b) = _
    unfold isFreeEntry
    by_cases hb : h.prev b = 0
    · rw [if_pos hb]
      simp [hb]
    · rw [if_neg hb, load_eq (hpin hb)]
      simp only [ne_eq, hb, not_false_eq_true, true_and, Bool.decide_eq_true]
      rfl
  unfold freeBlock
  rw [if_neg hrange]
  simp only [load_eq hbin, load_eq hdin, hnext, Option.bind_eq_bind, Option.bind_some, if_neg hdne]
  have hdn : (h.mem d).next = h.next d := rfl
  rw [hdn, if_neg hne, hprevFree, Option.bind_some]
  by_cases hmerge : h.prev b ≠ 0 ∧ h.free (h.prev b) = true
  · rw [if_pos hmerge, if_pos (decide_eq_true hmerge)]
    exact setNext_eq (hpin hmerge.1) d
  · have hd : (h.mem d).isFree = h.free d := rfl
    rw [if_neg hmerge, if_neg (by simpa using hmerge), hd]
    split
    · rw [setNext_eq hbin, Option.bind_some]
      exact setFree_eq (h := h.putNext b (h.next d)) hbin true
    · rw [Option.bind_some]
      exact setFree_eq hbin true

/-- `free_block` keeps the list, and what else was taken. -/
private theorem freeBlock_spec (hl : Listed h ns) (ht : Taken h ns b n) (hrel : Releasable h b) :
    ∃ h' ns', h.freeBlock b = some h' ∧ Listed h' ns' ∧
      ∀ a size, a ≠ b → Taken h ns a size → Taken h' ns' a size := by
  obtain ⟨front, d, post, rfl⟩ := hl.taken_split ht
  have hnext : h.next b = d := hl.seam.next
  obtain ⟨hlast, hprev, hfree⟩ := hrel
  rw [hnext] at hlast hprev hfree
  by_cases hzero : h.next d = 0
  · obtain rfl : post = [] := by
      have hl' : Listed h ((front ++ [b]) ++ d :: post) := by simpa using hl
      exact hl'.post_eq_nil hzero
    obtain ⟨h', heq, hl', -, hkeeps⟩ := hl.freeBlock_last (hlast hzero)
    exact ⟨h', _, heq, hl', hkeeps⟩
  · obtain ⟨hl', hkeeps⟩ := hl.setFree_spec
    have hmerge : ¬ (h.prev b ≠ 0 ∧ h.free (h.prev b) = true) := by
      rintro ⟨hb, hbfree⟩
      rw [hprev hzero hb] at hbfree
      cases hbfree
    have hnextFree : ¬ h.free d = true := by
      rw [Bool.not_eq_true]
      exact hfree hzero
    refine ⟨h.putFree b true, _, ?_, hl', hkeeps⟩
    rw [hl.freeBlock_inner hzero, if_neg hmerge, if_neg hnextFree]

theorem kfree_spec (hl : Listed h ns) (ht : Taken h ns b n) (hrel : Releasable h b) :
    ∃ h' ns', h.kfree (b + 12) = some h' ∧ Listed h' ns' ∧ ∀ a size, a ≠ b → Taken h ns a size → Taken h' ns' a size := by
  unfold kfree sizeofEntry
  rw [if_neg (by omega), Nat.add_sub_cancel]
  exact hl.freeBlock_spec ht hrel

end Listed

end DBolOS.Kmalloc
