import DBolOS.Heap.Listed

/-!
# Allocating from the list

`kmalloc` walks the list for a free block that is large enough, appends pages where it meets the end, and takes the
block.  It keeps the list whatever the sizes are (`Listed.kmalloc_spec`).  Where there is no block and no page for one
byte there is none for more (`kmalloc_null`).
-/

namespace DBolOS.Kmalloc

open Linked Heap

variable {h h' : Heap} {ns pre post : List Nat} {curr c d wantedSize : Nat} {pages : List Page}

/-- There are fewer headers than bytes. -/
theorem length_le_of_pairwise (happart : ns.Pairwise Apart) (hin : ∀ x ∈ ns, Inside h.currHeapEnd x) :
    ns.length ≤ h.currHeapEnd - heapStart := by
  have hnodup : ns.Nodup := by
    refine happart.imp ?_
    rintro x y hxy rfl
    unfold Apart at hxy
    omega
  have hsubset : ns.toFinset ⊆ Finset.Ico heapStart h.currHeapEnd := by
    intro x hx
    rw [List.mem_toFinset] at hx
    obtain ⟨hlo, hhi⟩ := hin x hx
    unfold sizeofEntry at hhi
    exact Finset.mem_Ico.2 ⟨hlo, by omega⟩
  have hcard := Finset.card_le_card hsubset
  rwa [Nat.card_Ico, List.toFinset_card_of_nodup hnodup] at hcard

/-- A header is read as it is, and the size of its block is the distance to the next one. -/
theorem blockSize_of_next (hnext : h.next curr = d) (hgap : Apart curr d) (hd : d < 2 ^ 32) :
    blockSize curr (h.mem curr) = d - curr - 12 := by
  have hnext' : (h.mem curr).next = d := hnext
  unfold Apart at hgap
  unfold blockSize sizeofEntry
  rw [hnext']
  omega

namespace Listed

theorem post_eq_nil (hl : Listed h (pre ++ curr :: post)) (hzero : h.next curr = 0) : post = [] := by
  cases post with
  | nil => rfl
  | cons b post => exact absurd (hl.seam.next.symm.trans hzero) (hl.ne_zero (by simp))

theorem post_eq_cons (hl : Listed h (pre ++ curr :: post)) (hne : h.next curr ≠ 0) :
    ∃ rest, post = h.next curr :: rest := by
  cases post with
  | nil =>
    have hlast : curr = h.lastEntry := by simpa using hl.last
    exact absurd (hlast ▸ hl.lastNext) hne
  | cons b rest => exact ⟨rest, by rw [hl.seam.next]⟩

private theorem blockSize_eq (hl : Listed h (pre ++ curr :: d :: post)) :
    blockSize curr (h.mem curr) = d - curr - 12 ∧ curr + 16 ≤ d ∧ d + 12 ≤ h.currHeapEnd := by
  have hseam := hl.seam
  have hgap := hseam.gap
  have hd := hl.end_le (a := d) (by simp)
  have htop := hl.end_facts.2.1
  exact ⟨blockSize_of_next hseam.next hgap (by omega), hgap, hd⟩

/-- The search ends at a free block that is large enough, or finds no more pages. -/
private theorem findLoop_spec {fuel : Nat} (hl : Listed h (pre ++ curr :: post))
    (hfuel : post.length + 2 * pages.length < fuel) :
    ∃ r h' ns', findLoop wantedSize fuel curr h pages = some (r, h') ∧ Listed h' ns' ∧
      KeepsTaken h h' (pre ++ curr :: post) ns' ∧
      ∀ c, r = some c → ∃ pre d post, ns' = pre ++ c :: d :: post ∧ h'.free c = true ∧ c + 12 + wantedSize ≤ d := by
  induction fuel generalizing h pre curr post pages with
  | zero => omega
  | succ fuel ih =>
    have hload : h.load curr = some (h.mem curr) := load_eq (hl.mapped (by simp))
    simp only [findLoop, hload, Option.bind_eq_bind, Option.bind_some]
    by_cases hsearch : (!(h.mem curr).isFree || decide ((h.mem curr).next = 0) ||
        decide (blockSize curr (h.mem curr) < wantedSize)) = true
    · rw [if_pos hsearch]
      by_cases hzero : (h.mem curr).next = 0
      · -- the last entry
        rw [if_pos (.inl hzero)]
        obtain rfl := hl.post_eq_nil hzero
        cases halloc : h.allocateHeapPage pages with
        | none => exact ⟨none, h, _, rfl, hl, KeepsTaken.refl _ _, fun c hc => by cases hc⟩
        | some grown =>
          obtain ⟨h₁, pages'⟩ := grown
          obtain ⟨hgrown, page, rfl, -⟩ := allocateHeapPage_grown halloc
          obtain ⟨front, c, h₂, happend, hl₂, -, -, hkeeps⟩ := hl.appendPage_spec hgrown
          rw [List.length_cons] at hfuel
          have hfuel' : [h₂.lastEntry].length + 2 * pages'.length < fuel := by
            rw [List.length_singleton]
            omega
          obtain ⟨r, h', ns', hfind, hl', hkeeps', hfound⟩ := ih hl₂ hfuel'
          refine ⟨r, h', ns', ?_, hl', hkeeps.trans hkeeps', hfound⟩
          simp only [happend, Option.bind_some]
          exact hfind
      · -- a block to pass
        obtain ⟨rest, rfl⟩ := hl.post_eq_cons hzero
        have hb := hl.end_le (a := h.next curr) (by simp)
        have hin : ¬ ((h.mem curr).next = 0 ∨ h.currHeapEnd ≤ (h.mem curr).next) := by
          rintro (h0 | hle)
          · exact hzero h0
          · unfold Heap.next at hb
            omega
        rw [if_neg hin]
        have hl' : Listed h ((pre ++ [curr]) ++ h.next curr :: rest) := by simpa using hl
        have hfuel' : rest.length + 2 * pages.length < fuel := by
          rw [List.length_cons] at hfuel
          omega
        obtain ⟨r, h', ns', hfind, hrest⟩ := ih hl' hfuel'
        rw [List.append_assoc, List.singleton_append] at hrest
        exact ⟨r, h', ns', hfind, hrest⟩
    · -- the block
      rw [if_neg hsearch]
      simp only [Bool.or_eq_true, Bool.not_eq_true', decide_eq_true_eq, not_or, Bool.not_eq_false, Nat.not_lt] at hsearch
      obtain ⟨⟨hfree, hnext⟩, hsize⟩ := hsearch
      obtain ⟨rest, rfl⟩ := hl.post_eq_cons hnext
      obtain ⟨hblock, hgap, -⟩ := hl.blockSize_eq
      refine ⟨some curr, h, _, rfl, hl, KeepsTaken.refl _ _, ?_⟩
      rintro c hc
      cases hc
      exact ⟨pre, h.next curr, rest, rfl, hfree, by omega⟩

theorem keepsTaken_of {ns' : List Nat}
    (hsame : ∀ x ∈ ns, h.free x = false → h.next x ≠ 0 → x ∈ ns' ∧ h'.next x = h.next x ∧ h'.free x = h.free x) :
    KeepsTaken h h' ns ns' := by
  intro a size ht
  obtain ⟨hmem, hnext, hfree⟩ := hsame a ht.mem ht.taken ht.next
  exact ⟨hmem, hfree.trans ht.taken, by rw [hnext]; exact ht.next, by rw [hnext]; exact ht.size⟩

/-- The block behind `c` taken as it is. -/
private theorem take_whole (hl : Listed h (pre ++ c :: d :: post)) (hfree : h.free c = true)
    (hsize : c + 12 + wantedSize ≤ d) (hend : h'.currHeapEnd = h.currHeapEnd) (hlast : h'.lastEntry = h.lastEntry)
    (hc : h'.mem c = { h.mem c with isFree := false })
    (hmem : ∀ x, x + 12 ≤ c ∨ c + 12 ≤ x → h'.mem x = h.mem x) :
    Listed h' (pre ++ c :: d :: post) ∧ KeepsTaken h h' (pre ++ c :: d :: post) (pre ++ c :: d :: post) ∧
      Taken h' (pre ++ c :: d :: post) c wantedSize := by
  have hother : ∀ x ∈ pre ++ c :: d :: post, x = c ∨ h'.mem x = h.mem x := by
    intro x hx
    rcases List.mem_append.1 hx with hx | hx
    · have := hl.apart_of_front hx
      unfold Apart at this
      exact .inr (hmem x (by omega))
    · rcases List.mem_cons.1 hx with hx | hx
      · exact .inl hx
      · have := hl.apart_of_post hx
        unfold Apart at this
        exact .inr (hmem x (by omega))
  have hlinks : ∀ x ∈ pre ++ c :: d :: post, h'.next x = h.next x ∧ h'.prev x = h.prev x := by
    intro x hx
    unfold Heap.next Heap.prev
    rcases hother x hx with rfl | hx
    · rw [hc]
      exact ⟨rfl, rfl⟩
    · rw [hx]
      exact ⟨rfl, rfl⟩
  refine ⟨hl.congr_links hlinks hend hlast, keepsTaken_of fun x hx hxfree _ => ⟨hx, (hlinks x hx).1, ?_⟩, ?_⟩
  · unfold Heap.free
    rcases hother x hx with rfl | hx
    · rw [hfree] at hxfree
      cases hxfree
    · rw [hx]
  · have hnextc : h'.next c = d := (hlinks c (by simp)).1.trans hl.seam.next
    refine ⟨by simp, ?_, ?_, ?_⟩
    · unfold Heap.free
      rw [hc]
    · rw [hnextc]
      exact hl.ne_zero (by simp)
    · rw [hnextc]
      exact hsize

/-- The block behind `c` taken up to a new free block at `s`. -/
private theorem take_split {s : Nat} (hl : Listed h (pre ++ c :: d :: post)) (hfree : h.free c = true)
    (hs : s = c + wantedSize + 12) (hwanted : 4 ≤ wantedSize) (hsize : s + 16 ≤ d)
    (hend : h'.currHeapEnd = h.currHeapEnd) (hlast : h'.lastEntry = h.lastEntry)
    (hc : h'.mem c = { h.mem c with isFree := false, next := s }) (hms : h'.mem s = ⟨true, d, c⟩)
    (hd : h'.mem d = { h.mem d with prev := s }) (hmem : ∀ x, x + 12 ≤ c ∨ d + 12 ≤ x → h'.mem x = h.mem x) :
    Listed h' (pre ++ c :: s :: d :: post) ∧ KeepsTaken h h' (pre ++ c :: d :: post) (pre ++ c :: s :: d :: post) ∧
      Taken h' (pre ++ c :: s :: d :: post) c wantedSize := by
  have hl' : Listed h ((pre ++ [c]) ++ d :: post) := by simpa using hl
  have hpre : ∀ x ∈ pre, h'.mem x = h.mem x := by
    intro x hx
    have hxc := hl.apart_of_front hx
    unfold Apart at hxc
    exact hmem x (by omega)
  have hpost : ∀ x ∈ post, h'.mem x = h.mem x := by
    intro x hx
    have hdx := hl'.apart_of_post hx
    unfold Apart at hdx
    exact hmem x (by omega)
  have hnextd : h'.next d = h.next d := by
    unfold Heap.next
    rw [hd]
  have hback : (d :: post).IsChain (Seam h'.next h'.prev Apart) := by
    refine Seam.congr_back (List.isChain_split.1 hl'.linked).2 ?_ ?_
    · intro x hx
      rcases List.mem_cons.1 hx with rfl | hx
      · exact hnextd
      · unfold Heap.next
        rw [hpost x hx]
    · intro x hx
      unfold Heap.prev
      rw [hpost x hx]
  have hlastmem : h.lastEntry ∈ d :: post := by
    have hlast' := hl.last
    rw [List.getLast?_append, List.getLast?_cons_cons] at hlast'
    exact List.mem_of_getLast? (by simpa using hlast')
  refine ⟨?_, keepsTaken_of ?_, ?_⟩
  · refine hl.splice ?_ ?_ ?_ ?_ ?_ ?_ ?_ ?_
    · intro x hx
      unfold Heap.next
      rw [hpre x hx]
    · intro x hx
      unfold Heap.prev
      rcases List.mem_append.1 hx with hx | hx
      · rw [hpre x hx]
      · rw [List.mem_singleton.1 hx, hc]
    · rw [List.isChain_cons_cons, List.isChain_cons_cons]
      refine ⟨⟨?_, ?_, ?_⟩, ⟨?_, ?_, hsize⟩, hback⟩
      · unfold Heap.next
        rw [hc]
      · unfold Heap.prev
        rw [hms]
      · unfold Apart
        omega
      · unfold Heap.next
        rw [hms]
      · unfold Heap.prev
        rw [hd]
    · rw [hlast]
      have := hl.last
      rw [List.getLast?_append, List.getLast?_cons_cons] at this
      rw [List.getLast?_cons_cons, List.getLast?_cons_cons]
      simpa using this
    · rw [hlast]
      rcases List.mem_cons.1 hlastmem with heq | hmem'
      · rw [heq, hnextd, ← heq]
        exact hl.lastNext
      · unfold Heap.next
        rw [hpost _ hmem']
        exact hl.lastNext
    · rw [hlast, hend]
      exact hl.inside
    · rw [hend]
      exact hl.pageEnd
    · rw [hend]
      exact hl.top
  · intro x hx hxfree _
    have hxc : x ≠ c := by
      rintro rfl
      rw [hfree] at hxfree
      cases hxfree
    have hcases : x ∈ pre ∨ x = d ∨ x ∈ post := by simpa [hxc] using hx
    refine ⟨by rcases hcases with h1 | h1 | h1 <;> simp [h1], ?_, ?_⟩
    · rcases hcases with h1 | rfl | h1
      · unfold Heap.next
        rw [hpre x h1]
      · exact hnextd
      · unfold Heap.next
        rw [hpost x h1]
    · unfold Heap.free
      rcases hcases with h1 | rfl | h1
      · rw [hpre x h1]
      · rw [hd]
      · rw [hpost x h1]
  · have hnextc : h'.next c = s := by
      unfold Heap.next
      rw [hc]
    refine ⟨by simp, ?_, ?_, ?_⟩
    · unfold Heap.free
      rw [hc]
    · rw [hnextc]
      omega
    · rw [hnextc]
      omega

private theorem takeBlock_split {s : Nat} (hc : Inside h.currHeapEnd c) (hd : Inside h.currHeapEnd d)
    (htop : h.currHeapEnd ≤ 0xFFFFF000) (hnext : (h.mem c).next = d) (hs : c + wantedSize + 12 = s)
    (hsd : s + 16 ≤ d) (hlarge : wantedSize + sizeofEntry + MIN_BLOCK_SIZE ≤ blockSize c (h.mem c)) :
    ∃ h', h.takeBlock c wantedSize = some (c + 12, h') ∧ h'.currHeapEnd = h.currHeapEnd ∧
      h'.lastEntry = h.lastEntry ∧ h'.mem c = { h.mem c with isFree := false, next := s } ∧
      h'.mem s = ⟨true, d, c⟩ ∧ h'.mem d = { h.mem d with prev := s } ∧
      ∀ x, x + 12 ≤ c ∨ d + 12 ≤ x → h'.mem x = h.mem x := by
  have hload : h.load c = some (h.mem c) := load_eq hc
  have hcs := hc.1
  have hdend : d + 12 ≤ h.currHeapEnd := hd.2
  have hsin : Inside h.currHeapEnd s := ⟨by omega, by unfold sizeofEntry; omega⟩
  have hmod : (c + wantedSize + 12) % 2 ^ 32 = s := by
    rw [hs]
    exact Nat.mod_eq_of_lt (by omega)
  have heq : h.takeBlock c wantedSize = some (c + 12, (((((h.putNext c s).putNext s d).putPrev s c).putFree s
      true).putPrev d s).putFree c false) := by
    unfold takeBlock
    rw [hload, Option.bind_eq_bind, Option.bind_some, if_pos hlarge, hnext]
    simp only [sizeofEntry, hmod, setNext, setPrev, setFree, putNext_currHeapEnd, putPrev_currHeapEnd,
      putFree_currHeapEnd, hc, hsin, hd, if_true, Option.bind_eq_bind, Option.bind_some]
  refine ⟨_, heq, rfl, rfl, ?_, ?_, ?_, ?_⟩
  · rw [putFree_mem_self, putPrev_mem _ (by omega), putFree_mem _ (by omega), putPrev_mem _ (by omega),
      putNext_mem _ (by omega), putNext_mem_self (by omega)]
  · rw [putFree_mem _ (by omega), putPrev_mem _ (by omega), putFree_mem_self, putPrev_mem_self (by omega),
      putNext_mem_self (by omega)]
  · rw [putFree_mem _ (by omega), putPrev_mem_self (by omega), putFree_mem _ (by omega), putPrev_mem _ (by omega),
      putNext_mem _ (by omega), putNext_mem _ (by omega)]
  · intro x hx
    rw [putFree_mem _ (by omega), putPrev_mem _ (by omega), putFree_mem _ (by omega), putPrev_mem _ (by omega),
      putNext_mem _ (by omega), putNext_mem _ (by omega)]

private theorem takeBlock_spec (hl : Listed h (pre ++ c :: d :: post)) (hfree : h.free c = true)
    (hsize : c + 12 + wantedSize ≤ d) (hwanted : 4 ≤ wantedSize) :
    ∃ h' ns', h.takeBlock c wantedSize = some (c + 12, h') ∧ Listed h' ns' ∧
      KeepsTaken h h' (pre ++ c :: d :: post) ns' ∧ Taken h' ns' c wantedSize := by
  have hc : Inside h.currHeapEnd c := hl.mapped (by simp)
  have hd : Inside h.currHeapEnd d := hl.mapped (by simp)
  obtain ⟨hblock, hgap, hdend⟩ := hl.blockSize_eq
  have htop := hl.end_facts.2.1
  have hnext : (h.mem c).next = d := hl.seam.next
  by_cases hlarge : wantedSize + sizeofEntry + MIN_BLOCK_SIZE ≤ blockSize c (h.mem c)
  · have hroom : c + wantedSize + 12 + 16 ≤ d := by
      rw [hblock] at hlarge
      unfold sizeofEntry MIN_BLOCK_SIZE at hlarge
      omega
    obtain ⟨h', heq, hend, hlast, hmemc, hmems, hmemd, hmem⟩ := takeBlock_split hc hd htop hnext rfl hroom hlarge
    obtain ⟨hl', hkeeps, htaken⟩ := take_split hl hfree (by omega) hwanted hroom hend hlast hmemc hmems hmemd hmem
    exact ⟨h', _, heq, hl', hkeeps, htaken⟩
  · have heq : h.takeBlock c wantedSize = some (c + 12, h.putFree c false) := by
      unfold takeBlock
      rw [load_eq hc, Option.bind_eq_bind, Option.bind_some, if_neg hlarge, Option.bind_eq_bind, Option.bind_some,
        setFree_eq hc]
      rfl
    obtain ⟨hl', hkeeps, htaken⟩ := take_whole hl hfree hsize (putFree_currHeapEnd _) (putFree_lastEntry _)
      (putFree_mem_self _) fun x hx => putFree_mem _ hx
    exact ⟨_, _, heq, hl', hkeeps, htaken⟩

/-! ### `kmalloc` -/

private theorem fuel_enough (hl : Listed h ns) (pages : List Page) :
    ns.length + 2 * pages.length < h.searchFuel pages := by
  have hlength := length_le_of_pairwise hl.pairwise fun x hx => hl.mapped hx
  unfold searchFuel PAGE_SIZE
  calc ns.length + 2 * pages.length < h.currHeapEnd - heapStart + 4096 * (pages.length + 1) := by omega
    _ ≤ (pages.length + 1) * (h.currHeapEnd - heapStart + 4096 * (pages.length + 1)) :=
      Nat.le_mul_of_pos_left _ (by omega)

theorem align_facts (size : Nat) (hpos : size ≠ 0) : size ≤ align size 4 ∧ 4 ≤ align size 4 := by
  unfold align
  omega

/-- `kmalloc` keeps the list and what was taken, and a block that it returns was free. -/
theorem kmalloc_spec (hl : Listed h ns) (size : Nat) (pages : List Page) :
    ∃ r h' ns', h.kmalloc size pages = some (r, h') ∧ Listed h' ns' ∧ KeepsTaken h h' ns ns' ∧
      (r ≠ 0 → size ≠ 0 ∧ ∃ c, r = c + 12 ∧ Taken h' ns' c (align size 4) ∧ ∀ n, ¬ Taken h ns c n) := by
  by_cases hbad : size = 0 ∨ KERNEL_HEAP_END - heapStart < size
  · refine ⟨0, h, ns, ?_, hl, KeepsTaken.refl h ns, fun hne => absurd rfl hne⟩
    unfold kmalloc
    rw [if_pos hbad]
  · obtain ⟨rest, rfl⟩ := List.head?_eq_some_iff.1 hl.head
    have hfuel := hl.fuel_enough pages
    rw [List.length_cons] at hfuel
    have hfuel' : rest.length + 2 * pages.length < h.searchFuel pages := by omega
    obtain ⟨r, h₁, ns₁, hfind, hl₁, hkeeps₁, hfound⟩ := @findLoop_spec h [] rest heapStart (align size 4) pages _ hl hfuel'
    simp only [kmalloc, if_neg hbad, hfind, Option.bind_eq_bind, Option.bind_some]
    cases r with
    | none => exact ⟨0, h₁, ns₁, rfl, hl₁, hkeeps₁, fun hne => absurd rfl hne⟩
    | some c =>
      have hpos : size ≠ 0 := fun h0 => hbad (.inl h0)
      obtain ⟨-, hfour⟩ := align_facts size hpos
      obtain ⟨pre, d, post, rfl, hfree, hsize⟩ := hfound c rfl
      obtain ⟨h₂, ns₂, htake, hl₂, hkeeps₂, htaken⟩ := hl₁.takeBlock_spec hfree hsize hfour
      refine ⟨c + 12, h₂, ns₂, htake, hl₂, hkeeps₁.trans hkeeps₂, fun _ => ⟨hpos, c, rfl, htaken, ?_⟩⟩
      intro n ht
      have := (hkeeps₁ c n ht).taken
      rw [hfree] at this
      cases this

end Listed

/-! ### Searches without pages -/

variable {h₁ h₂ : Heap} {a n c' w w' fuel size : Nat} {free : Bool}

private theorem setFree_end (hset : h₁.setFree a free = some h₂) : h₂.currHeapEnd = h₁.currHeapEnd := by
  obtain ⟨-, hset⟩ := Option.ite_none_right_eq_some.1 hset
  cases hset
  rfl

private theorem setNext_end (hset : h₁.setNext a n = some h₂) : h₂.currHeapEnd = h₁.currHeapEnd := by
  obtain ⟨-, hset⟩ := Option.ite_none_right_eq_some.1 hset
  cases hset
  rfl

private theorem setPrev_end (hset : h₁.setPrev a n = some h₂) : h₂.currHeapEnd = h₁.currHeapEnd := by
  obtain ⟨-, hset⟩ := Option.ite_none_right_eq_some.1 hset
  cases hset
  rfl

private theorem setLastEntry_end (hset : h₁.setLastEntry c = some h₂) : h₂.currHeapEnd = h₁.currHeapEnd := by
  unfold setLastEntry at hset
  simp only [Option.bind_eq_bind, Option.bind_eq_some_iff] at hset
  obtain ⟨g₁, hnext, g₂, hprev, hfree⟩ := hset
  have hend : g₁.currHeapEnd = h₁.currHeapEnd := (setNext_end hnext :)
  exact (setFree_end hfree).trans ((setPrev_end hprev).trans hend)

private theorem appendPage_end (happend : h₁.appendPage c = some (c', h₂)) : h₂.currHeapEnd = h₁.currHeapEnd := by
  unfold appendPage at happend
  simp only [Option.bind_eq_bind, Option.bind_eq_some_iff, Option.some.injEq, Prod.mk.injEq] at happend
  obtain ⟨e, -, prevFree, -, g₁, hfree, g₂, hnext, g₃, hlast, -, rfl⟩ := happend
  have hend : g₁.currHeapEnd = h₁.currHeapEnd := by
    cases prevFree with
    | true =>
      cases hfree
      rfl
    | false => exact setFree_end hfree
  exact (setLastEntry_end hlast).trans ((setNext_end hnext).trans hend)

/-- A search that fails also fails for more, and it leaves the heap as it was where it maps no page. -/
private theorem findLoop_none (hw : w ≤ w') (hloop : findLoop w fuel c h pages = some (none, h')) :
    findLoop w' fuel c h pages = some (none, h') ∧ h.currHeapEnd ≤ h'.currHeapEnd ∧
      (h'.currHeapEnd = h.currHeapEnd → h' = h ∧ h.allocateHeapPage pages = none) := by
  induction fuel generalizing c h pages with
  | zero => cases hloop
  | succ fuel ih =>
    unfold findLoop at hloop ⊢
    obtain ⟨e, hload, hloop⟩ := Option.bind_eq_some_iff.1 hloop
    rw [hload]
    simp only [Option.bind_eq_bind, Option.bind_some]
    split at hloop
    · rename_i hskip
      have hskip' : (!e.isFree || decide (e.next = 0) || decide (blockSize c e < w')) = true := by
        simp only [Bool.or_eq_true, decide_eq_true_eq] at hskip ⊢
        exact hskip.imp_right fun hsmall => by omega
      rw [if_pos hskip']
      split at hloop
      · rename_i hlast
        rw [if_pos hlast]
        cases halloc : h.allocateHeapPage pages with
        | none =>
          rw [halloc] at hloop
          cases hloop
          exact ⟨rfl, Nat.le_refl _, fun _ => ⟨rfl, rfl⟩⟩
        | some grown =>
          obtain ⟨h₁, pages'⟩ := grown
          rw [halloc] at hloop
          obtain ⟨⟨c', h₂⟩, happend, hloop⟩ := Option.bind_eq_some_iff.1 hloop
          obtain ⟨hmore, hle, -⟩ := ih hloop
          have hend := appendPage_end happend
          have hgrown := (allocateHeapPage_grown halloc).1.end_eq
          dsimp only at hmore ⊢
          rw [happend]
          exact ⟨hmore, by omega, fun hsame => by omega⟩
      · rename_i hlast
        rw [if_neg hlast]
        exact ih hloop
    · cases hloop

/-- Where there is no block for one byte and no page for it, there is none for any size. -/
theorem kmalloc_null (hnull : h.kmalloc 1 pages = some (0, h')) (hend : h'.currHeapEnd = h.currHeapEnd) :
    h' = h ∧ h.allocateHeapPage pages = none ∧ ∀ size, h.kmalloc size pages = some (0, h) := by
  unfold Heap.kmalloc at hnull
  rw [if_neg (by decide)] at hnull
  obtain ⟨⟨found, h₁⟩, hloop, hnull⟩ := Option.bind_eq_some_iff.1 hnull
  cases found with
  | some c =>
    -- a block that is found is not `NULL`
    obtain ⟨e, -, hnull⟩ := Option.bind_eq_some_iff.1 hnull
    obtain ⟨g, -, hnull⟩ := Option.bind_eq_some_iff.1 hnull
    obtain ⟨g', -, hnull⟩ := Option.bind_eq_some_iff.1 hnull
    simp at hnull
  | none =>
    cases hnull
    obtain ⟨-, -, hsame⟩ := findLoop_none (Nat.le_refl _) hloop
    obtain ⟨rfl, halloc⟩ := hsame hend
    refine ⟨rfl, halloc, fun size => ?_⟩
    unfold Heap.kmalloc
    split
    · rfl
    · rename_i hsize
      have halign : align 1 4 ≤ align size 4 := by
        unfold align
        omega
      have hlarger := (findLoop_none halign hloop).1
      dsimp only
      rw [hlarger]
      rfl

/-- A search that maps no page finds the same where pages could be mapped. -/
private theorem findLoop_of_nil {fuel' : Nat} (pages : List Page) (hfuel : fuel ≤ fuel')
    (hloop : findLoop w fuel c h [] = some (some a, h')) :
    findLoop w fuel' c h pages = some (some a, h') := by
  induction fuel generalizing c fuel' with
  | zero => cases hloop
  | succ fuel ih =>
    obtain ⟨fuel', rfl⟩ : ∃ n, fuel' = n + 1 := ⟨fuel' - 1, by omega⟩
    unfold findLoop at hloop ⊢
    obtain ⟨e, hload, hloop⟩ := Option.bind_eq_some_iff.1 hloop
    rw [hload]
    simp only [Option.bind_eq_bind, Option.bind_some]
    split at hloop
    · rename_i hskip
      rw [if_pos hskip]
      split at hloop
      · have halloc : h.allocateHeapPage [] = none := by
          unfold allocateHeapPage
          split <;> rfl
        rw [halloc] at hloop
        cases hloop
      · rename_i hlast
        rw [if_neg hlast]
        exact ih (by omega) hloop
    · rename_i hskip
      rw [if_neg hskip]
      exact hloop

theorem kmalloc_of_nil {r : Nat} (hr : r ≠ 0) (hmalloc : h.kmalloc size [] = some (r, h')) :
    h.kmalloc size pages = some (r, h') := by
  unfold Heap.kmalloc at hmalloc ⊢
  split at hmalloc
  · cases hmalloc
    exact absurd rfl hr
  · rename_i hsize
    rw [if_neg hsize]
    obtain ⟨⟨found, h₁⟩, hloop, hmalloc⟩ := Option.bind_eq_some_iff.1 hmalloc
    cases found with
    | none =>
      cases hmalloc
      exact absurd rfl hr
    | some a =>
      have hfuel : h.searchFuel [] ≤ h.searchFuel pages := by
        unfold searchFuel
        exact Nat.mul_le_mul (by simp) (Nat.add_le_add_left (Nat.mul_le_mul_left _ (by simp)) _)
      have hmore := findLoop_of_nil pages hfuel hloop
      dsimp only
      rw [hmore]
      exact hmalloc

end DBolOS.Kmalloc
