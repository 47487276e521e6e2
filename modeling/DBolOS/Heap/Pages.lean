import DBolOS.Heap.Search

/-!
# Allocating pages

`kmalloc_pages` puts a header at the old end of the heap and a free block behind the pages.  It discards the last entry
and, if that is free, the block before it, through two links backward that may be `NULL`, and it does not store the
`next` of the new last entry.  It keeps the list where neither matters (`Listed.kmallocPages_spec`).
-/

namespace DBolOS.Kmalloc

open Linked Heap ByteMem

variable {h h' h₁ : Heap} {ns front post : List Nat} {c r t : Nat} {pages : List Page}

/-! ### Pages in a row -/

/-- What `n` new pages leave, `pages` being those that could be mapped. -/
structure GrownBy (n : Nat) (pages : List Page) (h h₁ : Heap) : Prop where
  length : n ≤ pages.length
  end_eq : h₁.currHeapEnd = h.currHeapEnd + n * 4096
  last : h₁.lastEntry = h.lastEntry
  top : n ≠ 0 → h₁.currHeapEnd < 0xFFFFF000 + 4096
  bytes : ∀ a, a < h.currHeapEnd → h₁.bytes a = h.bytes a
  fresh : ∀ page, n ≠ 0 → pages[n - 1]? = some page →
    ∀ a, h₁.currHeapEnd ≤ a + 4096 → a < h₁.currHeapEnd → h₁.bytes a = page a

private theorem GrownBy.zero (pages : List Page) (h : Heap) : GrownBy 0 pages h h :=
  ⟨Nat.zero_le _, by omega, rfl, fun h0 => absurd rfl h0, fun _ _ => rfl, fun _ h0 => absurd rfl h0⟩

private theorem GrownBy.kept {n a : Nat} (hgrown : GrownBy n pages h h₁) (ha : a + 12 ≤ h.currHeapEnd) :
    h₁.mem a = h.mem a :=
  mem_congr fun y _ hy => hgrown.bytes y (by omega)

private theorem GrownBy.succ {n : Nat} {page : Page} {h₂ : Heap}
    (hfirst : h.allocateHeapPage (page :: pages) = some (h₁, pages)) (hrest : GrownBy n pages h₁ h₂) :
    GrownBy (n + 1) (page :: pages) h h₂ := by
  obtain ⟨hgrown, page', hpage, hfresh⟩ := allocateHeapPage_grown hfirst
  obtain ⟨rfl, -⟩ := List.cons.inj hpage
  have hend := hgrown.end_eq
  have hend₂ := hrest.end_eq
  have hbelow := hgrown.below
  have hlength := hrest.length
  refine ⟨by rw [List.length_cons]; omega, by omega, hrest.last.trans hgrown.last, ?_, ?_, ?_⟩
  · intro _
    rcases Nat.eq_zero_or_pos n with rfl | hpos
    · omega
    · exact hrest.top (by omega)
  · intro a ha
    rw [hrest.bytes a (by omega), hgrown.bytes a ha]
  · intro last _ hlast a hlo hhi
    rw [Nat.add_sub_cancel] at hlast
    rcases Nat.eq_zero_or_pos n with rfl | hpos
    · rw [hrest.bytes a (by omega), hfresh a (by omega) (by omega)]
      cases hlast
      rfl
    · refine hrest.fresh last (by omega) ?_ a hlo hhi
      obtain ⟨m, rfl⟩ : ∃ m, n = m + 1 := ⟨n - 1, by omega⟩
      exact hlast

private theorem deallocateLastHeapPage_iterate (n : Nat) (bytes : ByteMem) (e l : Nat) :
    deallocateLastHeapPage^[n] ⟨bytes, e, l⟩ = ⟨bytes, e - n * 4096, l⟩ := by
  induction n generalizing e with
  | zero => rw [Function.iterate_zero_apply, Nat.zero_mul, Nat.sub_zero]
  | succ n ih => rw [Function.iterate_succ_apply, deallocateLastHeapPage_mk, ih, Nat.sub_sub, Nat.succ_mul, Nat.add_comm]

/-- The loop maps all the pages, or gives back those it has mapped. -/
private theorem growLoop_cases (n i : Nat) (h : Heap) (pages : List Page) :
    (∃ h₁, growLoop n i h pages = (true, h₁) ∧ GrownBy n pages h h₁) ∨
      ∃ j h₁, growLoop n i h pages = (false, deallocateLastHeapPage^[i + j] h₁) ∧ GrownBy j pages h h₁ ∧
        ¬ (n ≤ pages.length ∧ h.currHeapEnd + n * 4096 ≤ 0xFFFFF000) := by
  induction n generalizing i h pages with
  | zero => exact .inl ⟨h, rfl, GrownBy.zero pages h⟩
  | succ n ih =>
    unfold growLoop
    cases halloc : h.allocateHeapPage pages with
    | none =>
      refine .inr ⟨0, h, rfl, GrownBy.zero pages h, ?_⟩
      rintro ⟨hlength, htop⟩
      unfold allocateHeapPage at halloc
      split at halloc
      · rename_i hfull
        unfold KERNEL_HEAP_END at hfull
        omega
      · cases pages with
        | nil => simp at hlength
        | cons page pages => cases halloc
    | some grown =>
      obtain ⟨h₁, pages'⟩ := grown
      obtain ⟨hgrown, page, rfl, -⟩ := allocateHeapPage_grown halloc
      have hend := hgrown.end_eq
      rcases ih (i + 1) h₁ pages' with ⟨h₂, hloop, hall⟩ | ⟨j, h₂, hloop, hsome, hnot⟩
      · exact .inl ⟨h₂, hloop, hall.succ halloc⟩
      · refine .inr ⟨j + 1, h₂, ?_, hsome.succ halloc, ?_⟩
        · rw [show i + (j + 1) = i + 1 + j by omega]
          exact hloop
        · rintro ⟨hlength, htop⟩
          rw [List.length_cons] at hlength
          exact hnot ⟨by omega, by omega⟩

/-- The list where the memory of its headers is kept. -/
theorem Listed.congr (hl : Listed h ns) (hmem : ∀ x ∈ ns, h'.mem x = h.mem x) (hend : h'.currHeapEnd = h.currHeapEnd)
    (hlast : h'.lastEntry = h.lastEntry) : Listed h' ns ∧ KeepsTaken h h' ns ns := by
  have hlinks : ∀ x ∈ ns, h'.next x = h.next x ∧ h'.prev x = h.prev x := by
    intro x hx
    unfold Heap.next Heap.prev
    rw [hmem x hx]
    exact ⟨rfl, rfl⟩
  refine ⟨hl.congr_links hlinks hend hlast, Listed.keepsTaken_of fun x hx _ _ => ⟨hx, (hlinks x hx).1, ?_⟩⟩
  unfold Heap.free
  rw [hmem x hx]

/-- The part of the heap that is mapped is as it was. -/
structure Unchanged (h h' : Heap) : Prop where
  end_eq : h'.currHeapEnd = h.currHeapEnd
  last : h'.lastEntry = h.lastEntry
  bytes : ∀ a, a < h.currHeapEnd → h'.bytes a = h.bytes a

private theorem Unchanged.refl (h : Heap) : Unchanged h h := ⟨rfl, rfl, fun _ _ => rfl⟩

private theorem Listed.unchanged (hl : Listed h ns) (hsame : Unchanged h h') :
    Listed h' ns ∧ KeepsTaken h h' ns ns := by
  refine hl.congr (fun x hx => mem_congr fun y _ hy => hsame.bytes y ?_) hsame.end_eq hsame.last
  have := hl.end_le hx
  omega

/-- Where not all pages can be mapped, the heap is as before. -/
private theorem growLoop_false {n : Nat} (hloop : growLoop n 0 h pages = (false, h₁)) :
    Unchanged h h₁ ∧ ¬ (n ≤ pages.length ∧ h.currHeapEnd + n * 4096 ≤ 0xFFFFF000) := by
  rcases growLoop_cases n 0 h pages with ⟨h₂, hloop', -⟩ | ⟨j, h₂, hloop', hsome, hnot⟩
  · rw [hloop] at hloop'
    cases hloop'
  · obtain ⟨bytes, e, l⟩ := h₂
    rw [hloop, Nat.zero_add, deallocateLastHeapPage_iterate] at hloop'
    obtain ⟨-, rfl⟩ := Prod.mk.inj hloop'
    have hend : e = h.currHeapEnd + j * 4096 := hsome.end_eq
    exact ⟨⟨by dsimp only; omega, hsome.last, hsome.bytes⟩, hnot⟩

private theorem Listed.growLoop_true {n : Nat} (hl : Listed h ns) (hn : n ≠ 0)
    (hloop : growLoop n 0 h pages = (true, h₁)) :
    GrownBy n pages h h₁ ∧ n ≤ pages.length ∧ h.currHeapEnd + n * 4096 ≤ 0xFFFFF000 := by
  rcases growLoop_cases n 0 h pages with ⟨h₂, hloop', hall⟩ | ⟨j, h₂, hloop', -⟩
  · rw [hloop] at hloop'
    obtain ⟨-, rfl⟩ := Prod.mk.inj hloop'
    refine ⟨hall, hall.length, ?_⟩
    have htop := hall.top hn
    have hend := hall.end_eq
    have hpage := hl.pageEnd
    omega
  · rw [hloop] at hloop'
    cases hloop'

/-! ### The pages in the list -/

/-- What `kmalloc_pages` needs of the end of the list: a block before the last entry, and another one before that if it
is free; and the `is_free` of the new header does not lie on the `prev` of the last entry, unless that has a zero there. -/
structure Placeable (h : Heap) : Prop where
  prev : h.prev h.lastEntry ≠ 0
  prevFree : h.free (h.prev h.lastEntry) = true → h.prev (h.prev h.lastEntry) ≠ 0
  clear : h.lastEntry + 8 ≤ h.currHeapEnd - 12 → h.currHeapEnd - 12 < h.lastEntry + 12 → h.bytes (h.currHeapEnd - 12) = 0

instance (h : Heap) : Decidable (Placeable h) :=
  decidable_of_iff ((h.prev h.lastEntry ≠ 0) ∧ (h.free (h.prev h.lastEntry) = true → h.prev (h.prev h.lastEntry) ≠ 0) ∧
    (h.lastEntry + 8 ≤ h.currHeapEnd - 12 → h.currHeapEnd - 12 < h.lastEntry + 12 → h.bytes (h.currHeapEnd - 12) = 0))
    ⟨fun ⟨hprev, hfree, hclear⟩ => ⟨hprev, hfree, hclear⟩, fun hp => ⟨hp.prev, hp.prevFree, hp.clear⟩⟩

/-- The block that the pages come behind; what is discarded behind it is free. -/
private theorem Listed.placeable_split (hl : Listed h ns) (hplace : Placeable h) :
    ∃ front c post, ns = front ++ c :: post ∧ (∀ x ∈ post, h.free x = true ∨ h.next x = 0) ∧
      h.prev h.lastEntry ∈ ns ∧ Apart (h.prev h.lastEntry) h.lastEntry ∧
      (h.free (h.prev h.lastEntry) = false ∧ c = h.prev h.lastEntry ∨
        h.free (h.prev h.lastEntry) = true ∧ c = h.prev (h.prev h.lastEntry) ∧ Apart c (h.prev h.lastEntry)) := by
  obtain ⟨pre, rfl⟩ := List.getLast?_eq_some_iff.1 hl.last
  generalize hlast : h.lastEntry = l at hl ⊢
  have hlastNext : h.next l = 0 := hlast ▸ hl.lastNext
  obtain ⟨hprev, hprevFree, -⟩ := hplace
  rw [hlast] at hprev hprevFree
  rcases List.eq_nil_or_concat pre with rfl | ⟨front, p, rfl⟩
  · exact absurd (@Listed.prev_eq h [] [] _ hl) hprev
  rw [List.concat_eq_append, List.append_assoc, List.singleton_append] at hl ⊢
  have hp : h.prev l = p := hl.seam.prev
  rw [hp] at hprevFree ⊢
  have hpl : Apart p l := hl.seam.gap
  cases hfree : h.free p with
  | false =>
    refine ⟨front, p, [l], rfl, ?_, by simp, hpl, .inl ⟨rfl, rfl⟩⟩
    intro x hx
    rw [List.mem_singleton.1 hx]
    exact .inr hlastNext
  | true =>
    rcases List.eq_nil_or_concat front with rfl | ⟨front, c, rfl⟩
    · exact absurd (@Listed.prev_eq h [] _ _ hl) (hprevFree hfree)
    rw [List.concat_eq_append, List.append_assoc, List.singleton_append] at hl ⊢
    have hseam := hl.seam
    refine ⟨front, c, [p, l], rfl, ?_, by simp, hpl, .inr ⟨rfl, hseam.prev.symm, hseam.gap⟩⟩
    intro x hx
    rcases List.mem_cons.1 hx with rfl | hx
    · exact .inl hfree
    · rw [List.mem_singleton.1 hx]
      exact .inr hlastNext

/-- The heap behind the stores of `placePages`: the pages behind `c`, from `r` to `t`, and the last entry at `l`. -/
def placed (h : Heap) (c r t l : Nat) : Heap :=
  (((({ ((((h.putFree r false).putNext c r).putPrev r c).putNext r t).putFree t true with lastEntry := l }.putFree l
    false).putPrev l t).putNext t l).putPrev t r)

private theorem placed_mem {l : Nat} (hcr : c + 12 ≤ r) (hrt : r + 12 ≤ t) (htl : t + 12 ≤ l) (hl : l < 2 ^ 32)
    (hzero : h.next l = 0) :
    (placed h c r t l).mem c = { h.mem c with next := r } ∧ (placed h c r t l).mem r = ⟨false, t, c⟩ ∧
      (placed h c r t l).mem t = ⟨true, l, r⟩ ∧ (placed h c r t l).mem l = ⟨false, 0, t⟩ ∧
      ∀ x, x + 12 ≤ c → (placed h c r t l).mem x = h.mem x := by
  unfold placed
  refine ⟨?_, ?_, ?_, ?_, ?_⟩
  · rw [putPrev_mem _ (by omega), putNext_mem _ (by omega), putPrev_mem _ (by omega), putFree_mem _ (by omega),
      withLast_mem, putFree_mem _ (by omega), putNext_mem _ (by omega), putPrev_mem _ (by omega),
      putNext_mem_self (by omega), putFree_mem _ (by omega)]
  · rw [putPrev_mem _ (by omega), putNext_mem _ (by omega), putPrev_mem _ (by omega), putFree_mem _ (by omega),
      withLast_mem, putFree_mem _ (by omega), putNext_mem_self (by omega), putPrev_mem_self (by omega),
      putNext_mem _ (by omega), putFree_mem_self]
  · rw [putPrev_mem_self (by omega), putNext_mem_self (by omega), putPrev_mem _ (by omega), putFree_mem _ (by omega),
      withLast_mem, putFree_mem_self]
  · rw [putPrev_mem _ (by omega), putNext_mem _ (by omega), putPrev_mem_self (by omega), putFree_mem_self, withLast_mem,
      putFree_mem _ (by omega), putNext_mem _ (by omega), putPrev_mem _ (by omega), putNext_mem _ (by omega),
      putFree_mem _ (by omega)]
    exact congrArg (fun n => HeapEntry.mk false n t) hzero
  · intro x hx
    rw [putPrev_mem _ (by omega), putNext_mem _ (by omega), putPrev_mem _ (by omega), putFree_mem _ (by omega),
      withLast_mem, putFree_mem _ (by omega), putNext_mem _ (by omega), putPrev_mem _ (by omega),
      putNext_mem _ (by omega), putFree_mem _ (by omega)]

/-- The link backward of the last entry is read although a header may have been put across it. -/
private theorem putFree_prev {l : Nat} (hlr : l ≤ r) (hclear : l + 8 ≤ r → r < l + 12 → h.bytes r = 0) :
    (h.putFree r false).prev l = h.prev l := by
  refine word_congr fun y hlo hhi => ?_
  rcases Nat.eq_or_lt_of_le hlr with heq | hlt
  · exact writeBytes_outside _ (by simp only [List.length_singleton]; omega)
  · by_cases hy : y = r
    · rw [hy, hclear (by omega) (by omega)]
      have hin : writeBytes h.bytes r [0] r = [0].getD (r - r) 0 := writeBytes_inside _ (Nat.le_refl r) (by simp)
      rwa [Nat.sub_self] at hin
    · exact writeBytes_outside _ (by simp only [List.length_singleton]; omega)

private theorem placePages_eq {k p l : Nat} (hr : r = h₁.currHeapEnd - (k + 1) * 4096 - 12) (hstart : heapStart ≤ c)
    (hend : r + 12 + (k + 1) * 4096 = h₁.currHeapEnd) (hlast : h₁.lastEntry = l) (hlr : l ≤ r) (hpl : p + 12 ≤ l)
    (hclear : l + 8 ≤ r → r < l + 12 → h₁.bytes r = 0) (hprev : h₁.prev l = p)
    (hc : h₁.free p = false ∧ c = p ∨ h₁.free p = true ∧ c = h₁.prev p ∧ c + 12 ≤ p) :
    h₁.placePages k = some (r + 12, placed h₁ c r (r + k * 4096 + 12) (h₁.currHeapEnd - 12)) := by
  have hin : ∀ x, c ≤ x → x + 12 ≤ h₁.currHeapEnd → Inside h₁.currHeapEnd x := fun x hx hx' => ⟨hstart.trans hx, hx'⟩
  have hcp : c ≤ p := by rcases hc with ⟨-, rfl⟩ | ⟨-, -, hcp⟩ <;> omega
  have hpin := hin p hcp (by omega)
  have hlin := hin l (by omega) (by omega)
  have hrin := hin r (by omega) (by omega)
  have hcin := hin c (Nat.le_refl c) (by omega)
  have htin := hin (r + k * 4096 + 12) (by omega) (by omega)
  have hein := hin (h₁.currHeapEnd - 12) (by omega) (by omega)
  have hprev₁ : ((h₁.putFree r false).mem l).prev = p := (putFree_prev hlr hclear).trans hprev
  have hmemp : (h₁.putFree r false).mem p = h₁.mem p := putFree_mem _ (by omega)
  have hload : (h₁.putFree r false).load l = some ((h₁.putFree r false).mem l) := load_eq hlin
  have hloadp : (h₁.putFree r false).load p = some (h₁.mem p) := by
    rw [← hmemp]
    exact load_eq hpin
  -- both branches link `r` behind `c`
  have hlink : (if (!(h₁.mem p).isFree) = true then
      ((h₁.putFree r false).setNext p r).bind fun h => (h.load h.lastEntry).bind fun e => h.setPrev r e.prev
      else ((h₁.putFree r false).setNext (h₁.mem p).prev r).bind fun h =>
        (h.load h.lastEntry).bind fun e => (h.load e.prev).bind fun e => h.setPrev r e.prev) =
      some (((h₁.putFree r false).putNext c r).putPrev r c) := by
    have hloadl : ((h₁.putFree r false).putNext c r).load ((h₁.putFree r false).putNext c r).lastEntry =
        some ((h₁.putFree r false).mem l) := by
      rw [putNext_lastEntry, putFree_lastEntry, hlast, load_eq (h := (h₁.putFree r false).putNext c r) hlin,
        putNext_mem _ (by omega)]
    have hnext : (h₁.putFree r false).setNext c r = some ((h₁.putFree r false).putNext c r) :=
      setNext_eq (h := h₁.putFree r false) hcin r
    rcases hc with ⟨hfree, rfl⟩ | ⟨hfree, hcprev, hcp'⟩
    · have htaken : (!(h₁.mem c).isFree) = true := by
        unfold Heap.free at hfree
        rw [hfree]
        rfl
      rw [if_pos htaken, hnext, Option.bind_some, hloadl, Option.bind_some, hprev₁]
      exact setPrev_eq (h := (h₁.putFree r false).putNext c r) hrin c
    · have htaken : ¬ (!(h₁.mem p).isFree) = true := by
        unfold Heap.free at hfree
        rw [hfree]
        exact Bool.false_ne_true
      have hloadp' : ((h₁.putFree r false).putNext c r).load p = some (h₁.mem p) := by
        rw [load_eq (h := (h₁.putFree r false).putNext c r) hpin, putNext_mem _ (by omega), hmemp]
      unfold Heap.prev at hcprev
      rw [if_neg htaken, ← hcprev, hnext, Option.bind_some, hloadl, Option.bind_some, hprev₁, hloadp', Option.bind_some,
        ← hcprev]
      exact setPrev_eq (h := (h₁.putFree r false).putNext c r) hrin c
  unfold placePages PAGE_SIZE sizeofEntry
  rw [← hr]
  simp only [setFree, if_pos hrin, Option.bind_eq_bind, Option.bind_some, putFree_lastEntry, hlast, hload, hprev₁, hloadp]
  rw [hlink]
  simp only [setNext, setPrev, putNext_currHeapEnd, putPrev_currHeapEnd, putFree_currHeapEnd, hrin, htin, hein,
    if_true, Option.bind_some]
  rfl

private theorem Listed.placePages_spec {k : Nat} (hl : Listed h ns) (hk : k ≠ 0) (hgrown : GrownBy (k + 1) pages h h₁)
    (hplace : Placeable h) (hzero : h₁.next (h₁.currHeapEnd - 12) = 0) :
    ∃ h' ns', h₁.placePages k = some (h.currHeapEnd, h') ∧ Listed h' ns' ∧ KeepsTaken h h' ns ns' ∧
      Taken h' ns' (h.currHeapEnd - 12) (k * 4096) ∧ ∀ n, ¬ Taken h ns (h.currHeapEnd - 12) n := by
  obtain ⟨hstart, -, hinside, hpage⟩ := hl.end_facts
  have hend := hgrown.end_eq
  have htop := hgrown.top (Nat.succ_ne_zero k)
  obtain ⟨front, c, post, rfl, hpost, hpmem, hpl, hchoice⟩ := hl.placeable_split hplace
  unfold Apart at hpl hchoice
  generalize hp : h.prev h.lastEntry = p at hpmem hpl hchoice
  have hpend := hl.end_le hpmem
  have hcstart := hl.start_le (a := c) (by simp)
  have hcp : c ≤ p := by rcases hchoice with ⟨-, rfl⟩ | ⟨-, -, hcp⟩ <;> omega
  generalize hr : h.currHeapEnd - 12 = r
  -- the stores
  have hbyte : h.lastEntry + 8 ≤ r → r < h.lastEntry + 12 → h₁.bytes r = 0 := by
    intro hlo hhi
    rw [hgrown.bytes r (by omega), ← hr]
    exact hplace.clear (by omega) (by omega)
  have hmemp : h₁.mem p = h.mem p := hgrown.kept hpend
  have hchoice₁ : h₁.free p = false ∧ c = p ∨ h₁.free p = true ∧ c = h₁.prev p ∧ c + 12 ≤ p := by
    unfold Heap.free Heap.prev at hchoice ⊢
    rw [hmemp]
    rcases hchoice with hchoice | ⟨hfree, hcprev, hcp'⟩
    · exact .inl hchoice
    · exact .inr ⟨hfree, hcprev, by omega⟩
  have hprev₁ : h₁.prev h.lastEntry = p := by
    unfold Heap.prev at hp ⊢
    rw [hgrown.kept hl.inside]
    exact hp
  have heq := placePages_eq (k := k) (by omega) hcstart (by omega) hgrown.last (by omega) (by omega) hbyte hprev₁ hchoice₁
  obtain ⟨hmemc, hmemr, hmemt, hmeml, hmemx⟩ := placed_mem (h := h₁) (c := c) (r := r) (t := r + k * 4096 + 12)
    (l := h₁.currHeapEnd - 12) (by omega) (by omega) (by omega) (by omega) hzero
  have hpend' : (placed h₁ c r (r + k * 4096 + 12) (h₁.currHeapEnd - 12)).currHeapEnd = h₁.currHeapEnd := rfl
  have hplast : (placed h₁ c r (r + k * 4096 + 12) (h₁.currHeapEnd - 12)).lastEntry = h₁.currHeapEnd - 12 := rfl
  generalize placed h₁ c r (r + k * 4096 + 12) (h₁.currHeapEnd - 12) = h' at *
  have hcend := hl.end_le (a := c) (by simp)
  rw [hgrown.kept hcend] at hmemc
  have hold : ∀ x ∈ front, h'.mem x = h.mem x := by
    intro x hx
    have hxc := hl.apart_of_front hx
    unfold Apart at hxc
    rw [hmemx x (by omega), hgrown.kept (hl.end_le (by simp [hx]))]
  -- the list
  have hlist : Listed h' (front ++ c :: [r, r + k * 4096 + 12, h₁.currHeapEnd - 12]) := by
    refine hl.splice ?_ ?_ ?_ (by simp [hplast]) ?_ (by omega) (by omega) (by omega)
    · intro x hx
      unfold Heap.next
      rw [hold x hx]
    · intro x hx
      unfold Heap.prev
      rcases List.mem_append.1 hx with hx | hx
      · rw [hold x hx]
      · rw [List.mem_singleton.1 hx, hmemc]
    · unfold Apart
      rw [List.isChain_cons_cons, List.isChain_cons_cons, List.isChain_pair]
      refine ⟨⟨?_, ?_, by omega⟩, ⟨?_, ?_, by omega⟩, ⟨?_, ?_, by omega⟩⟩
      · unfold Heap.next
        rw [hmemc]
      · unfold Heap.prev
        rw [hmemr]
      · unfold Heap.next
        rw [hmemr]
      · unfold Heap.prev
        rw [hmemt]
      · unfold Heap.next
        rw [hmemt]
      · unfold Heap.prev
        rw [hmeml]
    · unfold Heap.next
      rw [hplast, hmeml]
  refine ⟨h', _, ?_, hlist, ?_, ⟨by simp, ?_, ?_, ?_⟩, ?_⟩
  · rw [heq]
    congr 2
    omega
  · refine hl.keepsTaken ?_ hpost hold
    cases hfree : h.free c with
    | true => exact .inl rfl
    | false =>
      refine .inr (.inr ⟨?_, ?_⟩)
      · unfold Heap.free at hfree ⊢
        rw [hmemc]
        exact hfree
      · have hnextc : h.next c ≤ r := by
          by_cases hnext : h.next c = 0
          · omega
          · obtain ⟨rest, rfl⟩ := hl.post_eq_cons hnext
            have := hl.end_le (a := h.next c) (by simp)
            omega
        unfold Heap.next at hnextc ⊢
        rw [hmemc]
        exact hnextc
  · unfold Heap.free
    rw [hmemr]
  · unfold Heap.next
    rw [hmemr]
    dsimp only
    omega
  · unfold Heap.next
    rw [hmemr]
    dsimp only
    omega
  · -- a header there is the last entry
    intro n ht
    rcases hl.le_last ht.mem with heq | hlt
    · exact ht.next (heq ▸ hl.lastNext)
    · unfold Apart at hlt
      omega

/-! ### `kmalloc_pages` -/

/-- The pages asked for and one more can be mapped. -/
def Granted (h : Heap) (pageAmount : Nat) (pages : List Page) : Prop :=
  pageAmount ≠ 0 ∧ pageAmount + 1 ≤ pages.length ∧ h.currHeapEnd + (pageAmount + 1) * 4096 ≤ 0xFFFFF000

instance (h : Heap) (pageAmount : Nat) (pages : List Page) : Decidable (Granted h pageAmount pages) :=
  inferInstanceAs (Decidable (_ ∧ _ ∧ _))

/-- The last page is mapped with a zero where the new last entry has its `next`. -/
def LastZero (h : Heap) (pageAmount : Nat) (pages : List Page) : Prop :=
  ∀ page ∈ pages[pageAmount]?, word page (h.currHeapEnd + (pageAmount + 1) * 4096 - 8) = 0

instance (h : Heap) (pageAmount : Nat) (pages : List Page) : Decidable (LastZero h pageAmount pages) :=
  inferInstanceAs (Decidable (∀ page ∈ pages[pageAmount]?, _))

theorem Listed.kmallocPages_spec {k : Nat} (hl : Listed h ns)
    (hkeep : Granted h k pages → Placeable h ∧ LastZero h k pages) :
    ∃ r h' ns', h.kmallocPages k pages = some (r, h') ∧ Listed h' ns' ∧ KeepsTaken h h' ns ns' ∧
      (r = 0 → Unchanged h h') ∧ (r ≠ 0 → r = h.currHeapEnd ∧
        k ≠ 0 ∧ ∃ c, r = c + 12 ∧ Taken h' ns' c (k * 4096) ∧ ∀ n, ¬ Taken h ns c n) := by
  by_cases hbad : k = 0 ∨ (KERNEL_HEAP_END - heapStart) / PAGE_SIZE < k
  · refine ⟨0, h, ns, ?_, hl, KeepsTaken.refl h ns, fun _ => Unchanged.refl h, fun hne => absurd rfl hne⟩
    unfold kmallocPages
    rw [if_pos hbad]
  unfold kmallocPages
  rw [if_neg hbad]
  rcases hloop : growLoop (k + 1) 0 h pages with ⟨_ | _, h₁⟩
  · obtain ⟨hsame, -⟩ := growLoop_false hloop
    obtain ⟨hl₁, hkeeps⟩ := hl.unchanged hsame
    exact ⟨0, h₁, ns, rfl, hl₁, hkeeps, fun _ => hsame, fun hne => absurd rfl hne⟩
  · obtain ⟨hgrown, hlength, htop⟩ := hl.growLoop_true (Nat.succ_ne_zero k) hloop
    have hk : k ≠ 0 := fun h0 => hbad (.inl h0)
    obtain ⟨hplace, hlast⟩ := hkeep ⟨hk, hlength, htop⟩
    obtain ⟨hstart, -, -, -⟩ := hl.end_facts
    have hend := hgrown.end_eq
    have hzero : h₁.next (h₁.currHeapEnd - 12) = 0 := by
      obtain ⟨page, hpage⟩ : ∃ page, pages[k]? = some page := ⟨_, List.getElem?_eq_getElem (by omega)⟩
      rw [← hlast page hpage, ← hend]
      have hfresh := hgrown.fresh page (Nat.succ_ne_zero k) hpage
      unfold Heap.next mem
      rw [show h₁.currHeapEnd - 12 + 4 = h₁.currHeapEnd - 8 by omega]
      exact word_congr fun y hlo hhi => hfresh y (by omega) (by omega)
    obtain ⟨h', ns', hplaced, hl', hkeeps, htaken, hnew⟩ := hl.placePages_spec hk hgrown hplace hzero
    refine ⟨h.currHeapEnd, h', ns', hplaced, hl', hkeeps, fun hnull => ?_,
      fun _ => ⟨rfl, hk, h.currHeapEnd - 12, by omega, htaken, hnew⟩⟩
    omega

end DBolOS.Kmalloc
