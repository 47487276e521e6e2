import DBolOS.Lib.Links
import DBolOS.Heap.Alloc

/-!
# The list of the blocks

`Listed h ns`: the headers from `heap_start` to `last_entry` are those of `ns`, in the order of their addresses and
linked both ways.  Every rearrangement of the heap keeps the list up to one of its headers and joins a new tail behind
it (`Listed.splice`).
-/

namespace DBolOS.Kmalloc

open Linked ByteMem

/-- Two headers with a block of the smallest size between them.  From here on the sizes are written as numbers: a header
has 12 bytes, a page 4096. -/
def Apart (x y : Nat) : Prop := x + 16 ≤ y

instance : Trans Apart Apart Apart where
  trans hxy hyz := by
    unfold Apart at *
    omega

def Heap.next (h : Heap) (a : Nat) : Nat := (h.mem a).next

def Heap.prev (h : Heap) (a : Nat) : Nat := (h.mem a).prev

def Heap.free (h : Heap) (a : Nat) : Bool := (h.mem a).isFree

structure Listed (h : Heap) (ns : List Nat) : Prop where
  linked : ns.IsChain (Seam h.next h.prev Apart)
  head : ns.head? = some heapStart
  last : ns.getLast? = some h.lastEntry
  lastNext : h.next h.lastEntry = 0
  headPrev : h.prev heapStart = 0
  inside : h.lastEntry + 12 ≤ h.currHeapEnd
  pageEnd : h.currHeapEnd % 4096 = 0
  top : h.currHeapEnd ≤ 0xFFFFF000

/-- The block behind the header `a` is taken, and has at least `size` bytes. -/
structure Taken (h : Heap) (ns : List Nat) (a size : Nat) : Prop where
  mem : a ∈ ns
  taken : h.free a = false
  next : h.next a ≠ 0
  size : a + 12 + size ≤ h.next a

/-- What was taken stays so. -/
def KeepsTaken (h h' : Heap) (ns ns' : List Nat) : Prop := ∀ a size, Taken h ns a size → Taken h' ns' a size

theorem KeepsTaken.refl (h : Heap) (ns : List Nat) : KeepsTaken h h ns ns := fun _ _ ht => ht

theorem KeepsTaken.trans {h h' h'' : Heap} {ns ns' ns'' : List Nat} (hk : KeepsTaken h h' ns ns')
    (hk' : KeepsTaken h' h'' ns' ns'') : KeepsTaken h h'' ns ns'' :=
  fun a size ht => hk' a size (hk a size ht)

theorem Taken.mono {h : Heap} {ns : List Nat} {a size size' : Nat} (ht : Taken h ns a size) (hle : size' ≤ size) :
    Taken h ns a size' :=
  ⟨ht.mem, ht.taken, ht.next, by have := ht.size; omega⟩

variable {h h' : Heap} {ns front post tail : List Nat} {a b c d : Nat}

namespace Listed

/-! ### Where the headers are -/

theorem pairwise (hl : Listed h ns) : ns.Pairwise Apart := Seam.pairwise hl.linked

theorem le_last (hl : Listed h ns) (ha : a ∈ ns) : a = h.lastEntry ∨ Apart a h.lastEntry := by
  obtain ⟨l, rfl⟩ := List.getLast?_eq_some_iff.1 hl.last
  rw [List.mem_append, List.mem_singleton] at ha
  rcases ha with ha | ha
  · exact .inr ((List.pairwise_append.1 hl.pairwise).2.2 a ha _ (List.mem_singleton_self _))
  · exact .inl ha

theorem start_le (hl : Listed h ns) (ha : a ∈ ns) : heapStart ≤ a := by
  obtain ⟨l, rfl⟩ := List.head?_eq_some_iff.1 hl.head
  rcases List.mem_cons.1 ha with rfl | ha
  · exact Nat.le_refl _
  · have := List.rel_of_pairwise_cons hl.pairwise ha
    unfold Apart at this
    omega

theorem mapped (hl : Listed h ns) (ha : a ∈ ns) : Heap.Inside h.currHeapEnd a := by
  refine ⟨hl.start_le ha, ?_⟩
  unfold sizeofEntry
  have := hl.inside
  rcases hl.le_last ha with rfl | hlt
  · exact this
  · unfold Apart at hlt
    omega

theorem end_le (hl : Listed h ns) (ha : a ∈ ns) : a + 12 ≤ h.currHeapEnd := (hl.mapped ha).2

theorem ne_zero (hl : Listed h ns) (ha : a ∈ ns) : a ≠ 0 := by
  have := hl.start_le ha
  unfold heapStart KERNEL_CODE_END at this
  omega

private theorem lastEntry_mem (hl : Listed h ns) : h.lastEntry ∈ ns := List.mem_of_getLast? hl.last

/-- A header with one behind it. -/
theorem seam (hl : Listed h (front ++ a :: b :: post)) : Seam h.next h.prev Apart a b := Seam.next_eq hl.linked

theorem next_eq_zero_iff (hl : Listed h ns) (ha : a ∈ ns) : h.next a = 0 ↔ a = h.lastEntry := by
  constructor
  · intro hzero
    obtain ⟨front, post, rfl⟩ := List.append_of_mem ha
    cases post with
    | nil =>
      have := hl.last
      simp at this
      exact this
    | cons b post =>
      have hb := hl.ne_zero (a := b) (by simp)
      exact absurd (hl.seam.next.symm.trans hzero) hb
  · rintro rfl
    exact hl.lastNext

/-- The header before another one, `0` before the first. -/
theorem prev_eq (hl : Listed h (front ++ a :: post)) : h.prev a = front.getLast?.getD 0 := by
  rcases List.eq_nil_or_concat front with rfl | ⟨front, x, rfl⟩
  · have hhead : a = heapStart := by simpa using hl.head
    rw [hhead]
    exact hl.headPrev
  · have hl' : Listed h (front ++ x :: a :: post) := by simpa using hl
    rw [hl'.seam.prev]
    simp

theorem apart_of_front (hl : Listed h (front ++ c :: post)) (ha : a ∈ front) : Apart a c :=
  (List.pairwise_append.1 hl.pairwise).2.2 a ha c List.mem_cons_self

theorem apart_of_post (hl : Listed h (front ++ c :: post)) (ha : a ∈ post) : Apart c a :=
  List.rel_of_pairwise_cons (List.pairwise_append.1 hl.pairwise).2.1 ha

/-- A new tail behind a header. -/
theorem splice (hl : Listed h (front ++ c :: post)) (hnext : ∀ x ∈ front, h'.next x = h.next x)
    (hprev : ∀ x ∈ front ++ [c], h'.prev x = h.prev x) (htail : (c :: tail).IsChain (Seam h'.next h'.prev Apart))
    (hlast : (c :: tail).getLast? = some h'.lastEntry) (hlastNext : h'.next h'.lastEntry = 0)
    (hinside : h'.lastEntry + 12 ≤ h'.currHeapEnd) (hpage : h'.currHeapEnd % 4096 = 0)
    (htop : h'.currHeapEnd ≤ 0xFFFFF000) : Listed h' (front ++ c :: tail) := by
  have hfront := (List.isChain_split.1 hl.linked).1
  refine ⟨List.isChain_split.2 ⟨Seam.congr_front hfront hnext hprev, htail⟩, ?_, ?_, hlastNext, ?_, hinside, hpage, htop⟩
  · have := hl.head
    rw [List.head?_append] at this ⊢
    exact this
  · rw [List.getLast?_append, hlast]
    rfl
  · have hmem : heapStart ∈ front ++ [c] := by
      have := hl.head
      rw [List.append_cons, List.head?_append_of_ne_nil _ (by simp)] at this
      exact List.mem_of_head? this
    rw [hprev _ hmem]
    exact hl.headPrev

end Listed

/-! ### Stores -/

namespace Heap

theorem word_congr {m m' : ByteMem} (hm : ∀ x, a ≤ x → x < a + 4 → m x = m' x) : word m a = word m' a := by
  unfold word
  rw [hm a (by omega) (by omega), hm (a + 1) (by omega) (by omega), hm (a + 2) (by omega) (by omega),
    hm (a + 3) (by omega) (by omega)]

private theorem word_write_outside (m : ByteMem) {bs : List UInt8} (ha : a + 4 ≤ b ∨ b + bs.length ≤ a) :
    word (writeBytes m b bs) a = word m a :=
  word_congr fun _ _ _ => writeBytes_outside m (by omega)

private theorem word_write_self (m : ByteMem) {n : Nat} (hn : n < 2 ^ 32) :
    word (writeBytes m a (le32 (UInt32.ofNat n))) a = n := by
  have hbyte : ∀ i < 4, writeBytes m a (le32 (UInt32.ofNat n)) (a + i) = (le32 (UInt32.ofNat n)).getD i 0 := by
    intro i hi
    rw [writeBytes_inside m (by omega) (by rw [length_le32]; omega), Nat.add_sub_cancel_left]
  have h0 : writeBytes m a (le32 (UInt32.ofNat n)) a = (le32 (UInt32.ofNat n)).getD 0 0 := hbyte 0 (by omega)
  unfold word
  rw [h0, hbyte 1 (by omega), hbyte 2 (by omega), hbyte 3 (by omega)]
  calc (ofLe32 _ _ _ _).toNat = (UInt32.ofNat n).toNat := congrArg UInt32.toNat (ofLe32_le32 (UInt32.ofNat n))
    _ = n := by rw [UInt32.toNat_ofNat', Nat.mod_eq_of_lt hn]

/-- A header is the same where its bytes are. -/
theorem mem_congr (hbytes : ∀ y, a ≤ y → y < a + 12 → h'.bytes y = h.bytes y) : h'.mem a = h.mem a := by
  unfold mem
  rw [hbytes a (by omega) (by omega), word_congr fun y hlo hhi => hbytes y (by omega) (by omega),
    word_congr fun y hlo hhi => hbytes y (by omega) (by omega)]

theorem putFree_mem_self (f : Bool) : (h.putFree a f).mem a = { h.mem a with isFree := f } := by
  have hfree : (h.putFree a f).bytes a = if f then 1 else 0 := by
    have hin : writeBytes h.bytes a [if f then 1 else 0] a = [if f then 1 else 0].getD (a - a) 0 :=
      writeBytes_inside _ (Nat.le_refl a) (by simp)
    rw [Nat.sub_self] at hin
    exact hin
  have hnext : word (h.putFree a f).bytes (a + 4) = word h.bytes (a + 4) := word_write_outside _ (.inr (by simp))
  have hprev : word (h.putFree a f).bytes (a + 8) = word h.bytes (a + 8) := word_write_outside _ (.inr (by simp))
  unfold mem
  rw [hfree, hnext, hprev]
  cases f <;> rfl

theorem putNext_mem_self {n : Nat} (hn : n < 2 ^ 32) : (h.putNext a n).mem a = { h.mem a with next := n } := by
  have hfree : (h.putNext a n).bytes a = h.bytes a := writeBytes_outside _ (.inl (by omega))
  have hnext : word (h.putNext a n).bytes (a + 4) = n := word_write_self _ hn
  have hprev : word (h.putNext a n).bytes (a + 8) = word h.bytes (a + 8) := word_write_outside _ (.inr (by simp))
  unfold mem
  rw [hfree, hnext, hprev]

theorem putPrev_mem_self {n : Nat} (hn : n < 2 ^ 32) : (h.putPrev a n).mem a = { h.mem a with prev := n } := by
  have hfree : (h.putPrev a n).bytes a = h.bytes a := writeBytes_outside _ (.inl (by omega))
  have hnext : word (h.putPrev a n).bytes (a + 4) = word h.bytes (a + 4) := word_write_outside _ (.inl (by omega))
  have hprev : word (h.putPrev a n).bytes (a + 8) = n := word_write_self _ hn
  unfold mem
  rw [hfree, hnext, hprev]

/-! A store into one header leaves those that do not meet it. -/

theorem putFree_mem (f : Bool) (hx : b + 12 ≤ a ∨ a + 12 ≤ b) : (h.putFree a f).mem b = h.mem b :=
  mem_congr fun y hlo hhi => writeBytes_outside _ (by simp only [List.length_singleton]; omega)

theorem putNext_mem (n : Nat) (hx : b + 12 ≤ a ∨ a + 12 ≤ b) : (h.putNext a n).mem b = h.mem b :=
  mem_congr fun y hlo hhi => writeBytes_outside _ (by simp only [length_le32]; omega)

theorem putPrev_mem (n : Nat) (hx : b + 12 ≤ a ∨ a + 12 ≤ b) : (h.putPrev a n).mem b = h.mem b :=
  mem_congr fun y hlo hhi => writeBytes_outside _ (by simp only [length_le32]; omega)

@[simp] theorem putFree_currHeapEnd (f : Bool) : (h.putFree a f).currHeapEnd = h.currHeapEnd := rfl

@[simp] theorem putNext_currHeapEnd (n : Nat) : (h.putNext a n).currHeapEnd = h.currHeapEnd := rfl

@[simp] theorem putPrev_currHeapEnd (n : Nat) : (h.putPrev a n).currHeapEnd = h.currHeapEnd := rfl

@[simp] theorem putFree_lastEntry (f : Bool) : (h.putFree a f).lastEntry = h.lastEntry := rfl

@[simp] theorem putNext_lastEntry (n : Nat) : (h.putNext a n).lastEntry = h.lastEntry := rfl

@[simp] theorem putPrev_lastEntry (n : Nat) : (h.putPrev a n).lastEntry = h.lastEntry := rfl

theorem load_eq (hm : Inside h.currHeapEnd a) : h.load a = some (h.mem a) := if_pos hm

theorem setFree_eq (hm : Inside h.currHeapEnd a) (f : Bool) : h.setFree a f = some (h.putFree a f) := if_pos hm

theorem setNext_eq (hm : Inside h.currHeapEnd a) (n : Nat) : h.setNext a n = some (h.putNext a n) := if_pos hm

theorem setPrev_eq (hm : Inside h.currHeapEnd a) (n : Nat) : h.setPrev a n = some (h.putPrev a n) := if_pos hm

/-- A new value of `last_entry`. -/
theorem withLast_mem (l : Nat) : { h with lastEntry := l }.mem a = h.mem a := rfl

/-- The new last entry. -/
theorem setLastEntry_eq {curr : Nat} (hend : heapStart + 12 ≤ h.currHeapEnd) (hcurr : curr < 2 ^ 32) :
    ∃ h', h.setLastEntry curr = some h' ∧ h'.currHeapEnd = h.currHeapEnd ∧ h'.lastEntry = h.currHeapEnd - 12 ∧
      h'.mem (h.currHeapEnd - 12) = ⟨false, 0, curr⟩ ∧ ∀ x, x + 12 ≤ h.currHeapEnd - 12 → h'.mem x = h.mem x := by
  have hm : Inside h.currHeapEnd (h.currHeapEnd - 12) := ⟨Nat.le_sub_of_add_le hend, by unfold sizeofEntry; omega⟩
  refine ⟨(({ h with lastEntry := h.currHeapEnd - 12 }.putNext (h.currHeapEnd - 12) 0).putPrev (h.currHeapEnd - 12)
    curr).putFree (h.currHeapEnd - 12) false, ?_, rfl, rfl, ?_, fun x hx => ?_⟩
  · unfold setLastEntry sizeofEntry
    simp only [setNext, setPrev, setFree, putNext_currHeapEnd, putPrev_currHeapEnd, hm, if_true, Option.bind_eq_bind,
      Option.bind_some]
  · rw [putFree_mem_self, putPrev_mem_self hcurr, putNext_mem_self (by omega)]
  · rw [putFree_mem _ (.inl hx), putPrev_mem _ (.inl hx), putNext_mem _ (.inl hx)]
    rfl

theorem deallocateLastHeapPage_mk (bytes : ByteMem) (e l : Nat) :
    deallocateLastHeapPage ⟨bytes, e, l⟩ = ⟨bytes, e - 4096, l⟩ := rfl

/-- What a new page leaves. -/
structure Grown (h h₁ : Heap) : Prop where
  end_eq : h₁.currHeapEnd = h.currHeapEnd + 4096
  last : h₁.lastEntry = h.lastEntry
  bytes : ∀ a, a < h.currHeapEnd → h₁.bytes a = h.bytes a
  below : h.currHeapEnd < 0xFFFFF000

private theorem Grown.kept (hgrown : Grown h h') (ha : a + 12 ≤ h.currHeapEnd) : h'.mem a = h.mem a :=
  mem_congr fun y _ hy => hgrown.bytes y (by omega)

theorem allocateHeapPage_grown {pages pages' : List Page} (halloc : h.allocateHeapPage pages = some (h', pages')) :
    Grown h h' ∧ ∃ page, pages = page :: pages' ∧
      ∀ a, h.currHeapEnd ≤ a → a < h.currHeapEnd + 4096 → h'.bytes a = page a := by
  unfold allocateHeapPage at halloc
  split at halloc
  · cases halloc
  · rename_i hbelow
    unfold KERNEL_HEAP_END at hbelow
    split at halloc
    · cases halloc
    · rename_i page rest
      cases halloc
      refine ⟨⟨rfl, rfl, fun a ha => if_neg ?_, by omega⟩, page, rfl, fun a hlo hhi => ?_⟩
      · omega
      · exact if_pos ⟨hlo, hhi⟩

end Heap

open Heap

/-! ### A page more -/

namespace Listed

theorem end_facts (hl : Listed h ns) : heapStart + 4096 ≤ h.currHeapEnd ∧ h.currHeapEnd ≤ 0xFFFFF000 ∧
    h.lastEntry + 12 ≤ h.currHeapEnd ∧ h.currHeapEnd % 4096 = 0 := by
  have hstart := hl.start_le hl.lastEntry_mem
  have hinside := hl.inside
  have hpage := hl.pageEnd
  unfold heapStart KERNEL_CODE_END at *
  exact ⟨by omega, hl.top, hinside, hpage⟩

/-- The list depends on the links of its headers. -/
theorem congr_links (hl : Listed h ns) (hlinks : ∀ x ∈ ns, h'.next x = h.next x ∧ h'.prev x = h.prev x)
    (hend : h'.currHeapEnd = h.currHeapEnd) (hlast : h'.lastEntry = h.lastEntry) : Listed h' ns := by
  refine ⟨?_, hl.head, ?_, ?_, ?_, ?_, ?_, ?_⟩
  · refine hl.linked.imp_of_mem_imp ?_
    intro x y hx hy hseam
    exact ⟨(hlinks x hx).1.trans hseam.next, (hlinks y hy).2.trans hseam.prev, hseam.gap⟩
  · rw [hlast]
    exact hl.last
  · rw [hlast, (hlinks _ hl.lastEntry_mem).1]
    exact hl.lastNext
  · rw [(hlinks _ (List.mem_of_head? hl.head)).2]
    exact hl.headPrev
  · rw [hlast, hend]
    exact hl.inside
  · rw [hend]
    exact hl.pageEnd
  · rw [hend]
    exact hl.top

/-- The list with the block at `c` extended to the end of a larger heap. -/
private theorem extend {h₁ : Heap} (hl : Listed h (front ++ c :: post)) (hgrown : Grown h h₁)
    (hend : h'.currHeapEnd = h₁.currHeapEnd) (hlast : h'.lastEntry = h₁.currHeapEnd - 12)
    (hnew : h'.mem (h₁.currHeapEnd - 12) = ⟨false, 0, c⟩)
    (hextended : h'.mem c = { h₁.mem c with isFree := true, next := h₁.currHeapEnd - 12 })
    (hmem : ∀ x, x + 12 ≤ c → h'.mem x = h₁.mem x) : Listed h' (front ++ [c, h'.lastEntry]) := by
  obtain ⟨hstart, -, hinside, hpage⟩ := hl.end_facts
  have hbelow := hgrown.below
  have hend₁ := hgrown.end_eq
  have hc := hl.end_le (a := c) (by simp)
  have hold : ∀ x ∈ front, h'.mem x = h.mem x := by
    intro x hx
    have hxm := hl.end_le (a := x) (by simp [hx])
    have hapart := hl.apart_of_front hx
    unfold Apart at hapart
    rw [hmem x (by omega)]
    exact hgrown.kept hxm
  have hmemc : h'.mem c = { h.mem c with isFree := true, next := h'.lastEntry } := by
    rw [hextended, hgrown.kept hc, hlast]
  have hmeml : h'.mem h'.lastEntry = ⟨false, 0, c⟩ := by
    rw [hlast, hnew]
  refine hl.splice ?_ ?_ ?_ (by simp) ?_ (by omega) (by omega) ?_
  · intro x hx
    unfold Heap.next
    rw [hold x hx]
  · intro x hx
    unfold Heap.prev
    rcases List.mem_append.1 hx with hx | hx
    · rw [hold x hx]
    · rw [List.mem_singleton.1 hx, hmemc]
  · refine List.isChain_pair.2 ⟨?_, ?_, ?_⟩
    · unfold Heap.next
      rw [hmemc]
    · unfold Heap.prev
      rw [hmeml]
    · unfold Apart
      omega
  · unfold Heap.next
    rw [hmeml]
  · omega

/-- What was taken stays taken when the block at `c`, which is not taken or stays so, gets a new tail. -/
theorem keepsTaken (hl : Listed h (front ++ c :: post))
    (hc : h.free c = true ∨ h.next c = 0 ∨ h'.free c = false ∧ h.next c ≤ h'.next c)
    (hpost : ∀ x ∈ post, h.free x = true ∨ h.next x = 0) (hold : ∀ x ∈ front, h'.mem x = h.mem x) :
    KeepsTaken h h' (front ++ c :: post) (front ++ c :: tail) := by
  intro a size ht
  have hnot : ¬ (h.free a = true ∨ h.next a = 0) := by
    rintro (hfree | hzero)
    · rw [ht.taken] at hfree
      cases hfree
    · exact ht.next hzero
  have hsize := ht.size
  rcases List.mem_append.1 ht.mem with ha | ha
  · have hmem := hold a ha
    refine ⟨List.mem_append_left _ ha, ?_, ?_, ?_⟩
    · unfold Heap.free
      rw [hmem]
      exact ht.taken
    · unfold Heap.next
      rw [hmem]
      exact ht.next
    · unfold Heap.next
      rw [hmem]
      exact hsize
  · rcases List.mem_cons.1 ha with rfl | ha
    · rcases hc with hfree | hzero | ⟨hfree, hle⟩
      · exact absurd (.inl hfree) hnot
      · exact absurd (.inr hzero) hnot
      · exact ⟨by simp, hfree, by omega, by omega⟩
    · exact absurd (hpost a ha) hnot

/-- At the end of the list the loop goes on with a free block that reaches the end of the new page. -/
theorem appendPage_spec {h₁ : Heap} {pre : List Nat} {curr : Nat} (hl : Listed h (pre ++ [curr]))
    (hgrown : Grown h h₁) :
    ∃ front c h', h₁.appendPage curr = some (c, h') ∧ Listed h' (front ++ [c, h'.lastEntry]) ∧ h'.free c = true ∧
      h'.currHeapEnd = h.currHeapEnd + 4096 ∧ KeepsTaken h h' (pre ++ [curr]) (front ++ [c, h'.lastEntry]) := by
  obtain ⟨hstart, htop, hinside, hpage⟩ := hl.end_facts
  have hend₁ := hgrown.end_eq
  have hkept : ∀ x ∈ pre ++ [curr], h₁.mem x = h.mem x := fun x hx => hgrown.kept (hl.end_le hx)
  have hin : ∀ x ∈ pre ++ [curr], Inside h₁.currHeapEnd x := by
    intro x hx
    have := hl.mapped hx
    exact ⟨this.1, by have := this.2; omega⟩
  have hcurr : curr = h.lastEntry := by simpa using hl.last
  -- where the loop goes on
  obtain ⟨c, hc, hcmem, hchoice⟩ : ∃ c, (∃ front post, pre ++ [curr] = front ++ c :: post ∧
      (∀ x ∈ post, h.free x = true ∨ h.next x = 0)) ∧ (h.free c = true ∨ h.next c = 0) ∧
      ∃ prevFree, h₁.isFreeEntry (h₁.mem curr).prev = some prevFree ∧
        (prevFree = true ∧ c = (h₁.mem curr).prev ∧ h.free c = true ∨ prevFree = false ∧ c = curr) := by
    have hprev := hl.prev_eq
    unfold Heap.prev at hprev
    rw [hkept curr (by simp), hprev]
    rcases List.eq_nil_or_concat pre with rfl | ⟨front, x, rfl⟩
    · refine ⟨curr, ⟨[], [], rfl, by simp⟩, .inr (hcurr ▸ hl.lastNext), false, rfl, .inr ⟨rfl, rfl⟩⟩
    · have hx : x ∈ front.concat x ++ [curr] := by simp
      have hload : h₁.isFreeEntry ((front.concat x).getLast?.getD 0) = some (h.free x) := by
        rw [List.concat_eq_append, List.getLast?_concat, Option.getD_some]
        unfold isFreeEntry
        rw [if_neg (hl.ne_zero hx), load_eq (hin x hx), hkept x hx]
        rfl
      rw [hload]
      cases hfree : h.free x with
      | true =>
        refine ⟨x, ⟨front, [curr], by simp, ?_⟩, .inl hfree, true, rfl, .inl ⟨rfl, by simp, hfree⟩⟩
        intro y hy
        rw [List.mem_singleton.1 hy, hcurr]
        exact .inr hl.lastNext
      | false =>
        exact ⟨curr, ⟨front.concat x, [], by simp, by simp⟩, .inr (hcurr ▸ hl.lastNext), false, rfl, .inr ⟨rfl, rfl⟩⟩
  obtain ⟨front, post, hsplit, hpost⟩ := hc
  obtain ⟨prevFree, hprevFree, hcase⟩ := hchoice
  have hcin : Inside h₁.currHeapEnd c := hin c (by rw [hsplit]; simp)
  have hlist : Listed h (front ++ c :: post) := hsplit ▸ hl
  have hcend : c + 12 ≤ h.currHeapEnd := hlist.end_le (by simp)
  -- the stores
  obtain ⟨h₂, hh₂, hend₂, hfree₂, hmem₂⟩ : ∃ h₂, (if prevFree = true then some h₁ else h₁.setFree curr true) = some h₂ ∧
      h₂.currHeapEnd = h₁.currHeapEnd ∧ h₂.mem c = { h₁.mem c with isFree := true } ∧
      ∀ x, x + 12 ≤ c → h₂.mem x = h₁.mem x := by
    rcases hcase with ⟨rfl, -, hfree⟩ | ⟨rfl, rfl⟩
    · refine ⟨h₁, rfl, rfl, ?_, fun x _ => rfl⟩
      rw [hkept c (by rw [hsplit]; simp), ← hfree]
      rfl
    · exact ⟨_, setFree_eq hcin true, rfl, putFree_mem_self true, fun x hx => putFree_mem true (.inl hx)⟩
  obtain ⟨h₄, hh₄, hend₄, hlast₄, hnew₄, hmem₄⟩ := @setLastEntry_eq (h₂.putNext c (h₂.currHeapEnd - 12)) c
    (by rw [putNext_currHeapEnd]; omega) (by omega)
  rw [putNext_currHeapEnd, hend₂] at hend₄ hlast₄ hnew₄ hmem₄
  have hchoose : (if prevFree = true then (h₁.mem curr).prev else curr) = c := by
    rcases hcase with ⟨rfl, rfl, -⟩ | ⟨rfl, rfl⟩ <;> rfl
  have heq : h₁.appendPage curr = some (c, h₄) := by
    unfold appendPage
    rw [load_eq (hin curr (by simp))]
    simp only [Option.bind_eq_bind, Option.bind_some, hprevFree, hh₂, hchoose, sizeofEntry]
    rw [setNext_eq (by rw [hend₂]; exact hcin), Option.bind_some, hh₄]
    rfl
  have hbelow := hgrown.below
  have hextended : h₄.mem c = { h₁.mem c with isFree := true, next := h₁.currHeapEnd - 12 } := by
    rw [hmem₄ c (by omega), putNext_mem_self (by omega), hfree₂]
  have hold : ∀ x, x + 12 ≤ c → h₄.mem x = h₁.mem x := by
    intro x hx
    rw [hmem₄ x (by omega), putNext_mem _ (.inl hx), hmem₂ x hx]
  refine ⟨front, c, h₄, heq, hlist.extend hgrown hend₄ hlast₄ hnew₄ hextended hold, ?_, by omega, ?_⟩
  · unfold Heap.free
    rw [hextended]
  · rw [hsplit]
    refine hlist.keepsTaken (hcmem.imp_right .inl) hpost ?_
    intro x hx
    have hxc := hlist.apart_of_front hx
    unfold Apart at hxc
    rw [hold x (by omega)]
    exact hkept x (by rw [hsplit]; simp [hx])

end Listed

end DBolOS.Kmalloc
