import DBolOS.Lib.ByteMem

/-!
# The kernel heap

`heap.c`: blocks behind headers that are linked both ways in the order of their addresses, up to `last_entry`.  The
headers lie among the bytes of the blocks.  A header that does not lie in the mapped part of the heap has no defined
value, and a use of it is `none`.
-/

namespace DBolOS.Kmalloc

open ByteMem

abbrev KERNEL_CODE_END : Nat := 0xC1800000

abbrev KERNEL_HEAP_END : Nat := 0xFFFFF000

abbrev PAGE_SIZE : Nat := 4096

abbrev heapStart : Nat := KERNEL_CODE_END

/-- `sizeof(heap_entry)`. -/
abbrev sizeofEntry : Nat := 12

abbrev MIN_BLOCK_SIZE : Nat := 4

/-- `heap_entry`, with the address `0` for `NULL`. -/
structure HeapEntry where
  isFree : Bool
  next : Nat
  prev : Nat
  deriving DecidableEq

/-- What a page holds when it is mapped, at the addresses where it is mapped. -/
abbrev Page := ByteMem

structure Heap where
  bytes : ByteMem
  currHeapEnd : Nat
  lastEntry : Nat

/-- `ALIGN`. -/
def align (size alignment : Nat) : Nat := (size + alignment - 1) / alignment * alignment

/-- `BLOCK_SIZE` of the block at an address. -/
def blockSize (address : Nat) (e : HeapEntry) : Nat := (e.next + 2 ^ 33 - address - sizeofEntry) % 2 ^ 32

namespace Heap

/-! ### Headers -/

/-- A header lies in the part of the heap below `heapEnd`. -/
def Inside (heapEnd a : Nat) : Prop := heapStart ≤ a ∧ a + sizeofEntry ≤ heapEnd

instance (heapEnd a : Nat) : Decidable (Inside heapEnd a) := inferInstanceAs (Decidable (_ ∧ _))

def word (m : ByteMem) (a : Nat) : Nat := (ofLe32 (m a) (m (a + 1)) (m (a + 2)) (m (a + 3))).toNat

/-- The header at an address. -/
def mem (h : Heap) (a : Nat) : HeapEntry := ⟨h.bytes a != 0, word h.bytes (a + 4), word h.bytes (a + 8)⟩

def load (h : Heap) (a : Nat) : Option HeapEntry := if Inside h.currHeapEnd a then some (h.mem a) else none

def putFree (h : Heap) (a : Nat) (free : Bool) : Heap :=
  { h with bytes := writeBytes h.bytes a [if free then 1 else 0] }

def putNext (h : Heap) (a next : Nat) : Heap := { h with bytes := writeBytes h.bytes (a + 4) (le32 (UInt32.ofNat next)) }

def putPrev (h : Heap) (a prev : Nat) : Heap := { h with bytes := writeBytes h.bytes (a + 8) (le32 (UInt32.ofNat prev)) }

def setFree (h : Heap) (a : Nat) (free : Bool) : Option Heap :=
  if Inside h.currHeapEnd a then some (h.putFree a free) else none

def setNext (h : Heap) (a next : Nat) : Option Heap := if Inside h.currHeapEnd a then some (h.putNext a next) else none

def setPrev (h : Heap) (a prev : Nat) : Option Heap := if Inside h.currHeapEnd a then some (h.putPrev a prev) else none

/-- `entry && entry->is_free`. -/
def isFreeEntry (h : Heap) (a : Nat) : Option Bool := if a = 0 then some false else (·.isFree) <$> h.load a

/-! ### Pages -/

/-- `allocate_heap_page`, where `pages` are those that `allocate_kernel_virtual_page` can still map; `none` when it
fails. -/
def allocateHeapPage (h : Heap) (pages : List Page) : Option (Heap × List Page) :=
  if KERNEL_HEAP_END ≤ h.currHeapEnd then none
  else
    match pages with
    | [] => none
    | page :: pages =>
      some ({ h with
        bytes := fun a => if h.currHeapEnd ≤ a ∧ a < h.currHeapEnd + PAGE_SIZE then page a else h.bytes a
        currHeapEnd := h.currHeapEnd + PAGE_SIZE }, pages)

def deallocateLastHeapPage (h : Heap) : Heap := { h with currHeapEnd := h.currHeapEnd - PAGE_SIZE }

/-! ### Initialisation -/

/-- The new last entry at the end of the heap; its `prev` is `curr`. -/
def setLastEntry (h : Heap) (curr : Nat) : Option Heap := do
  let last := h.currHeapEnd - sizeofEntry
  let h ← { h with lastEntry := last }.setNext last 0
  let h ← h.setPrev last curr
  h.setFree last false

/-- The static data before the first call. -/
def static : Heap := ⟨fun _ => 0, KERNEL_CODE_END, 0⟩

def heapInit (h : Heap) (pages : List Page) : Option (Bool × Heap) :=
  match h.allocateHeapPage pages with
  | none => some (false, h)
  | some (h, _) => do
    let first := heapStart
    let h ← h.setLastEntry first
    let h ← h.setNext first h.lastEntry
    let h ← h.setPrev first 0
    let h ← h.setFree first true
    some (true, h)

/-! ### Allocation -/

/-- The branch of the loop behind `allocate_heap_page`: the new page is added to the last block if it is free, and is
a block of its own else.  Returns where the loop goes on. -/
def appendPage (h : Heap) (curr : Nat) : Option (Nat × Heap) := do
  let e ← h.load curr
  let prevFree ← h.isFreeEntry e.prev
  let h ← (if prevFree then some h else h.setFree curr true)
  let curr := if prevFree then e.prev else curr
  let h ← h.setNext curr (h.currHeapEnd - sizeofEntry)
  let h ← h.setLastEntry curr
  some (curr, h)

/-- The loop of `heap_find_first_free_space` from `curr` on; `none` for the address when no page is left. -/
def findLoop (wantedSize : Nat) : Nat → Nat → Heap → List Page → Option (Option Nat × Heap)
  | 0, _, _, _ => none
  | fuel + 1, curr, h, pages => do
    let e ← h.load curr
    if !e.isFree || e.next = 0 || blockSize curr e < wantedSize then
      if e.next = 0 ∨ h.currHeapEnd ≤ e.next then
        match h.allocateHeapPage pages with
        | none => some (none, h)
        | some (h, pages) => do
          let (curr, h) ← h.appendPage curr
          findLoop wantedSize fuel curr h pages
      else findLoop wantedSize fuel e.next h pages
    else some (some curr, h)

/-- The block at `curr` taken, and split where enough of it is left. -/
def takeBlock (h : Heap) (curr wantedSize : Nat) : Option (Nat × Heap) := do
  let e ← h.load curr
  let h ← (if wantedSize + sizeofEntry + MIN_BLOCK_SIZE ≤ blockSize curr e then do
      let currEnd := e.next
      let split := (curr + wantedSize + sizeofEntry) % 2 ^ 32
      let h ← h.setNext curr split
      let h ← h.setNext split currEnd
      let h ← h.setPrev split curr
      let h ← h.setFree split true
      h.setPrev currEnd split
    else some h)
  let h ← h.setFree curr false
  some (curr + sizeofEntry, h)

/-- Steps of the loop after which it never ends: between two new pages it meets an address at most once. -/
def searchFuel (h : Heap) (pages : List Page) : Nat :=
  (pages.length + 1) * (h.currHeapEnd - heapStart + PAGE_SIZE * (pages.length + 1))

def kmalloc (h : Heap) (wantedSize : Nat) (pages : List Page) : Option (Nat × Heap) :=
  if wantedSize = 0 ∨ KERNEL_HEAP_END - heapStart < wantedSize then some (0, h)
  else do
    let wantedSize := align wantedSize 4
    let (found, h) ← findLoop wantedSize (h.searchFuel pages) heapStart h pages
    match found with
    | none => some (0, h)
    | some curr => h.takeBlock curr wantedSize

/-- The loop of `kmalloc_pages` with `i` pages allocated and `n` left. -/
def growLoop : Nat → Nat → Heap → List Page → Bool × Heap
  | 0, _, h, _ => (true, h)
  | n + 1, i, h, pages =>
    match h.allocateHeapPage pages with
    | none => (false, deallocateLastHeapPage^[i] h)
    | some (h, pages) => growLoop n (i + 1) h pages

/-- `kmalloc_pages` behind its loop. -/
def placePages (h : Heap) (pageAmount : Nat) : Option (Nat × Heap) := do
  let returned := h.currHeapEnd - (pageAmount + 1) * PAGE_SIZE - sizeofEntry
  let h ← h.setFree returned false
  let prev := (← h.load h.lastEntry).prev
  let e ← h.load prev
  let h ← (if !e.isFree then do
      let h ← h.setNext prev returned
      h.setPrev returned (← h.load h.lastEntry).prev
    else do
      -- discard the last block
      let h ← h.setNext e.prev returned
      h.setPrev returned (← h.load (← h.load h.lastEntry).prev).prev)
  let rest := returned + pageAmount * PAGE_SIZE + sizeofEntry
  let h ← h.setNext returned rest
  let h ← h.setFree rest true
  let last := h.currHeapEnd - sizeofEntry
  let h ← { h with lastEntry := last }.setFree last false
  let h ← h.setPrev last rest
  let h ← h.setNext rest last
  let h ← h.setPrev rest returned
  some (returned + sizeofEntry, h)

def kmallocPages (h : Heap) (pageAmount : Nat) (pages : List Page) : Option (Nat × Heap) :=
  if pageAmount = 0 ∨ (KERNEL_HEAP_END - heapStart) / PAGE_SIZE < pageAmount then some (0, h)
  else
    match growLoop (pageAmount + 1) 0 h pages with
    | (false, h) => some (0, h)
    | (true, h) => h.placePages pageAmount

/-! ### Release -/

def freeBlock (h : Heap) (block : Nat) : Option Heap :=
  if block < heapStart ∨ KERNEL_HEAP_END < block then some h
  else do
    let e ← h.load block
    if e.next = 0 then some h
    else do
      let n ← h.load e.next
      if n.next = 0 then do
        let h ← { h with lastEntry := block }.setNext block 0
        let h ← h.setFree block true
        some (if align block PAGE_SIZE < align h.currHeapEnd PAGE_SIZE then h.deallocateLastHeapPage else h)
      else do
        let prevFree ← h.isFreeEntry e.prev
        if prevFree then h.setNext e.prev e.next
        else do
          let h ← (if n.isFree then h.setNext block n.next else some h)
          h.setFree block true

def kfree (h : Heap) (addr : Nat) : Option Heap := if addr = 0 then some h else h.freeBlock (addr - sizeofEntry)

end Heap

end DBolOS.Kmalloc
