import DBolOS.Paging.Tables

/-!
# The heap and new address spaces

How `heap.c` takes pages, and how `elf_loader.c` and `process_manager.c` build the address space of a new process.  The
list of heap blocks is not modelled: how many pages a call of `kmalloc` asks for, and whether a call of `kfree` gives
the last page back, are arguments.
-/

namespace DBolOS.Paging

open Pmm (PmmInfo)

/-- `KERNEL_CODE_END`, where the heap starts, and `KERNEL_HEAP_END`, as pages. -/
def KERNEL_CODE_END : Nat := 0xC1800
def KERNEL_HEAP_END : Nat := 0xFFFFF

def PROC_KERNEL_STACK_SIZE : Nat := 2
def DEFAULT_STACK_PAGE_AMOUNT : Nat := 0x100
def USER_STACK_TOP : Nat := 0xBFFFF000

namespace Space

/-! ### Heap pages -/

def allocateHeapPage (s : Space) : Option (Bool × Space) :=
  if KERNEL_HEAP_END ≤ s.currHeapEnd then some (false, s)
  else do
    let (allocated, s) ← s.allocateKernelVirtualPage s.currHeapEnd true
    if allocated then some (true, { s with currHeapEnd := s.currHeapEnd + 1 }) else some (false, s)

def deallocateLastHeapPage (s : Space) : Option Space := do
  let s ← s.deallocateVirtualPage (s.currHeapEnd - 1)
  some { s with currHeapEnd := s.currHeapEnd - 1 }

/-- A call of `kmalloc` that asks for `n` pages before it finds a block. -/
def kmalloc : Nat → Space → Option (Bool × Space)
  | 0, s => some (true, s)
  | n + 1, s => do
    let (allocated, s) ← s.allocateHeapPage
    if allocated then kmalloc n s else some (false, s)

def deallocateHeapPages : Nat → Space → Option Space
  | 0, s => some s
  | n + 1, s => do
    let s ← s.deallocateLastHeapPage
    deallocateHeapPages n s

/-- The loop of `kmalloc_pages` with `i` pages taken and `n` left. -/
def kmallocLoop : Nat → Nat → Space → Option (Bool × Space)
  | 0, _, s => some (true, s)
  | n + 1, i, s => do
    let (allocated, s) ← s.allocateHeapPage
    if allocated then kmallocLoop n (i + 1) s
    else do
      let s ← deallocateHeapPages i s
      some (false, s)

/-- The first of the pages, `none` for `NULL`. -/
def kmallocPages (s : Space) (pageAmount : Nat) : Option (Option Nat × Space) :=
  if pageAmount = 0 ∨ KERNEL_HEAP_END - KERNEL_CODE_END < pageAmount then some (none, s)
  else do
    let (allocated, s) ← kmallocLoop (pageAmount + 1) 0 s
    some (if allocated then some (s.currHeapEnd - (pageAmount + 1)) else none, s)

def kfree (s : Space) (lastPage : Bool) : Option Space := if lastPage then s.deallocateLastHeapPage else some s

/-! ### Loading -/

/-- What `elf_load_process` reads from the image: `e_entry`, the size in memory and the program break, which is not
zero when a section was loaded. -/
structure Image where
  entry : Nat
  size : Nat
  programBreak : Nat

/-- The pages allocated for the image. -/
def Image.start (image : Image) : Nat := image.entry / PAGE_SIZE

def Image.pageCount (image : Image) : Nat := image.size / PAGE_SIZE + 2

def Image.tableCount (image : Image) : Nat := image.size / PAGE_SIZE / PAGES_PER_DIR + 1

/-- The lowest page of the stack. -/
def stackStart : Nat := USER_STACK_TOP / PAGE_SIZE - DEFAULT_STACK_PAGE_AMOUNT

/-- Returns whether the program break is not zero.  What copying the sections reads and writes is in
`Paging/Elf.lean`. -/
def elfLoadProcess (s : Space) (image : Image) (isKernelMode : Bool) (lastPage : Bool) : Option (Bool × Space) := do
  let (processPageTables, s) ← s.kmallocPages image.tableCount
  let tables ← s.getPhysicalPage (processPageTables.getD 0)
  let pageTablesPhysAddr := tables * PAGE_SIZE
  let (allocated, s) ← s.allocateMultiplePages image.start image.pageCount isKernelMode pageTablesPhysAddr
  if !allocated then do
    let s ← if processPageTables.isSome then s.kfree lastPage else some s
    some (false, s)
  else do
    let (allocated, s) ←
      s.allocateMultiplePages stackStart DEFAULT_STACK_PAGE_AMOUNT isKernelMode pageTablesPhysAddr
    if !allocated then do
      let s ← deallocatePages (image.size / PAGE_SIZE + 1) image.start s
      let s ← if processPageTables.isSome then s.kfree lastPage else some s
      some (false, s)
    else some (image.programBreak ≠ 0, s)

/-! ### Creating a process -/

/-- The `memcpy` of `n` directory entries from entry `i` on. -/
def copyEntries (destination source : Nat) : Nat → Nat → Space → Option Space
  | 0, _, s => some s
  | n + 1, i, s => do
    let e ← s.load (source * PAGE_SIZE + 4 * i)
    let s ← s.modify (destination * PAGE_SIZE + 4 * i) fun _ => e
    copyEntries destination source n (i + 1) s

/-- A call of `create_process_from_elf`: `growth` pages are asked for by `kmalloc` for the node, and call `i` of
`kfree` on a failing path gives the last heap page back where `lastPage i`. -/
structure Creation where
  image : Image
  isKernelMode : Bool
  growth : Nat
  lastPage : Nat → Bool

/-- The first of the directory entries for the kernel. -/
def kernelEntries : Nat := RELOCATION_OFFSET / PAGE_SIZE / PAGES_PER_DIR

/-- Copies the entries of the kernel and makes the directory on page `pd` its own last table. -/
def fillDirectory (s : Space) (pd : Nat) : Option Space := do
  let s ← copyEntries pd kernelPd (PAGES_PER_DIR - kernelEntries) kernelEntries s
  let phys ← s.getPhysicalPage pd
  s.modify (pd * PAGE_SIZE + 4 * (PAGES_PER_DIR - 1)) fun e => { e with address := bits20 phys }

/-- The page of the new directory, `none` when the creation fails. -/
def createProcessFromElf (s : Space) (c : Creation) : Option (Option Nat × Space) := do
  let prevPd := s.currentPageDirectory
  let s ← s.loadPd kernelPd
  let (allocated, s) ← kmalloc c.growth s
  if !allocated then some (none, s)
  else do
    let (_, s) ← s.kmallocPages PROC_KERNEL_STACK_SIZE
    let (pageDirectory, s) ← s.kmallocPages 1
    match pageDirectory with
    | none => do
      let s ← s.kfree (c.lastPage 0)
      some (none, s)
    | some pd => do
      let s ← s.fillDirectory pd
      let s ← s.loadPd pd
      let (loaded, s) ← s.elfLoadProcess c.image c.isKernelMode (c.lastPage 0)
      let s ← s.loadPd kernelPd
      if !loaded then do
        let s ← s.kfree (c.lastPage 1)
        let s ← s.kfree (c.lastPage 2)
        some (none, s)
      else do
        let s ← s.loadPd prevPd
        some (some pd, s)

end Space

/-! ### The system -/

/-- The memory with the pages of the directories of the live processes. -/
structure System where
  space : Space
  pageDirectories : List Nat

namespace System

inductive Event
  /-- `kmalloc` asks for `n` heap pages. -/
  | kmalloc (n : Nat)
  | kmallocPages (pageAmount : Nat)
  | create (c : Space.Creation)
  /-- A switch to the process with the directory on page `pd`. -/
  | switch (pd : Nat)

def step (s : System) : Event → Option System
  | .kmalloc n => do
    let (_, space) ← Space.kmalloc n s.space
    some { s with space }
  | .kmallocPages pageAmount => do
    let (_, space) ← s.space.kmallocPages pageAmount
    some { s with space }
  | .create c => do
    let (pd, space) ← s.space.createProcessFromElf c
    some { space, pageDirectories := s.pageDirectories ++ pd.toList }
  | .switch pd =>
    if pd ∈ s.pageDirectories then do
      let space ← s.space.loadPd pd
      some { s with space }
    else none

/-! ### Boot -/

/-- The identity maps of `boot.asm` are the first entries of the kernel's tables. -/
def identityEntry (frame : Nat) : PageEntry := { PageEntry.zero with present := true, readWrite := true, address := frame }

/-- The memory as `init_paging` leaves it: the directory maps the first 24 MiB at `0` and at `0xC0000000`, and itself.
The loop that fills the tables counts entries where it should count tables, and fills 24 tables. -/
def bootMemory (stale : Memory) : Memory := fun f i =>
  let kernelDirectory := KERNEL_PAGE_DIR_PHYS_ADDR / PAGE_SIZE
  let kernelTables := KERNEL_PAGE_TABLES_PHYS_ADDR / PAGE_SIZE
  if f = kernelDirectory then
    if i < 6 then identityEntry (kernelTables + i)
    else if 768 ≤ i ∧ i < 774 then identityEntry (kernelTables + (i - 768))
    else if i = 1023 then identityEntry kernelDirectory
    else .zero
  else if kernelTables ≤ f ∧ f < kernelTables + 24 then identityEntry ((f - kernelTables) * 1024 + i)
  else if kernelTables + 24 ≤ f ∧ f < kernelTables + 1024 then .zero
  else stale f i

/-- `pmm_init` and `heap_init`. -/
def boot (mbi : Pmm.MultibootInfo) (stale : Memory) : Option System := do
  let (status, pmm) ← Pmm.pmmInit .static (some mbi)
  if status ≠ .success then none
  else do
    let space : Space :=
      { mem := bootMemory stale
        pmm := pmm
        cr3 := KERNEL_PAGE_DIR_PHYS_ADDR / PAGE_SIZE
        currentPageDirectory := Space.kernelPd
        currHeapEnd := KERNEL_CODE_END }
    let (allocated, space) ← space.allocateHeapPage
    if allocated then some { space, pageDirectories := [] } else none

end System

end DBolOS.Paging
