import DBolOS.Pmm

/-!
# Page directories and page tables

`paging.c` over a memory of page frames.  The functions reach the directory and the tables through the recursive entry
of the directory that is loaded, so each access is translated; one that is not mapped is a page fault and `none`.
Addresses wrap at 32 bits, and pages are counted by their index.
-/

namespace DBolOS.Paging

open Pmm (PmmInfo pmmAllocatePage pmmDeallocatePage)

def PAGE_SIZE : Nat := 0x1000
def PAGES_PER_TABLE : Nat := 1024
def PAGES_PER_DIR : Nat := 1024
def RELOCATION_OFFSET : Nat := 0xC0000000
def PAGE_DIR_ADDR : Nat := 0xFFFFF000
def PAGE_TABLES_ADDR : Nat := 0xFFC00000
def KERNEL_PAGE_DIR_PHYS_ADDR : Nat := 0x00006000
def KERNEL_PAGE_TABLES_PHYS_ADDR : Nat := 0x01100000

/-! ### Memory -/

/-- `page_directory_entry` and `page_table_entry`; `flags` are the bits that no function of the kernel names. -/
structure PageEntry where
  present : Bool
  readWrite : Bool
  userSupervisor : Bool
  flags : BitVec 9
  address : Nat
  deriving DecidableEq

def PageEntry.zero : PageEntry := ⟨false, false, false, 0, 0⟩

/-- A value in the 20 bits of an address field. -/
def bits20 (n : Nat) : Nat := n % 0x100000

/-- The entries in each page frame. -/
abbrev Memory := Nat → Nat → PageEntry

def Memory.set (mem : Memory) (frame index : Nat) (e : PageEntry) : Memory := fun f i =>
  if f = frame ∧ i = index then e else mem f i

/-- The frame that page `vpn` is mapped to by the directory in frame `pd`. -/
def translate (mem : Memory) (pd vpn : Nat) : Option Nat :=
  let pde := mem pd (vpn / PAGES_PER_TABLE)
  if pde.present then
    let pte := mem pde.address (vpn % PAGES_PER_TABLE)
    if pte.present then some pte.address else none
  else none

/-- The memory and what manages it; `cr3` is the frame of the directory that is loaded, `currentPageDirectory` the page
that `current_page_directory` points to, and the heap ends before page `currHeapEnd`. -/
structure Space where
  mem : Memory
  pmm : PmmInfo
  cr3 : Nat
  currentPageDirectory : Nat
  currHeapEnd : Nat

namespace Space

/-- The frame and index of the entry at an address. -/
def locate (s : Space) (address : Nat) : Option (Nat × Nat) :=
  (translate s.mem s.cr3 (address / PAGE_SIZE)).map fun f => (f, address % PAGE_SIZE / 4)

def load (s : Space) (address : Nat) : Option PageEntry := (s.locate address).map fun l => s.mem l.1 l.2

/-- A store to fields of the entry at an address. -/
def modify (s : Space) (address : Nat) (f : PageEntry → PageEntry) : Option Space :=
  (s.locate address).map fun l => { s with mem := s.mem.set l.1 l.2 (f (s.mem l.1 l.2)) }

/-! ### Mapping -/

/-- `&page_directory[vpn / PAGES_PER_TABLE]`. -/
def pdEntry (vpn : Nat) : Nat := (PAGE_DIR_ADDR + 4 * (vpn / PAGES_PER_TABLE)) % 0x100000000

/-- `&GET_PAGE_TABLE(vpn)[vpn % 1024]`, which is also `get_pte(vpn)`. -/
def ptEntry (vpn : Nat) : Nat :=
  (PAGE_TABLES_ADDR + vpn / PAGES_PER_TABLE * PAGE_SIZE + 4 * (vpn % PAGES_PER_TABLE)) % 0x100000000

/-- The entry that `paging_map_page` makes for a table; pages of the higher half have their own tables. -/
def newTable (vpn pageTablePhysAddr : Nat) : PageEntry :=
  let pageTablePhysAddr :=
    if RELOCATION_OFFSET / PAGE_SIZE ≤ vpn then
      KERNEL_PAGE_TABLES_PHYS_ADDR + vpn / PAGES_PER_TABLE * PAGE_SIZE
    else pageTablePhysAddr
  { PageEntry.zero with present := true, readWrite := true, address := bits20 (pageTablePhysAddr / PAGE_SIZE) }

/-- What `paging_map_page` stores in the entry of a page, the unnamed bits left as they were. -/
def mapped (physicalPageIndex : Nat) (onlyKernelMode : Bool) (pte : PageEntry) : PageEntry :=
  { pte with
    address := bits20 physicalPageIndex
    userSupervisor := !onlyKernelMode
    present := true
    readWrite := true }

def pagingMapPage (s : Space) (physicalPageIndex vpn : Nat) (onlyKernelMode : Bool) (pageTablePhysAddr : Nat) :
    Option Space := do
  let pde ← s.load (pdEntry vpn)
  let s ← if pde.present then some s else s.modify (pdEntry vpn) fun _ => newTable vpn pageTablePhysAddr
  let s ← s.modify (ptEntry vpn) (mapped physicalPageIndex onlyKernelMode)
  s.modify (pdEntry vpn) fun pde => { pde with userSupervisor := pde.userSupervisor || !onlyKernelMode }

def pagingMapKernelPage (s : Space) (physicalPageIndex vpn : Nat) (supervisorPermissions : Bool) : Option Space :=
  s.pagingMapPage physicalPageIndex vpn supervisorPermissions 0

def deallocateVirtualPage (s : Space) (vpn : Nat) : Option Space := do
  let pte ← s.load (ptEntry vpn)
  let pmm ← pmmDeallocatePage s.pmm pte.address
  { s with pmm }.modify (ptEntry vpn) fun pte => { pte with present := false }

/-- `deallocate_virtual_page` on `n` pages from `vpn`. -/
def deallocatePages : Nat → Nat → Space → Option Space
  | 0, _, s => some s
  | n + 1, vpn, s => do
    let s ← s.deallocateVirtualPage vpn
    deallocatePages n (vpn + 1) s

/-- The loop of `allocate_multiple_pages` with `i` of the pages allocated and `n` left. -/
def allocateLoop (start : Nat) (supervisorPermissions : Bool) (pageTablesPhysAddr : Nat) :
    Nat → Nat → Space → Option (Bool × Space)
  | 0, _, s => some (true, s)
  | n + 1, i, s => do
    let (physicalPageIndex, pmm) ← pmmAllocatePage s.pmm
    let s := { s with pmm }
    if physicalPageIndex = 0 then do
      let s ← deallocatePages i start s
      some (false, s)
    else do
      let s ← s.pagingMapPage physicalPageIndex (start + i) supervisorPermissions pageTablesPhysAddr
      allocateLoop start supervisorPermissions pageTablesPhysAddr n (i + 1) s

def allocateMultiplePages (s : Space) (start pageCount : Nat) (supervisorPermissions : Bool)
    (pageTablesPhysAddr : Nat) : Option (Bool × Space) :=
  allocateLoop start supervisorPermissions pageTablesPhysAddr pageCount 0 s

def allocateKernelVirtualPage (s : Space) (vpn : Nat) (supervisorPermissions : Bool) : Option (Bool × Space) := do
  let (physicalPageIndex, pmm) ← pmmAllocatePage s.pmm
  let s := { s with pmm }
  if physicalPageIndex = 0 then some (false, s)
  else do
    let s ← s.pagingMapKernelPage physicalPageIndex vpn supervisorPermissions
    some (true, s)

/-! ### Directories -/

/-- `get_physical_address` of the start of a page, as a page index; `0` when the page is not mapped. -/
def getPhysicalPage (s : Space) (vpn : Nat) : Option Nat := do
  let pde ← s.load (pdEntry vpn)
  if pde.present then do
    let pte ← s.load (ptEntry vpn)
    if pte.present then some pte.address else some 0
  else some 0

def loadPd (s : Space) (pd : Nat) : Option Space := do
  let phys ← s.getPhysicalPage pd
  some { s with currentPageDirectory := pd, cr3 := phys }

/-- `get_kernel_pd`. -/
def kernelPd : Nat := (KERNEL_PAGE_DIR_PHYS_ADDR + RELOCATION_OFFSET) / PAGE_SIZE

end Space

end DBolOS.Paging
