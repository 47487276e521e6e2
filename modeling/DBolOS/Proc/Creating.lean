import DBolOS.Fat.Ops
import DBolOS.Heap.Session
import DBolOS.Paging.Elf
import DBolOS.Proc.Manager

/-!
# Creating a process

`create_process` over all that it works on: the file system, the heap with what it handed out, the pages behind the
heap and the process list.  A call of the heap maps and unmaps the pages that its search comes to.  `none` is a fault, a
store through `NULL`, or a file whose sections leave the heap or the pages of the process.
-/

namespace DBolOS.Fat

/-! ### Lookups of a path -/

/-- Whether an iteration of the loop of `fat_find_dir_entry_from_path` calls `fat_find_dir_entry`. -/
def looksUp (path : List UInt8) (startIndex : Nat) (currDirEntry : DirEntry) : Bool :=
  let len := nameLen (filenameSize + 1) (path.drop startIndex)
  len ≤ filenameSize && startIndex ≠ 0 && (path.length ≤ startIndex + len + 1 || currDirEntry.isDirectory)

/-- The calls of `fat_find_dir_entry` in the loop. -/
def lookupsFrom (v : Volume) (path : List UInt8) : Nat → Nat → DirEntry → Nat
  | 0, _, _ => 0
  | n + 1, startIndex, currDirEntry =>
    let found := if looksUp path startIndex currDirEntry then 1 else 0
    match resolveStep v path startIndex currDirEntry with
    | some (.inr (index, entry)) => found + lookupsFrom v path n index entry
    | _ => found

def pathLookups (v : Volume) (path : List UInt8) : Nat :=
  if path = [tilde, slash] ∨ path = [slash] ∨ path = [dot, slash] then 0
  else lookupsFrom v path (path.length + 2) 0 (rootDir v.fs)

/-- The calls of `fat_find_dir_entry` in `fat_get_file_data`. -/
def fileDataLookups (stale : ByteMem) (v : Volume) (path : List UInt8) : Nat :=
  pathLookups v path +
    match fatFindDirEntryFromPath v path, getParentDir stale path with
    | some (.ok _), some parentPath => pathLookups v parentPath
    | _, _ => 0

end DBolOS.Fat

namespace DBolOS.Proc

open Kmalloc (Heap Page)
open Paging (Space)

/-- `sizeof(process_node_t)`. -/
def sizeofProcessNode : Nat := 2396

/-- What `create_process` works on.  `live` holds the pointers that the heap handed out and that were not given back,
each as often as it was handed out, and `contents` what the pages hold that the heap maps next. -/
structure Kernel where
  volume : Fat.Volume
  space : Space
  heap : Heap
  live : List Nat
  contents : Nat → Page
  manager : Manager
  manageInitialized : Bool

/-- The memory that a call finds without having stored to it, and what it leaves in the blocks that nobody reads. -/
structure Stale where
  path : ByteMem
  directory : Nat → List UInt8
  cluster : List UInt8
  nodeBytes : List UInt8
  pageDirectory : List UInt8
  pageTables : List UInt8
  node : Process
  programBreak : Nat

namespace Kernel

/-! ### The heap and its pages -/

/-- How many pages the heap can still map, at most `n`. -/
def roomFrom : Nat → Space → Nat
  | 0, _ => 0
  | n + 1, s =>
    match s.allocateHeapPage with
    | some (true, s) => roomFrom n s + 1
    | _ => 0

def room (s : Space) : Nat := roomFrom (Paging.KERNEL_HEAP_END - s.currHeapEnd) s

/-- The pages that can be mapped. -/
def pages (k : Kernel) : List Page := (List.range (room k.space)).map k.contents

/-- The pages behind the old end of the heap. -/
def grown (k : Kernel) (heap : Heap) : Nat := (heap.currHeapEnd - k.heap.currHeapEnd) / Kmalloc.PAGE_SIZE

/-- The pages that `kmalloc` asks for: those it got, and the one it did not get. -/
def asked (k : Kernel) (size r : Nat) (heap : Heap) : Nat :=
  if r ≠ 0 ∨ size = 0 ∨ Kmalloc.KERNEL_HEAP_END - Kmalloc.heapStart < size then k.grown heap else k.grown heap + 1

/-- The block at `r`, none for `NULL`. -/
def blockAt (r : Nat) : List Nat := if r = 0 then [] else [r]

/-- After a call that returned `r`. -/
def handedOut (k : Kernel) (r : Nat) (heap : Heap) (space : Space) : Kernel :=
  { k with
    space
    heap
    live := blockAt r ++ k.live
    contents := fun i => k.contents (i + k.grown heap) }

def kmalloc (k : Kernel) (size : Nat) : Option (Nat × Kernel) := do
  let (r, heap) ← k.heap.kmalloc size k.pages
  let (_, space) ← Space.kmalloc (k.asked size r heap) k.space
  some (r, k.handedOut r heap space)

def kmallocPages (k : Kernel) (pageAmount : Nat) : Option (Nat × Kernel) := do
  let (r, heap) ← k.heap.kmallocPages pageAmount k.pages
  let (_, space) ← k.space.kmallocPages pageAmount
  some (r, k.handedOut r heap space)

def kfree (k : Kernel) (addr : Nat) : Option Kernel := do
  let heap ← k.heap.kfree addr
  let space ← k.space.kfree (heap.currHeapEnd < k.heap.currHeapEnd)
  some { k with space, heap, live := k.live.diff (blockAt addr) }

/-- The bytes stored in the block at `addr`, `0` for none. -/
def fill (k : Kernel) (addr : Nat) (bytes : List UInt8) : Kernel :=
  if addr = 0 then k else { k with heap := { k.heap with bytes := ByteMem.writeBytes k.heap.bytes addr bytes } }

/-! ### The file -/

/-- The buffer of a call of `fat_find_dir_entry`, which does not check that it got one. -/
def directoryBuffer (o : Stale) (n : Nat) (k : Kernel) : Option Kernel := do
  let size := k.volume.fs.bytesPerCluster
  let (dir, k) ← k.kmalloc size
  if dir = 0 then none else (k.fill dir ((o.directory n).take size)).kfree dir

def directoryBuffers (o : Stale) : Nat → Kernel → Option Kernel
  | 0, k => some k
  | n + 1, k => do
    let k ← directoryBuffer o n k
    directoryBuffers o n k

def fatGetFileData (o : Stale) (k : Kernel) (path : List UInt8) : Option (Except Int Fat.FileData × Kernel) := do
  let result ← Fat.Volume.fatGetFileData o.path k.volume path
  let k ← directoryBuffers o (Fat.fileDataLookups o.path k.volume path) k
  some (result, k)

/-- `fat_read` from the start of the file to the block at `buffer`. -/
def fatRead (o : Stale) (k : Kernel) (file : Fat.DirEntry) (size buffer : Nat) : Option Kernel := do
  let (_, bytes) ← k.volume.fatRead file 0 size
  if file.isDirectory ∨ file.fileSize = 0 then some k
  else do
    let clusterSize := k.volume.fs.bytesPerCluster
    let (clusterBuffer, k) ← k.kmalloc clusterSize
    if clusterBuffer = 0 then some k
    else ((k.fill clusterBuffer (o.cluster.take clusterSize)).fill buffer bytes).kfree clusterBuffer

/-- The file at `elf_content`. -/
def file (k : Kernel) (elfContent elfLen : Nat) (hlen : elfLen ≤ 0x40000000) : Elf.File :=
  ⟨fun i => k.heap.bytes ((elfContent + i) % 2 ^ 32), elfLen, hlen⟩

instance (f : Elf.File) (page : Nat) : Decidable (f.Mapped page) := inferInstanceAs (Decidable (_ ∨ _))

/-- Only the heap is read, and only the pages of the process are written. -/
def reaches (k : Kernel) (elfContent : Nat) (f : Elf.File) : Elf.Access → Bool
  | .read offset n =>
    decide (∀ j < n, Kmalloc.heapStart ≤ (elfContent + (offset + j)) % 2 ^ 32 ∧
      (elfContent + (offset + j)) % 2 ^ 32 < k.heap.currHeapEnd)
  | .null => false
  | .write address n =>
    decide (∀ j < n, (address + j) % 2 ^ 32 < 0xC0000000 ∧ f.Mapped ((address + j) % 2 ^ 32 / Paging.PAGE_SIZE))

/-! ### The process -/

/-- Returns the program break. -/
def elfLoadProcess (o : Stale) (k : Kernel) (elfContent elfLen : Nat) (hlen : elfLen ≤ 0x40000000)
    (isKernelMode : Bool) : Option (Nat × Kernel) := do
  let f := k.file elfContent elfLen hlen
  let (processSize, reads) := f.elfGetSizeInMem
  if !reads.all (k.reaches elfContent f) then none
  else do
    let (processPageTables, k) ← k.kmallocPages (processSize / Paging.PAGE_SIZE / Paging.PAGES_PER_DIR + 1)
    let tables ← k.space.getPhysicalPage (processPageTables / Paging.PAGE_SIZE)
    let pageTablesPhysAddr := tables * Paging.PAGE_SIZE
    let k := k.fill processPageTables o.pageTables
    let f := k.file elfContent elfLen hlen
    let (allocated, space) ← k.space.allocateMultiplePages (f.entry / Paging.PAGE_SIZE)
      (processSize / Paging.PAGE_SIZE + 2) isKernelMode pageTablesPhysAddr
    let k := { k with space }
    if !allocated then do
      let k ← k.kfree processPageTables
      some (0, k)
    else do
      let (allocated, space) ← k.space.allocateMultiplePages Space.stackStart Paging.DEFAULT_STACK_PAGE_AMOUNT
        isKernelMode pageTablesPhysAddr
      let k := { k with space }
      if !allocated then do
        let space ← Space.deallocatePages (processSize / Paging.PAGE_SIZE + 1) (f.entry / Paging.PAGE_SIZE) k.space
        let k ← { k with space }.kfree processPageTables
        some (0, k)
      else
        let (programBreak, accesses) := f.loadSections o.programBreak
        if accesses.all (k.reaches elfContent f) then some (programBreak, k) else none

/-- A failing exit behind the assignment of the pid, the node and the directory given back. -/
def giveUp (k : Kernel) (blocks : List Nat) : Option (Bool × Kernel) := do
  let k ← blocks.foldlM kfree k
  let manager ← k.manager.createProcess (.failed true)
  some (false, { k with manager })

/-- `create_process_from_elf` from the new directory on. -/
def startProcess (o : Stale) (k : Kernel) (elfContent elfLen : Nat) (hlen : elfLen ≤ 0x40000000) (isKernelMode : Bool)
    (prevPd newProcessNode pageDirectory : Nat) : Option (Bool × Kernel) := do
  let pd := pageDirectory / Paging.PAGE_SIZE
  let space ← k.space.fillDirectory pd
  let k := { k with space }.fill pageDirectory o.pageDirectory
  let space ← k.space.loadPd pd
  let (programBreak, k) ← { k with space }.elfLoadProcess o elfContent elfLen hlen isKernelMode
  let space ← k.space.loadPd Space.kernelPd
  let k := { k with space }
  if programBreak = 0 then k.giveUp [pageDirectory, newProcessNode]
  else do
    let manager ← k.manager.createProcess (.created newProcessNode o.node)
    let space ← k.space.loadPd prevPd
    some (true, { k with space, manager })

def createProcessFromElf (o : Stale) (k : Kernel) (elfContent elfLen : Nat) (hlen : elfLen ≤ 0x40000000)
    (isKernelMode : Bool) : Option (Bool × Kernel) :=
  if !k.manageInitialized then some (false, k)
  else if !(k.file elfContent elfLen hlen).elfIsValidAndLoadable then some (false, k)
  else do
    let prevPd := k.space.currentPageDirectory
    let space ← k.space.loadPd Space.kernelPd
    let (newProcessNode, k) ← { k with space }.kmalloc sizeofProcessNode
    if newProcessNode = 0 then some (false, k)
    else do
      let k := k.fill newProcessNode (o.nodeBytes.take sizeofProcessNode)
      let (_, k) ← k.kmallocPages Paging.PROC_KERNEL_STACK_SIZE
      let (pageDirectory, k) ← k.kmallocPages 1
      if pageDirectory = 0 then k.giveUp [newProcessNode]
      else k.startProcess o elfContent elfLen hlen isKernelMode prevPd newProcessNode pageDirectory

/-- `create_process` from the allocation of `elf_content` on. -/
def createFromFile (o : Stale) (k : Kernel) (entry : Fat.DirEntry) (isKernelMode : Bool) : Option (Int × Kernel) := do
  let elfLen := entry.fileSize.toNat
  let (elfContent, k) ← k.kmalloc elfLen
  if elfContent = 0 ∧ elfLen ≠ 0 then none
  else do
    let k ← (k.fill elfContent (List.replicate elfLen 0)).fatRead o entry elfLen elfContent
    -- the heap has no larger block
    if hlen : elfLen ≤ 0x40000000 then
      if !(k.file elfContent elfLen hlen).elfIsValidAndLoadable then do
        let k ← k.kfree elfContent
        some (-1, k)
      else do
        let (created, k) ← k.createProcessFromElf o elfContent elfLen hlen isKernelMode
        let k ← k.kfree elfContent
        some (if created then 0 else -1, k)
    else none

/-- Returns what `create_process` returns.  Nobody keeps the pointer that `kmalloc(1)` returns. -/
def createProcess (o : Stale) (k : Kernel) (path : List UInt8) (isKernelMode : Bool) : Option (Int × Kernel) :=
  if !k.manageInitialized then some (0, k)
  else do
    let (data, k) ← k.fatGetFileData o path
    match data with
    | .error r => some (r, k)
    | .ok data => do
      let (_, k) ← k.kmalloc 1
      k.createFromFile o data.fileEntry isKernelMode

end Kernel

end DBolOS.Proc
