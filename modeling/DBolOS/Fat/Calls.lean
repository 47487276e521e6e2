import DBolOS.Fat.Ops
import DBolOS.Heap.Alloc

/-!
# Mounting and calling the file system

`fat_init` and the calls that change a mounted volume, as the steps of a machine.
-/

namespace DBolOS.Fat

/-! ### `fat_init` -/

def FAT16_SIGNATURE : UInt16 := 0xAA55

/-- The fields of the boot sector. -/
def bootSector (disk : ByteMem) : List UInt8 := ataRead disk 0 1

def word (sector : List UInt8) (i : Nat) : UInt16 := ByteMem.ofLe16 (sector.getD i 0) (sector.getD (i + 1) 0)

def byte (sector : List UInt8) (i : Nat) : UInt8 := sector.getD i 0

/-- The geometry in a boot sector; `none` for the division by a sector size of 0. -/
def parseBootSector (sector : List UInt8) : Option Fat16Fs :=
  if h : 0 < (word sector 11).toNat then
    some
      { bytesPerSector := (word sector 11).toNat
        sectorsPerCluster := (byte sector 13).toNat
        reservedSectors := (word sector 14).toNat
        numFats := (byte sector 16).toNat
        rootDirEntries := (word sector 17).toNat
        totalSectors := (word sector 19).toNat
        sectorsPerFat := (word sector 22).toNat
        bytesPerSector_pos := h
        bytesPerSector_lt := UInt16.toNat_lt _
        sectorsPerCluster_lt := UInt8.toNat_lt _
        reservedSectors_lt := UInt16.toNat_lt _
        numFats_lt := UInt8.toNat_lt _
        rootDirEntries_lt := UInt16.toNat_lt _
        totalSectors_lt := UInt16.toNat_lt _
        sectorsPerFat_lt := UInt16.toNat_lt _ }
  else none

/-- A buffer of `len` bytes. -/
abbrev Buffer (len : Nat) := { l : List UInt8 // l.length = len }

/-- The loop that reads the FAT, from its sector `i` on. -/
def loadFat (disk : ByteMem) (reservedSectors : Nat) {len : Nat} : Nat → Nat → Buffer len → Option (Buffer len)
  | 0, _, table => some table
  | n + 1, i, table =>
    let sector := ataRead disk (reservedSectors + i) 1
    if h : 512 * i + sector.length ≤ table.1.length then
      loadFat disk reservedSectors n (i + 1) ⟨ByteMem.splice table.1 (512 * i) sector, by
        rw [ByteMem.length_splice h, table.2]⟩
    else none

/-- `kmalloc` of `size` bytes, where the heap has the bytes `block` for them, or none; `none` for `NULL`. -/
def kmallocTable (block : Option ByteMem) (size : Nat) : Option ByteMem :=
  if size = 0 ∨ Kmalloc.KERNEL_HEAP_END - Kmalloc.heapStart < size then none else block

/-- The table before it is read: `kmalloc` returns the bytes `fresh`, and `memset` clears half of them. -/
def allocFat (fresh : ByteMem) (fs : Fat16Fs) : Buffer (fs.sectorsPerFat * fs.bytesPerSector) :=
  let cleared := fs.bytesPerSector / 2 * fs.sectorsPerFat
  ⟨List.replicate cleared 0 ++ fresh.readBytes cleared (fs.sectorsPerFat * fs.bytesPerSector - cleared), by
    have : cleared ≤ fs.sectorsPerFat * fs.bytesPerSector := by
      rw [Nat.mul_comm fs.sectorsPerFat]
      exact Nat.mul_le_mul_right _ (Nat.div_le_self _ _)
    simp only [List.length_append, List.length_replicate, ByteMem.length_readBytes]
    omega⟩

/-- `fat_init`, where the heap has the bytes `block` for the table, or none; `some none` when it returns false. -/
def fatInit (block : Option ByteMem) (disk : ByteMem) : Option (Option Volume) := do
  if word (bootSector disk) 510 ≠ FAT16_SIGNATURE then some none
  else
    let fs ← parseBootSector (bootSector disk)
    match kmallocTable block (fs.sectorsPerFat * fs.bytesPerSector) with
    | none => some none
    | some fresh =>
      let table ← loadFat disk fs.reservedSectors fs.sectorsPerFat 0 (allocFat fresh fs)
      some (some
        { fs := fs
          fatTable := ByteMem.words16 table.1
          disk := disk
          fatTable_length := by rw [ByteMem.length_words16, table.2]; rfl })

/-- The heap has a block for the table, if it has any memory. -/
def Fat16Fs.TableFits (fs : Fat16Fs) : Prop :=
  0 < fs.sectorsPerFat * fs.bytesPerSector ∧
    fs.sectorsPerFat * fs.bytesPerSector ≤ Kmalloc.KERNEL_HEAP_END - Kmalloc.heapStart

private theorem kmallocTable_eq_some {block : Option ByteMem} {size : Nat} {fresh : ByteMem} :
    kmallocTable block size = some fresh ↔
      (0 < size ∧ size ≤ Kmalloc.KERNEL_HEAP_END - Kmalloc.heapStart) ∧ block = some fresh := by
  unfold kmallocTable
  split
  · constructor
    · intro h
      cases h
    · rintro ⟨⟨hpos, hle⟩, -⟩
      omega
  · constructor
    · intro h
      exact ⟨by omega, h⟩
    · rintro ⟨-, h⟩
      exact h

/-- What `fat_init` did when it returns true. -/
theorem fatInit_eq_some {block : Option ByteMem} {disk : ByteMem} {v : Volume} (h : fatInit block disk = some (some v)) :
    word (bootSector disk) 510 = FAT16_SIGNATURE ∧ parseBootSector (bootSector disk) = some v.fs ∧ v.fs.TableFits ∧
      v.disk = disk ∧ ∃ fresh table, block = some fresh ∧
        loadFat disk v.fs.reservedSectors v.fs.sectorsPerFat 0 (allocFat fresh v.fs) = some table ∧
        v.fatTable = ByteMem.words16 table.1 := by
  unfold fatInit at h
  split at h
  · cases h
  rename_i hsig
  simp only [Option.bind_eq_bind, Option.bind_eq_some_iff] at h
  obtain ⟨fs, hfs, h⟩ := h
  cases hblock : kmallocTable block (fs.sectorsPerFat * fs.bytesPerSector) with
  | none =>
    rw [hblock] at h
    cases h
  | some fresh =>
    rw [hblock] at h
    simp only [Option.bind_eq_some_iff] at h
    obtain ⟨table, hload, hv⟩ := h
    cases hv
    obtain ⟨hfits, hsome⟩ := kmallocTable_eq_some.1 hblock
    exact ⟨not_not.1 hsig, hfs, hfits, rfl, fresh, table, hsome, hload, rfl⟩

/-- A boot sector with a table that is allocated and read is mounted. -/
theorem fatInit_of_loadFat {disk fresh : ByteMem} {fs : Fat16Fs} (hsig : word (bootSector disk) 510 = FAT16_SIGNATURE)
    (hfs : parseBootSector (bootSector disk) = some fs) (hfits : fs.TableFits)
    {table : Buffer (fs.sectorsPerFat * fs.bytesPerSector)}
    (hload : loadFat disk fs.reservedSectors fs.sectorsPerFat 0 (allocFat fresh fs) = some table) :
    ∃ v, fatInit (some fresh) disk = some (some v) ∧ v.fs = fs ∧ v.disk = disk ∧ v.fatTable = ByteMem.words16 table.1 := by
  have hblock : kmallocTable (some fresh) (fs.sectorsPerFat * fs.bytesPerSector) = some fresh :=
    kmallocTable_eq_some.2 ⟨hfits, rfl⟩
  simp only [fatInit, hsig, ne_eq, not_true_eq_false, ↓reduceIte, hfs, Option.bind_eq_bind, Option.bind_some, hblock,
    hload]
  exact ⟨_, rfl, rfl, rfl, rfl⟩

/-! ### Calls -/

/-- A call that changes the volume.  The stack of a call by path holds the bytes `stale`. -/
inductive Call
  | createFile (stale : ByteMem) (path : List UInt8)
  | createDirectory (stale : ByteMem) (path : List UInt8)
  | deleteFile (stale : ByteMem) (path : List UInt8)
  | deleteDir (stale : ByteMem) (path : List UInt8)
  | rename (stale : ByteMem) (path newName : List UInt8)
  | write (file parentDir : DirEntry) (offset : UInt32) (buffer : List UInt8)
  | truncate (file : FileData) (size : UInt32)

namespace Volume

/-- The return value of a call and the volume after it. -/
def perform (v : Volume) : Call → Option (Int × Volume)
  | .createFile stale path => v.fatCreateFile stale path
  | .createDirectory stale path => v.fatCreateDirectory stale path
  | .deleteFile stale path => v.fatDeleteFile stale path
  | .deleteDir stale path => v.fatDeleteDir stale path
  | .rename stale path newName => v.fatRename stale path newName
  | .write file parentDir offset buffer => do
    let (ret, _, v) ← v.fatWrite file parentDir offset.toNat buffer
    some (ret, v)
  | .truncate file size => do
    let (ret, _, v) ← v.fatTruncate file size.toNat
    some (ret, v)

def step (v : Volume) (c : Call) : Option Volume := Prod.snd <$> v.perform c

end Volume

/-! ### A small disk -/

/-- The image of a volume with one FAT sector and clusters of one sector. -/
def image (fat : List UInt16) (cluster : Nat → List UInt8) : ByteMem := fun a =>
  if a < 512 then
    if a < 510 then [0, 2, 1, 1, 0, 1, 16, 0, 0, 1, 0, 1, 0].getD (a - 11) 0 else if a = 510 then 0x55 else 0xAA
  else if a < 1024 then (fat.flatMap ByteMem.le16).getD (a - 512) 0
  else (cluster (a / 512 - 2)).getD (a % 512) 0

/-- A file `a` of 600 bytes in clusters 2 and 3. -/
def twoClusterFile : DirEntry :=
  { DirEntry.zero with name := DirEntry.nameOf [0x61], startCluster := 2, fileSize := 600 }

def twoClusterDisk : ByteMem :=
  image [0xFFF8, 0xFFFF, 3, 0xFFF8] fun c => if c = 0 then twoClusterFile.toBytes else []

end DBolOS.Fat
