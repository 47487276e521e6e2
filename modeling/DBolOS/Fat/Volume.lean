import DBolOS.CString

/-!
# The FAT volume

The geometry, the directory records, the in-memory FAT and the disk of `fat.c`, with the disk transfers of `ata.c`.
A drive is present, so every transfer succeeds, and `kmalloc` returns a buffer.  An operation without a defined result
(an access outside an object, a loop that never ends) is `none`.
-/

namespace DBolOS.Fat

/-- The geometry parsed by `fat_init`, which divides by `bytes_per_sector`.  The start of the data area is
`rootDirStart` below. -/
structure Fat16Fs where
  bytesPerSector : Nat
  sectorsPerCluster : Nat
  reservedSectors : Nat
  numFats : Nat
  rootDirEntries : Nat
  totalSectors : Nat
  sectorsPerFat : Nat
  bytesPerSector_pos : 0 < bytesPerSector
  bytesPerSector_lt : bytesPerSector < 2 ^ 16
  sectorsPerCluster_lt : sectorsPerCluster < 2 ^ 8
  reservedSectors_lt : reservedSectors < 2 ^ 16
  numFats_lt : numFats < 2 ^ 8
  rootDirEntries_lt : rootDirEntries < 2 ^ 16
  totalSectors_lt : totalSectors < 2 ^ 16
  sectorsPerFat_lt : sectorsPerFat < 2 ^ 16

namespace Fat16Fs

def rootDirStart (fs : Fat16Fs) : Nat := fs.reservedSectors + fs.numFats * fs.sectorsPerFat

def bytesPerCluster (fs : Fat16Fs) : Nat := fs.bytesPerSector * fs.sectorsPerCluster

def totalFatEntries (fs : Fat16Fs) : Nat := fs.sectorsPerFat * fs.bytesPerSector / 2

/-- Directory records in a cluster; a record has 32 bytes. -/
def slotsPerCluster (fs : Fat16Fs) : Nat := fs.bytesPerSector / 32 * fs.sectorsPerCluster

-- The bounds of a volume with sectors of 512 bytes and one sector a cluster.

theorem sector_pos : 0 < 512 := by decide

theorem sector_lt : 512 < 2 ^ 16 := by decide

theorem one_lt_byte : 1 < 2 ^ 8 := by decide

theorem one_lt_word : 1 < 2 ^ 16 := by decide

end Fat16Fs

/-! ### Directory records -/

def filenameSize : Nat := 11

def attrDirectory : UInt8 := 0x10

/-- `FAT16_DirEntry`. -/
structure DirEntry where
  name : Vector UInt8 11
  attr : UInt8
  caseAttr : UInt8
  creationTimeMs : UInt8
  creationTime : UInt16
  creationDate : UInt16
  lastAccessDate : UInt16
  reserved : UInt16
  lastModificationTime : UInt16
  lastModificationDate : UInt16
  startCluster : UInt16
  fileSize : UInt32
  deriving DecidableEq

namespace DirEntry

def zero : DirEntry := ⟨Vector.replicate 11 0, 0, 0, 0, 0, 0, 0, 0, 0, 0, 0, 0⟩

def isDirectory (e : DirEntry) : Bool := e.attr &&& attrDirectory != 0

/-- The 32 bytes of the record in memory. -/
def toBytes (e : DirEntry) : List UInt8 :=
  e.name.toList ++ ([e.attr, e.caseAttr, e.creationTimeMs] ++ ByteMem.le16 e.creationTime ++
    ByteMem.le16 e.creationDate ++ ByteMem.le16 e.lastAccessDate ++ ByteMem.le16 e.reserved ++
    ByteMem.le16 e.lastModificationTime ++ ByteMem.le16 e.lastModificationDate ++ ByteMem.le16 e.startCluster ++
    ByteMem.le32 e.fileSize)

def ofBytes (bs : List UInt8) : DirEntry :=
  let b := fun i => bs.getD i 0
  { name := Vector.ofFn fun i => b i
    attr := b 11
    caseAttr := b 12
    creationTimeMs := b 13
    creationTime := ByteMem.ofLe16 (b 14) (b 15)
    creationDate := ByteMem.ofLe16 (b 16) (b 17)
    lastAccessDate := ByteMem.ofLe16 (b 18) (b 19)
    reserved := ByteMem.ofLe16 (b 20) (b 21)
    lastModificationTime := ByteMem.ofLe16 (b 22) (b 23)
    lastModificationDate := ByteMem.ofLe16 (b 24) (b 25)
    startCluster := ByteMem.ofLe16 (b 26) (b 27)
    fileSize := ByteMem.ofLe32 (b 28) (b 29) (b 30) (b 31) }

/-- The name field filled by `strncpy` after it was zeroed. -/
def nameOf (s : List UInt8) : Vector UInt8 11 := Vector.ofFn fun i => s.getD i 0

@[simp] theorem length_toBytes (e : DirEntry) : e.toBytes.length = 32 := by
  simp [toBytes]

theorem ofBytes_toBytes (e : DirEntry) : ofBytes e.toBytes = e := by
  obtain ⟨name, attr, _, _, _, _, _, _, _, _, start, size⟩ := e
  have hname : ∀ (i : Nat) (h : i < 11) (l : List UInt8), (name.toList ++ l).getD i 0 = name[i] := by
    intro i h l
    rw [List.getD_eq_getElem?_getD, List.getElem?_append_left (by simpa using h)]
    simp [h]
  have hrest : ∀ (i : Nat) (l : List UInt8), (name.toList ++ l).getD (11 + i) 0 = l.getD i 0 := by
    intro i l
    rw [List.getD_eq_getElem?_getD, List.getElem?_append_right (by simp), List.getD_eq_getElem?_getD]
    simp
  simp only [ofBytes, toBytes, DirEntry.mk.injEq]
  refine ⟨?_, hrest 0 _, hrest 1 _, hrest 2 _, ?_, ?_, ?_, ?_, ?_, ?_, ?_, ?_⟩
  · apply Vector.ext
    intro i hi
    rw [Vector.getElem_ofFn]
    exact hname i hi _
  · rw [hrest 3, hrest 4]; exact ByteMem.ofLe16_le16 _
  · rw [hrest 5, hrest 6]; exact ByteMem.ofLe16_le16 _
  · rw [hrest 7, hrest 8]; exact ByteMem.ofLe16_le16 _
  · rw [hrest 9, hrest 10]; exact ByteMem.ofLe16_le16 _
  · rw [hrest 11, hrest 12]; exact ByteMem.ofLe16_le16 _
  · rw [hrest 13, hrest 14]; exact ByteMem.ofLe16_le16 _
  · rw [hrest 15, hrest 16]; exact ByteMem.ofLe16_le16 _
  · rw [hrest 17, hrest 18, hrest 19, hrest 20]; exact ByteMem.ofLe32_le32 _

theorem toBytes_ofBytes {bs : List UInt8} (h : bs.length = 32) : (ofBytes bs).toBytes = bs := by
  have hname : (Vector.ofFn fun i : Fin 11 => bs.getD i 0).toList = bs.take 11 := by
    apply List.ext_getElem
    · simp [h]
    · intro i h1 h2
      simp only [Vector.length_toList] at h1
      rw [Vector.getElem_toList, Vector.getElem_ofFn, List.getElem_take, List.getD_eq_getElem?_getD,
        List.getElem?_eq_getElem (by omega), Option.getD_some]
  have hget : ∀ i, i < 32 → bs.drop i = bs.getD i 0 :: bs.drop (i + 1) := by
    intro i hi
    rw [List.drop_eq_getElem_cons (by omega), List.getD_eq_getElem?_getD, List.getElem?_eq_getElem (by omega),
      Option.getD_some]
  simp only [toBytes, ofBytes, hname, ByteMem.le16_ofLe16, ByteMem.le32_ofLe32]
  conv => rhs; rw [← List.take_append_drop 11 bs]
  congr 1
  iterate 21 rw [hget _ (by decide)]
  rw [List.drop_eq_nil_of_le (by omega)]
  rfl

end DirEntry

/-! ### The mounted volume -/

/-- The mounted file system: `fat16_fs`, the heap-allocated `fat_table` and the disk behind the ATA driver. -/
structure Volume where
  fs : Fat16Fs
  fatTable : List UInt16
  disk : ByteMem
  fatTable_length : fatTable.length = fs.totalFatEntries

/-- `root_dir`, filled in by `fat_init`. -/
def rootDir (fs : Fat16Fs) : DirEntry :=
  { DirEntry.zero with
    name := DirEntry.nameOf [0x7e]
    attr := attrDirectory
    fileSize := UInt32.ofNat (fs.rootDirEntries * 32) }

theorem rootDir_isDirectory (fs : Fat16Fs) : (rootDir fs).isDirectory :=
  show (attrDirectory &&& attrDirectory != 0) = true by decide

/-! ### Disk transfers -/

/-- Address of a sector: the drive registers take 28 bits of sector number and the drive bit. -/
def ataAddr (sector : Nat) : Nat := sector % 2 ^ 29 * 512

def ataRead (d : ByteMem) (sector count : Nat) : List UInt8 := d.readBytes (ataAddr sector) (512 * count)

def ataWrite (d : ByteMem) (sector count : Nat) (buffer : List UInt8) : Option ByteMem :=
  if 512 * count ≤ buffer.length then some (d.writeBytes (ataAddr sector) (buffer.take (512 * count))) else none

theorem ataAddr_of_lt {sector : Nat} (h : sector < 2 ^ 29) : ataAddr sector = 512 * sector := by
  unfold ataAddr
  rw [Nat.mod_eq_of_lt h, Nat.mul_comm]

theorem ataWrite_eq_some {d d' : ByteMem} {sector count : Nat} {buffer : List UInt8}
    (h : ataWrite d sector count buffer = some d') :
    512 * count ≤ buffer.length ∧ d' = d.writeBytes (ataAddr sector) (buffer.take (512 * count)) := by
  simp only [ataWrite] at h
  split at h
  · rename_i hlen
    exact ⟨hlen, (Option.some.inj h).symm⟩
  · cases h

namespace Volume

def clusterSector (v : Volume) (clusterNum : Nat) : Nat :=
  (clusterNum * v.fs.sectorsPerCluster + v.fs.rootDirStart) % 2 ^ 32

/-- The buffer after the transfer. -/
def fatReadDataCluster (v : Volume) (clusterNum : Nat) (buffer : List UInt8) : Option (List UInt8) :=
  let data := ataRead v.disk (v.clusterSector clusterNum) v.fs.sectorsPerCluster
  if data.length ≤ buffer.length then some (ByteMem.splice buffer 0 data) else none

def fatWriteDataCluster (v : Volume) (clusterNum : Nat) (buffer : List UInt8) : Option Volume := do
  let disk ← ataWrite v.disk (v.clusterSector clusterNum) v.fs.sectorsPerCluster buffer
  some { v with disk := disk }

/-- A buffer of one cluster, zeroed. -/
def zeroBuffer (v : Volume) : List UInt8 := List.replicate v.fs.bytesPerCluster 0

/-! ### The FAT -/

/-- `fat_table[i] = x`. -/
def storeFat (v : Volume) (i : Nat) (x : UInt16) : Option Volume :=
  if i < v.fatTable.length then
    some { v with fatTable := v.fatTable.set i x, fatTable_length := by simp [v.fatTable_length] }
  else none

/-- Write the FAT sector of entry `i` back to disk. -/
def writeFatSector (v : Volume) (i : Nat) : Option Volume := do
  let k := i * 2 / v.fs.bytesPerSector
  let sector := (v.fatTable.drop (k * v.fs.bytesPerSector / 2)).flatMap ByteMem.le16
  let disk ← ataWrite v.disk (v.fs.reservedSectors + k) 1 sector
  some { v with disk := disk }

/-! ### What the primitives change -/

variable {v w : Volume}

/-- What a store does to the volume. -/
theorem storeFat_eq_some {i : Nat} {x : UInt16} (h : v.storeFat i x = some w) :
    i < v.fatTable.length ∧ w.fs = v.fs ∧ w.fatTable = v.fatTable.set i x ∧ w.disk = v.disk := by
  simp only [storeFat] at h
  split at h
  · rename_i hi
    cases h
    exact ⟨hi, rfl, rfl, rfl⟩
  · cases h

theorem writeFatSector_eq_some {i : Nat} (h : v.writeFatSector i = some w) :
    w.fs = v.fs ∧ w.fatTable = v.fatTable ∧
      ataWrite v.disk (v.fs.reservedSectors + i * 2 / v.fs.bytesPerSector) 1
        ((v.fatTable.drop (i * 2 / v.fs.bytesPerSector * v.fs.bytesPerSector / 2)).flatMap ByteMem.le16) = some w.disk := by
  simp only [writeFatSector, Option.bind_eq_bind, Option.bind_eq_some_iff] at h
  obtain ⟨disk, hwrite, hw⟩ := h
  cases hw
  exact ⟨rfl, rfl, hwrite⟩

theorem fatWriteDataCluster_eq_some {c : Nat} {buffer : List UInt8} (h : v.fatWriteDataCluster c buffer = some w) :
    w.fs = v.fs ∧ w.fatTable = v.fatTable ∧
      ataWrite v.disk (v.clusterSector c) v.fs.sectorsPerCluster buffer = some w.disk := by
  simp only [fatWriteDataCluster, Option.bind_eq_bind, Option.bind_eq_some_iff] at h
  obtain ⟨disk, hwrite, hw⟩ := h
  cases hw
  exact ⟨rfl, rfl, hwrite⟩

end Volume

def clusterChainEnd : UInt16 := 0xFFF8

def freeCluster : UInt16 := 0

def isEndOfClusterChain (cluster : UInt16) : Bool := clusterChainEnd ≤ cluster

end DBolOS.Fat
