import DBolOS.Fat.Calls

/-!
# The host's loader

`fs_loader/fat_loader.c`, which puts a file into a volume image on the host.  It is a copy of the kernel's driver, linked
against the host's string functions and with changes in `fat_create`, `fat_get_file_data` and `fat_write`.  Its functions
for clusters and for the FAT are the kernel's, and so are `fat_add_dir_entry` and `fat_update_dir_entry`: `strcmp` and the
comparison with the empty name (`nameMatches_empty`) have one meaning in both libraries.  Reads and writes of the image
succeed.
-/

namespace DBolOS.Fat.Loader

open Volume

/-! ### The host's string functions -/

/-- At most `num` bytes are compared. -/
def strncmp : Nat → List UInt8 → List UInt8 → Option Int
  | 0, _, _ => some 0
  | num + 1, a :: s, b :: t => if a ≠ 0 ∧ a = b then strncmp num s t else some (a.toNat - b.toNat)
  | _, _, _ => none

/-- The bytes `strcpy` stores: the source up to its terminator. -/
def strcpy : List UInt8 → Option (List UInt8)
  | a :: s => if a = 0 then some [0] else (a :: ·) <$> strcpy s
  | [] => none

/-- Index of the last `c`, with `i` the index of the head and `ret` the last one found before it. -/
def strrchr (c : UInt8) : List UInt8 → Nat → Option Nat → Option (Option Nat)
  | a :: s, i, ret => if a = 0 then some ret else strrchr c s (i + 1) (if a = c then some i else ret)
  | [], _, _ => none

/-! ### Return codes -/

inductive ReturnCode
  | SUCCESS
  | GENERAL_ERROR
  | DIR_NOT_FOUND
  | FILE_NOT_FOUND
  | FILE_ALREADY_EXISTS
  | DIR_NAME_EXCEEDS_LENGTH
  | FILE_NAME_EXCEEDS_LENGTH
  | INVALID_FILE_NAME
  | DIRECTORY_ISNT_EMPTY
  | CANT_ALLOCATE_SPACE
  deriving DecidableEq

/-! ### `fat_init` -/

/-- Size of the buffer that `fat_init` allocates for the table. -/
def fatTableSize : Nat := 256 * 256

/-- `fat_table` before it is read: `malloc` returns the bytes `fresh`, and `memset` clears the first ones. -/
def allocFat (fresh : ByteMem) (fs : Fat16Fs) : Option (Buffer fatTableSize) :=
  let cleared := fs.bytesPerSector / 2 * fs.sectorsPerFat
  if h : cleared ≤ fatTableSize then
    some ⟨List.replicate cleared 0 ++ fresh.readBytes cleared (fatTableSize - cleared), by
      simp only [List.length_append, List.length_replicate, ByteMem.length_readBytes]
      omega⟩
  else none

/-- `fat_init`; `some none` when it returns false.  The entries of the buffer behind the FAT have no defined value, and the
table is the ones before them. -/
def fatInit (fresh disk : ByteMem) : Option (Option Volume) := do
  if word (bootSector disk) 510 ≠ FAT16_SIGNATURE then some none
  else
    let fs ← parseBootSector (bootSector disk)
    let buffer ← allocFat fresh fs
    let table ← loadFat disk fs.reservedSectors fs.sectorsPerFat 0 buffer
    if h : fs.sectorsPerFat * fs.bytesPerSector ≤ fatTableSize then
      some (some
        { fs := fs
          fatTable := ByteMem.words16 (table.1.take (fs.sectorsPerFat * fs.bytesPerSector))
          disk := disk
          fatTable_length := by
            rw [ByteMem.length_words16, List.length_take, table.2, Nat.min_eq_left h]
            rfl })
    else none

/-! ### Directories and paths -/

/-- `!strncmp(dir[i].name, name, FAT16_FILENAME_SIZE)`. -/
def nameMatches (name : List UInt8) (e : DirEntry) : Option Bool := (· == 0) <$> strncmp filenameSize e.toBytes name

def fatFindDirEntry (v : Volume) (name : List UInt8) (currentDir : DirEntry) : Option (Option DirEntry) := do
  let hit ← v.scanDir (nameMatches name) currentDir
  some (hit.map Hit.entry)

/-- One iteration of the loop of `fat_find_dir_entry_from_path`: its result, or the index and the record that the loop
goes on with. -/
def resolveStep (v : Volume) (path : List UInt8) (startIndex : Nat) (currDirEntry : DirEntry) :
    Option (Except ReturnCode DirEntry ⊕ Nat × DirEntry) :=
  let len := nameLen (filenameSize + 1) (path.drop startIndex)
  let index := startIndex + len
  if filenameSize < len then some (.inl (.error .DIR_NAME_EXCEEDS_LENGTH))
  else
    let sub := (path.drop startIndex).take len
    if startIndex = 0 then
      if sub ≠ [] ∧ sub ≠ [tilde] then some (.inl (.error .DIR_NOT_FOUND)) else some (.inr (index + 1, currDirEntry))
    else if path.length ≤ index + 1 then do
      match ← fatFindDirEntry v (subName sub) currDirEntry with
      | none => some (.inl (.error (if index + 1 = path.length then .DIR_NOT_FOUND else .FILE_NOT_FOUND)))
      | some entry => some (.inl (.ok entry))
    else if !currDirEntry.isDirectory then some (.inl (.error .DIR_NOT_FOUND))
    else do
      match ← fatFindDirEntry v (subName sub) currDirEntry with
      | none => some (.inl (.error .DIR_NOT_FOUND))
      | some entry => some (.inr (index + 1, entry))

def resolveFrom (v : Volume) (path : List UInt8) : Nat → Nat → DirEntry → Option (Except ReturnCode DirEntry)
  | 0, _, _ => none
  | n + 1, startIndex, currDirEntry => do
    match ← resolveStep v path startIndex currDirEntry with
    | .inl result => some result
    | .inr (index, entry) => resolveFrom v path n index entry

def fatFindDirEntryFromPath (v : Volume) (path : List UInt8) : Option (Except ReturnCode DirEntry) :=
  if path = [tilde, slash] ∨ path = [slash] ∨ path = [dot, slash] then some (.ok (rootDir v.fs))
  else resolveFrom v path (path.length + 2) 0 (rootDir v.fs)

/-- `strcpy(path_copy, path)` and the last slash of the copy. -/
def splitPath (path : List UInt8) : Option (List UInt8 × Option Nat) := do
  let pathCopy ← strcpy (path ++ [0])
  if pathCopySize < pathCopy.length then none
  else
    let lastSlash ← strrchr slash pathCopy 0 none
    some (pathCopy, lastSlash)

def getParentDir (path : List UInt8) : Option (List UInt8) := do
  let (pathCopy, lastSlash) ← splitPath path
  let directory := match lastSlash with
    | some i => (cstr pathCopy).take i
    | none => cstr pathCopy
  some (if directory = [] then [slash] else directory)

/-- The name in a zeroed buffer of 12 bytes. -/
def getBaseName (path : List UInt8) : Option (List UInt8) := do
  let (pathCopy, lastSlash) ← splitPath path
  let baseName := match lastSlash with
    | some i => pathCopy.drop (i + 1)
    | none => pathCopy
  let name ← strcpy baseName
  if filenameSize + 1 < name.length then none
  else some (name ++ List.replicate (filenameSize + 1 - name.length) 0)

/-! ### Creation -/

/-- The second `parent_dir.file_size++` and the update of the record. -/
def updateParentCount (v : Volume) (directory : List UInt8) (parentDir : DirEntry) :
    Option (ReturnCode × Volume) := do
  let parentParent ← getParentDir directory
  match ← fatFindDirEntryFromPath v parentParent with
  | .error err => some (err, v)
  | .ok parentParentDir =>
    let parentDir := { parentDir with fileSize := parentDir.fileSize + 1 }
    let (_, v) ← v.fatUpdateDirEntry parentDir.toBytes parentParentDir parentDir
    some (.SUCCESS, v)

/-- The record of a new file or directory; the size of a directory stays 0. -/
def newEntry (dirName : List UInt8) (startCluster : UInt16) (isDirectory : Bool) : DirEntry :=
  { DirEntry.zero with
    name := DirEntry.nameOf (cstr dirName)
    startCluster := startCluster
    attr := if isDirectory then attrDirectory else 0 }

/-- Give up a creation whose record could not be stored. -/
def undoCreate (v : Volume) (dir : DirEntry) : Option (ReturnCode × Volume) := do
  let v ← v.fatFreeChain dir.startCluster.toNat
  some (.GENERAL_ERROR, v)

/-- `fat_create` after its checks; as in the kernel, the test of `dir.start_cluster` against `-1` never holds. -/
def createEntry (v : Volume) (directory dirName : List UInt8) (parentDir : DirEntry) (isDirectory : Bool) :
    Option (ReturnCode × Volume) := do
  let startCluster : UInt16 := match v.fatFindFree with
    | some i => UInt16.ofNat i
    | none => 0xFFFF
  let dir := newEntry dirName startCluster isDirectory
  let v ← v.fatUpdateChain startCluster.toNat startCluster.toNat
  match ← v.fatAddDirEntry parentDir dir with
  | (false, v) => undoCreate v dir
  | (true, v) =>
    match ← v.addDotEntries parentDir dir isDirectory with
    | (false, v) => undoCreate v dir
    | (true, v) => updateParentCount v directory { parentDir with fileSize := parentDir.fileSize + 1 }

def fatCreate (v : Volume) (path : List UInt8) (isDirectory : Bool) : Option (ReturnCode × Volume) := do
  let dirName ← getBaseName path
  let directory ← getParentDir path
  if !checkFileName (cstr dirName) then some (.INVALID_FILE_NAME, v)
  else
    match ← fatFindDirEntryFromPath v directory with
    | .error err => some (err, v)
    | .ok parentDir =>
      if !parentDir.isDirectory then some (.DIR_NOT_FOUND, v)
      else
        match ← fatFindDirEntry v dirName parentDir with
        | some _ => some (.FILE_ALREADY_EXISTS, v)
        | none => createEntry v directory dirName parentDir isDirectory

def fatCreateFile (v : Volume) (path : List UInt8) : Option (ReturnCode × Volume) := fatCreate v path false

def fatCreateDirectory (v : Volume) (path : List UInt8) : Option (ReturnCode × Volume) := fatCreate v path true

/-! ### Lookup -/

/-- The data of a file; zeroes when the path names none, and a zero parent when that is not found. -/
def fatGetFileData (v : Volume) (path : List UInt8) : Option FileData := do
  match ← fatFindDirEntryFromPath v path with
  | .error _ => some ⟨DirEntry.zero, DirEntry.zero⟩
  | .ok file =>
    if file.isDirectory then some ⟨DirEntry.zero, DirEntry.zero⟩
    else
      let parentPath ← getParentDir path
      match ← fatFindDirEntryFromPath v parentPath with
      | .error _ => some ⟨file, DirEntry.zero⟩
      | .ok parentEntry => some ⟨file, parentEntry⟩

/-! ### Writing -/

/-- Set the entry `i` in one of the FATs on disk: its sector is read, changed and written back. -/
def patchFat (v : Volume) (i : Nat) (x : UInt16) (fat : Nat) : Option Volume := do
  let fatSector := v.fs.reservedSectors + fat * v.fs.sectorsPerFat + i * 2 / v.fs.bytesPerSector
  let sectorOffset := i * 2 % v.fs.bytesPerSector
  let fatSectorData := ataRead v.disk fatSector 1
  if fatSectorData.length < sectorOffset + 2 then none
  else
    let disk ← ataWrite v.disk fatSector 1 (ByteMem.splice fatSectorData sectorOffset (ByteMem.le16 x))
    some { v with disk := disk }

/-- Extend a chain behind `currentCluster`, in memory and in every FAT on disk; the new cluster, or `none` when there is
no free one. -/
def appendCluster (v : Volume) (currentCluster : Nat) : Option (Option Nat × Volume) :=
  match v.fatFindFree with
  | none => some (none, v)
  | some newCluster => do
    let v ← v.storeFat currentCluster (UInt16.ofNat newCluster)
    let v ← v.storeFat newCluster clusterChainEnd
    let v ← (List.range v.fs.numFats).foldlM (fun v fat => do
      let v ← patchFat v currentCluster (UInt16.ofNat newCluster) fat
      patchFat v newCluster clusterChainEnd fat) v
    some (some newCluster, v)

/-- The first cluster of a file that has none, again in every FAT; `none` when there is no free one. -/
def firstCluster (v : Volume) (file : DirEntry) : Option (Option DirEntry × Volume) :=
  if file.startCluster ≠ 0 then some (some file, v)
  else
    match v.fatFindFree with
    | none => some (none, v)
    | some currentCluster => do
      let v ← v.storeFat currentCluster clusterChainEnd
      let v ← (List.range v.fs.numFats).foldlM (fun v fat => patchFat v currentCluster clusterChainEnd fat) v
      some (some { file with startCluster := UInt16.ofNat currentCluster }, v)

/-- The loop to the starting cluster; `none` when a chain cannot be extended.  It extends behind an end marker, which is
no index of the table. -/
def writeSeek : Nat → Volume → Nat → Option (Option Nat × Volume)
  | 0, v, currentCluster => some (some currentCluster, v)
  | n + 1, v, currentCluster =>
    if clusterChainEnd.toNat ≤ currentCluster then do
      match ← appendCluster v currentCluster with
      | (none, v) => some (none, v)
      | (some newCluster, v) => writeSeek n v newCluster
    else do
      let x ← v.fatTable[currentCluster]?
      writeSeek n v x.toNat

/-- The loop of `fat_write`; the number of bytes written. -/
def writeLoop : Nat → Volume → Nat → Nat → List UInt8 → List UInt8 → Option (Nat × Volume)
  | 0, v, _, _, buffer, _ => if buffer = [] then some (0, v) else none
  | n + 1, v, currentCluster, clusterOffset, buffer, clusterBuffer =>
    if buffer = [] then some (0, v)
    else do
      let clusterBuffer ← v.loadCluster currentCluster clusterOffset buffer.length clusterBuffer
      let bytesToWrite := min (v.fs.bytesPerCluster - clusterOffset) buffer.length
      let clusterBuffer := ByteMem.splice clusterBuffer clusterOffset (buffer.take bytesToWrite)
      let v ← v.fatWriteDataCluster currentCluster clusterBuffer
      if bytesToWrite < buffer.length then
        let x ← v.fatTable[currentCluster]?
        if isEndOfClusterChain x then
          match ← appendCluster v currentCluster with
          | (none, v) => some (bytesToWrite, v)
          | (some newCluster, v) =>
            let (written, v) ← writeLoop n v newCluster 0 (buffer.drop bytesToWrite) clusterBuffer
            some (bytesToWrite + written, v)
        else
          let (written, v) ← writeLoop n v x.toNat 0 (buffer.drop bytesToWrite) clusterBuffer
          some (bytesToWrite + written, v)
      else some (bytesToWrite, v)

/-- The results are the return value, `*file` and the volume. -/
def fatWrite (v : Volume) (file parentDir : DirEntry) (offset : Nat) (buffer : List UInt8) :
    Option (Int × DirEntry × Volume) :=
  if file.isDirectory then some (-1, file, v)
  else
    let bytesPerCluster := v.fs.bytesPerCluster
    if bytesPerCluster = 0 then none
    else do
      match ← firstCluster v file with
      | (none, v) => some (-1, file, v)
      | (some file, v) =>
        match ← writeSeek (offset / bytesPerCluster) v file.startCluster.toNat with
        | (none, v) => some (-1, file, v)
        | (some cluster, v) =>
          let (written, v) ←
            writeLoop (buffer.length / bytesPerCluster + 2) v cluster (offset % bytesPerCluster) buffer v.zeroBuffer
          let newSize := (offset + written) % 2 ^ 32
          if file.fileSize.toNat < newSize then
            let file := { file with fileSize := UInt32.ofNat newSize }
            let (_, v) ← v.fatUpdateDirEntry file.toBytes parentDir file
            some (Int.bmod written (2 ^ 32), file, v)
          else some (Int.bmod written (2 ^ 32), file, v)

end DBolOS.Fat.Loader
