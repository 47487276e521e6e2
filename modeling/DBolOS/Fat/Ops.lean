import DBolOS.Fat.Path

/-!
# Operations on files and directories

The interface functions of `fat.c`: creation, deletion and renaming by path, and reading, writing and truncating the
file of a directory record.  `fat_create_file` and `fat_create_directory` fall off their end; their value is that of
`fat_create`, left in the return register.
-/

namespace DBolOS.Fat

/-- `FileData`. -/
structure FileData where
  fileEntry : DirEntry
  parentEntry : DirEntry
  deriving DecidableEq

namespace Volume

/-! ### Creation -/

/-- Write the changed record of a directory into the directory that `directory` names as its parent. -/
def updateParentCount (stale : ByteMem) (v : Volume) (directory : List UInt8) (parentDir : DirEntry) :
    Option (Int × Volume) := do
  let parentParent ← getParentDir stale directory
  match ← fatFindDirEntryFromPath v parentParent with
  | .error err => some (err, v)
  | .ok parentParentDir =>
    let (_, v) ← v.fatUpdateDirEntry parentDir.toBytes parentParentDir parentDir
    some (SUCCESS, v)

def dotEntry (name : List UInt8) (startCluster : UInt16) : DirEntry :=
  { DirEntry.zero with name := DirEntry.nameOf name, startCluster := startCluster, attr := attrDirectory }

/-- The `.` and `..` records of a new directory. -/
def addDotEntries (v : Volume) (parentDir dir : DirEntry) (isDirectory : Bool) : Option (Bool × Volume) :=
  if isDirectory then do
    match ← v.fatAddDirEntry dir (dotEntry [dot] dir.startCluster) with
    | (false, v) => some (false, v)
    | (true, v) => v.fatAddDirEntry dir (dotEntry [dot, dot] parentDir.startCluster)
  else some (true, v)

def newEntry (dirName : List UInt8) (startCluster : UInt16) (isDirectory : Bool) : DirEntry :=
  { DirEntry.zero with
    name := DirEntry.nameOf (cstr dirName)
    startCluster := startCluster
    attr := if isDirectory then attrDirectory else 0
    fileSize := if isDirectory then 2 else 0 }

/-- Give up a creation whose record could not be stored. -/
def undoCreate (v : Volume) (dir : DirEntry) : Option (Int × Volume) := do
  let v ← v.fatFreeChain dir.startCluster.toNat
  some (GENERAL_ERROR, v)

/-- `fat_create` after its checks.  The test of `dir.start_cluster` against `-1` compares 16 bits with an `int` and
never holds. -/
def createEntry (stale : ByteMem) (v : Volume) (directory dirName : List UInt8) (parentDir : DirEntry)
    (isDirectory : Bool) : Option (Int × Volume) := do
  let startCluster : UInt16 := match v.fatFindFree with
    | some i => UInt16.ofNat i
    | none => 0xFFFF
  let dir := newEntry dirName startCluster isDirectory
  let v ← v.fatUpdateChain startCluster.toNat startCluster.toNat
  match ← v.fatAddDirEntry parentDir dir with
  | (false, v) => v.undoCreate dir
  | (true, v) =>
    match ← v.addDotEntries parentDir dir isDirectory with
    | (false, v) => v.undoCreate dir
    | (true, v) => v.updateParentCount stale directory { parentDir with fileSize := parentDir.fileSize + 1 }

def fatCreate (stale : ByteMem) (v : Volume) (path : List UInt8) (isDirectory : Bool) : Option (Int × Volume) := do
  let dirName ← getBaseName stale path
  let directory ← getParentDir stale path
  if !checkFileName (cstr dirName) then some (INVALID_FILE_NAME, v)
  else
    match ← fatFindDirEntryFromPath v directory with
    | .error err => some (err, v)
    | .ok parentDir =>
      if !parentDir.isDirectory then some (DIR_NOT_FOUND, v)
      else
        match ← v.fatFindDirEntry dirName parentDir with
        | some _ => some (FILE_ALREADY_EXISTS, v)
        | none => v.createEntry stale directory dirName parentDir isDirectory

def fatCreateFile (stale : ByteMem) (v : Volume) (path : List UInt8) : Option (Int × Volume) :=
  v.fatCreate stale path false

def fatCreateDirectory (stale : ByteMem) (v : Volume) (path : List UInt8) : Option (Int × Volume) :=
  v.fatCreate stale path true

/-! ### Deletion -/

/-- `fat_delete` after its lookups. -/
def deleteEntry (v : Volume) (dirName : List UInt8) (parentDir parentParentDir : DirEntry) :
    Option (Int × Volume) := do
  let (_, v) ← v.fatRemoveDirEntry dirName parentDir true
  let parentDir := { parentDir with fileSize := parentDir.fileSize - 1 }
  let (_, v) ← v.fatUpdateDirEntry parentDir.toBytes parentParentDir parentDir
  some (SUCCESS, v)

/-- The refusals of `fat_delete` on the record found.  `dir.attr && FAT_ATTR_DIRECTORY` is a logical and: any
attribute passes for a directory. -/
def deleteRefused (dir : DirEntry) (isDirectory : Bool) : Option Int :=
  if isDirectory then
    if dir.attr = 0 then some DIR_NOT_FOUND
    else if dir.fileSize ≠ 2 then some DIRECTORY_ISNT_EMPTY
    else none
  else if dir.isDirectory then some IS_DIR
  else none

def fatDelete (stale : ByteMem) (v : Volume) (path : List UInt8) (isDirectory : Bool) : Option (Int × Volume) := do
  let dirName ← getBaseName stale path
  let parentDirName ← getParentDir stale path
  let parentParentDirName ← getParentDir stale parentDirName
  match ← fatFindDirEntryFromPath v path with
  | .error err => some (err, v)
  | .ok dir =>
    match deleteRefused dir isDirectory with
    | some err => some (err, v)
    | none =>
      match ← fatFindDirEntryFromPath v parentDirName with
      | .error err => some (err, v)
      | .ok parentDir =>
        match ← fatFindDirEntryFromPath v parentParentDirName with
        | .error err => some (err, v)
        | .ok parentParentDir => v.deleteEntry dirName parentDir parentParentDir

def fatDeleteFile (stale : ByteMem) (v : Volume) (path : List UInt8) : Option (Int × Volume) :=
  v.fatDelete stale path false

def fatDeleteDir (stale : ByteMem) (v : Volume) (path : List UInt8) : Option (Int × Volume) :=
  v.fatDelete stale path true

/-! ### Renaming -/

/-- `fat_rename` after its checks. -/
def renameEntry (v : Volume) (newName : List UInt8) (file parentDir : DirEntry) : Option (Int × Volume) := do
  let copied ← strncpy filenameSize file.toBytes
  let previousName := copied ++ List.replicate (filenameSize + 1 - copied.length) 0
  let file := { file with name := DirEntry.nameOf newName }
  match ← v.fatFindDirEntry file.toBytes parentDir with
  | some _ => some (FILE_ALREADY_EXISTS, v)
  | none =>
    match ← v.fatUpdateDirEntry previousName parentDir file with
    | (false, v) => some (GENERAL_ERROR, v)
    | (true, v) => some (SUCCESS, v)

def fatRename (stale : ByteMem) (v : Volume) (path newName : List UInt8) : Option (Int × Volume) := do
  match ← fatFindDirEntryFromPath v path with
  | .error err => some (err, v)
  | .ok file =>
    let directory ← getParentDir stale path
    match ← fatFindDirEntryFromPath v directory with
    | .error err => some (err, v)
    | .ok parentDir =>
      if !parentDir.isDirectory then some (DIR_NOT_FOUND, v)
      else if filenameSize < newName.length then some (FILE_NAME_EXCEEDS_LENGTH, v)
      else if !checkFileName newName then some (INVALID_FILE_NAME, v)
      else v.renameEntry newName file parentDir

/-! ### Lookup -/

def fatGetFileData (stale : ByteMem) (v : Volume) (path : List UInt8) : Option (Except Int FileData) := do
  match ← fatFindDirEntryFromPath v path with
  | .error _ => some (.error (-2))
  | .ok file =>
    let parentPath ← getParentDir stale path
    match ← fatFindDirEntryFromPath v parentPath with
    | .error _ => some (.error (-1))
    | .ok parentEntry => some (.ok ⟨file, parentEntry⟩)

def fatGetDirData (stale : ByteMem) (v : Volume) (path : List UInt8) : Option (Except Int FileData) := do
  match ← fatFindDirEntryFromPath v path with
  | .error _ => some (.error (-1))
  | .ok dir =>
    if !dir.isDirectory then some (.error (-20))
    else
      let parentPath ← getParentDir stale path
      match ← fatFindDirEntryFromPath v parentPath with
      | .error _ => some (.error (-1))
      | .ok parentEntry => some (.ok ⟨dir, parentEntry⟩)

/-! ### Reading -/

/-- `current_cluster` after following `n` links of the chain; `some none` when the chain ends before. -/
def readSeek (v : Volume) : Nat → Nat → Option (Option Nat)
  | 0, currentCluster => some (some currentCluster)
  | n + 1, currentCluster =>
    if clusterChainEnd.toNat ≤ currentCluster ∨ currentCluster = 0 then some none
    else do
      let x ← v.fatTable[currentCluster]?
      readSeek v n x.toNat

/-- The copying loop of `fat_read`, with `size` bytes to read and `n` bounding the clusters left. -/
def readLoop (v : Volume) : Nat → Nat → Nat → Nat → List UInt8 → Option (List UInt8)
  | 0, _, _, size, _ => if size = 0 then some [] else none
  | n + 1, currentCluster, clusterOffset, size, clusterBuffer =>
    if size = 0 ∨ clusterChainEnd.toNat ≤ currentCluster ∨ currentCluster = 0 then some []
    else do
      let clusterBuffer ← v.fatReadDataCluster currentCluster clusterBuffer
      let bytesToCopy := min (v.fs.bytesPerCluster - clusterOffset) size
      let bytes := (clusterBuffer.drop clusterOffset).take bytesToCopy
      if bytesToCopy < size then
        let x ← v.fatTable[currentCluster]?
        let rest ← readLoop v n x.toNat 0 (size - bytesToCopy) clusterBuffer
        some (bytes ++ rest)
      else some bytes

/-- The return value and the bytes stored in the caller's buffer. -/
def fatRead (v : Volume) (file : DirEntry) (offset size : Nat) : Option (Int × List UInt8) :=
  if file.isDirectory then some (-1, [])
  else if file.fileSize.toNat ≤ offset then some (0, [])
  else
    let size := if file.fileSize.toNat < (offset + size) % 2 ^ 32 then file.fileSize.toNat - offset else size
    let bytesPerCluster := v.fs.bytesPerCluster
    if bytesPerCluster = 0 then none
    else do
      match ← v.readSeek (offset / bytesPerCluster) file.startCluster.toNat with
      | none => some (-1, [])
      | some cluster =>
        let bytes ← v.readLoop (size / bytesPerCluster + 2) cluster (offset % bytesPerCluster) size v.zeroBuffer
        some (Int.bmod bytes.length (2 ^ 32), bytes)

/-! ### Writing -/

def writeSeek (v : Volume) : Nat → Nat → Option (Option Nat)
  | 0, currentCluster => some (some currentCluster)
  | n + 1, currentCluster =>
    if clusterChainEnd.toNat ≤ currentCluster then some none
    else do
      let x ← v.fatTable[currentCluster]?
      writeSeek v n x.toNat

/-- A cluster that is not overwritten as a whole is read first. -/
def loadCluster (v : Volume) (currentCluster clusterOffset size : Nat) (clusterBuffer : List UInt8) :
    Option (List UInt8) :=
  if 0 < clusterOffset ∨ size < v.fs.bytesPerCluster then v.fatReadDataCluster currentCluster clusterBuffer
  else some clusterBuffer

/-- The loop of `fat_write`. -/
def writeLoop : Nat → Volume → Nat → Nat → List UInt8 → List UInt8 → Option Volume
  | 0, v, _, _, buffer, _ => if buffer = [] then some v else none
  | n + 1, v, currentCluster, clusterOffset, buffer, clusterBuffer =>
    if buffer = [] then some v
    else do
      let clusterBuffer ← v.loadCluster currentCluster clusterOffset buffer.length clusterBuffer
      let bytesToWrite := min (v.fs.bytesPerCluster - clusterOffset) buffer.length
      let clusterBuffer := ByteMem.splice clusterBuffer clusterOffset (buffer.take bytesToWrite)
      let v ← v.fatWriteDataCluster currentCluster clusterBuffer
      if bytesToWrite < buffer.length then
        let x ← v.fatTable[currentCluster]?
        writeLoop n v x.toNat 0 (buffer.drop bytesToWrite) clusterBuffer
      else some v

/-- The call of `fat_truncate` in `fat_write`. -/
def ensureSize (truncate : Volume → FileData → Nat → Option (Int × FileData × Volume)) (v : Volume)
    (file : FileData) (newSize : Nat) : Option (Int × FileData × Volume) :=
  if file.fileEntry.fileSize.toNat < newSize then truncate v file newSize else some (0, file, v)

/-- `fat_write`, with `truncate` for its call of `fat_truncate`.  The results are the return value, `*file` and the
volume. -/
def fatWriteWith (truncate : Volume → FileData → Nat → Option (Int × FileData × Volume)) (v : Volume)
    (file parentDir : DirEntry) (offset : Nat) (buffer : List UInt8) : Option (Int × DirEntry × Volume) :=
  if file.isDirectory then some (-1, file, v)
  else
    let bytesPerCluster := v.fs.bytesPerCluster
    if bytesPerCluster = 0 then none
    else do
      let newSize := (offset + buffer.length) % 2 ^ 32
      let (ret, fileData, v) ← v.ensureSize truncate ⟨file, parentDir⟩ newSize
      if ret ≠ 0 then some (-1, file, v)
      else
        let file := fileData.fileEntry
        match ← v.writeSeek (offset / bytesPerCluster) file.startCluster.toNat with
        | none => some (-1, file, v)
        | some cluster =>
          let v ← writeLoop (buffer.length / bytesPerCluster + 2) v cluster (offset % bytesPerCluster) buffer v.zeroBuffer
          some (Int.bmod buffer.length (2 ^ 32), file, v)

/-! ### Truncation -/

/-- The loop that frees clusters from the head of the chain, in memory only; returns the cluster it stops at. -/
def freeHead : Nat → Volume → Nat → Option (Nat × Volume)
  | 0, v, cluster => some (cluster, v)
  | n + 1, v, cluster => do
    let x ← v.fatTable[cluster]?
    let v ← v.storeFat cluster freeCluster
    freeHead n v x.toNat

/-- Store the new size in the directory of the file. -/
def updateFileSize (v : Volume) (file : FileData) (size : Nat) : Option (Int × FileData × Volume) := do
  let file := { file with fileEntry := { file.fileEntry with fileSize := UInt32.ofNat size } }
  match ← v.fatUpdateDirEntry file.fileEntry.toBytes file.parentEntry file.fileEntry with
  | (false, v) => some (-1, file, v)
  | (true, v) => some (0, file, v)

/-- The branch of `fat_truncate` for a smaller size. -/
def truncateShrink (v : Volume) (file : FileData) (size : Nat) : Option (Int × FileData × Volume) := do
  let currClusterAmount ← v.fatGetClusterAmount file.fileEntry
  if v.fs.bytesPerCluster = 0 then none
  else do
    let newClusterAmount := size / v.fs.bytesPerCluster + 1
    let (cluster, v) ← freeHead (currClusterAmount - newClusterAmount) v file.fileEntry.startCluster.toNat
    let v ← v.storeFat cluster clusterChainEnd
    v.updateFileSize file size

/-- The branch of `fat_truncate` for a larger size.  `file_size` is set before it is used as the offset and in the
length of the zeroes to write, so the nested `fat_write` gets no bytes and does not truncate again. -/
def truncateGrow (v : Volume) (file : FileData) (size : Nat) : Option (Int × FileData × Volume) := do
  let currClusterAmount ← v.fatGetClusterAmount file.fileEntry
  if v.fs.bytesPerCluster = 0 then none
  else do
    let newClusterAmount := size / v.fs.bytesPerCluster + 1
    let amount := (newClusterAmount + 2 ^ 32 - currClusterAmount) % 2 ^ 32
    match ← fatAllocateSpace amount v file.fileEntry with
    | (false, v) => some (-1, file, v)
    | (true, v) =>
      let entry := { file.fileEntry with fileSize := UInt32.ofNat size }
      let buf := List.replicate (size - entry.fileSize.toNat) 0
      let (_, entry, v) ← v.fatWriteWith (fun _ _ _ => none) entry file.parentEntry entry.fileSize.toNat buf
      v.updateFileSize { file with fileEntry := entry } size

/-- The results are the return value, `*file` and the volume. -/
def fatTruncate (v : Volume) (file : FileData) (size : Nat) : Option (Int × FileData × Volume) :=
  if file.fileEntry.isDirectory then some (-1, file, v)
  else if size < file.fileEntry.fileSize.toNat then v.truncateShrink file size
  else if file.fileEntry.fileSize.toNat < size then v.truncateGrow file size
  else some (0, file, v)

def fatWrite (v : Volume) (file parentDir : DirEntry) (offset : Nat) (buffer : List UInt8) :
    Option (Int × DirEntry × Volume) :=
  v.fatWriteWith fatTruncate file parentDir offset buffer

end Volume

end DBolOS.Fat
