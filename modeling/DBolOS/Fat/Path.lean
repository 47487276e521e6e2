import DBolOS.Fat.Dir

/-!
# Paths

Path resolution and the splitting of paths in `fat.c`.  A path is the list of its bytes without the terminator.
-/

namespace DBolOS.Fat

/-! ### Return codes -/

def SUCCESS : Int := 0

def GENERAL_ERROR : Int := -5

def DIR_NOT_FOUND : Int := -2

def FILE_NOT_FOUND : Int := -2

def FILE_ALREADY_EXISTS : Int := -17

def DIR_NAME_EXCEEDS_LENGTH : Int := -22

def FILE_NAME_EXCEEDS_LENGTH : Int := -22

def INVALID_FILE_NAME : Int := -22

def DIRECTORY_ISNT_EMPTY : Int := -22

def CANT_ALLOCATE_SPACE : Int := -28

def IS_DIR : Int := -21

/-! ### Resolution -/

def slash : UInt8 := 0x2f

def tilde : UInt8 := 0x7e

def dot : UInt8 := 0x2e

/-- Length of the component at the head of `s`, counted up to `n` bytes. -/
def nameLen : Nat → List UInt8 → Nat
  | 0, _ => 0
  | _ + 1, [] => 0
  | n + 1, b :: s => if b = slash then 0 else nameLen n s + 1

/-- A component in the 12 zeroed bytes of `sub_name`. -/
def subName (s : List UInt8) : List UInt8 := s ++ List.replicate (filenameSize + 1 - s.length) 0

/-- One iteration of the loop of `fat_find_dir_entry_from_path`: its result, or the index and the record that the loop
goes on with.  The byte after the terminator of an empty path is looked at and ignored. -/
def resolveStep (v : Volume) (path : List UInt8) (startIndex : Nat) (currDirEntry : DirEntry) :
    Option (Except Int DirEntry ⊕ Nat × DirEntry) :=
  let len := nameLen (filenameSize + 1) (path.drop startIndex)
  let index := startIndex + len
  if filenameSize < len then some (.inl (.error DIR_NAME_EXCEEDS_LENGTH))
  else
    let sub := (path.drop startIndex).take len
    if startIndex = 0 then
      if sub ≠ [] ∧ sub ≠ [tilde] then some (.inl (.error DIR_NOT_FOUND)) else some (.inr (index + 1, currDirEntry))
    else if path.length ≤ index + 1 then do
      match ← v.fatFindDirEntry (subName sub) currDirEntry with
      | none => some (.inl (.error (if index + 1 = path.length then DIR_NOT_FOUND else FILE_NOT_FOUND)))
      | some entry => some (.inl (.ok entry))
    else if !currDirEntry.isDirectory then some (.inl (.error DIR_NOT_FOUND))
    else do
      match ← v.fatFindDirEntry (subName sub) currDirEntry with
      | none => some (.inl (.error DIR_NOT_FOUND))
      | some entry => some (.inr (index + 1, entry))

/-- The loop; an iteration moves the index forward. -/
def resolveFrom (v : Volume) (path : List UInt8) : Nat → Nat → DirEntry → Option (Except Int DirEntry)
  | 0, _, _ => none
  | n + 1, startIndex, currDirEntry => do
    match ← resolveStep v path startIndex currDirEntry with
    | .inl result => some result
    | .inr (index, entry) => resolveFrom v path n index entry

def fatFindDirEntryFromPath (v : Volume) (path : List UInt8) : Option (Except Int DirEntry) :=
  if path = [tilde, slash] ∨ path = [slash] ∨ path = [dot, slash] then some (.ok (rootDir v.fs))
  else resolveFrom v path (path.length + 2) 0 (rootDir v.fs)

/-! ### Names -/

def checkFileName (fileName : List UInt8) : Bool :=
  fileName.all (fun p => isalnum p || p == 0x2d || p == 0x5f || p == dot) &&
    fileName ≠ [] && fileName ≠ [dot] && fileName ≠ [dot, dot] && fileName ≠ [tilde]

def pathCopySize : Nat := 1024

/-- `strcpy(path_copy, path)` on the stack bytes `stale`, and the last slash of the copy. -/
def splitPath (stale : ByteMem) (path : List UInt8) : Option (List UInt8 × Option Nat) := do
  let copy ← strcpy (path ++ [0])
  if pathCopySize < copy.length then none
  else
    let pathCopy := copy ++ stale.readBytes copy.length (pathCopySize - copy.length)
    let lastSlash ← strrchr slash pathCopy 0 none
    some (pathCopy, lastSlash)

def getParentDir (stale : ByteMem) (path : List UInt8) : Option (List UInt8) := do
  let (pathCopy, lastSlash) ← splitPath stale path
  let directory := match lastSlash with
    | some i => (cstr pathCopy).take i
    | none => cstr pathCopy
  some (if directory = [] then [slash] else directory)

/-- The name in a zeroed buffer of 12 bytes.  The bytes `stale` after the copied path are read when the path ends with
a slash. -/
def getBaseName (stale : ByteMem) (path : List UInt8) : Option (List UInt8) := do
  let (pathCopy, lastSlash) ← splitPath stale path
  let baseName := match lastSlash with
    | some i => pathCopy.drop (i + 1)
    | none => pathCopy
  let name ← strcpy baseName
  if filenameSize + 1 < name.length then none
  else some (name ++ List.replicate (filenameSize + 1 - name.length) 0)

end DBolOS.Fat
