import DBolOS.Fat.Path

/-!
# Paths of the system calls

`join_path`, `simplify_path` and the splitting of paths in `dir.c`.  A path is the list of its bytes without the
terminator.
-/

namespace DBolOS.Vfs

open Fat (slash dot)

/-- Size of the path buffers. -/
def pathSize : Nat := 256

/-- The buffer after `strncpy` of `s` into its bytes `stale`: no terminator is stored. -/
def copyOver (stale : ByteMem) (size : Nat) (s : List UInt8) : List UInt8 :=
  let stored := if s = [] then [0] else s.take size
  stored ++ stale.readBytes stored.length (size - stored.length)

/-- The string in a buffer; `none` when it holds no terminator. -/
def bufferString (buf : List UInt8) : Option (List UInt8) := if 0 ∈ buf then some (cstr buf) else none

/-! ### `join_path` -/

/-- The empty string stands for a path that does not fit.  An empty `cwd` is read in front of its first byte. -/
def joinPath (cwd pathname : List UInt8) : Option (List UInt8) :=
  if pathSize < cwd.length + pathname.length + 2 then some []
  else if pathname.head? = some slash then some pathname
  else if cwd = [] then none
  else
    let fullPath := (if cwd.getLast? = some slash then cwd else cwd ++ [slash]) ++ pathname
    let fullPath := if [slash, dot].isSuffixOf fullPath then fullPath.dropLast.dropLast else fullPath
    some (if fullPath = [] then [slash] else fullPath)

/-! ### `simplify_path` -/

/-- The components of the path.  At index 0 the end of the component wraps around and passes the test against its
start, so a path that starts with a slash gets an empty first component. -/
def components (path : List UInt8) : List (List UInt8) :=
  let empty := if path = [] ∨ path.head? = some slash then [[]] else []
  empty ++ (path.splitOn slash).filter (· ≠ [])

/-- The stack of components, the top first. -/
def pushComponent (isAbsolute : Bool) (stack : List (List UInt8)) (comp : List UInt8) : List (List UInt8) :=
  if comp = [dot] then stack
  else if comp = [dot, dot] then
    if isAbsolute then stack.tail
    else
      match stack with
      | [] => [comp]
      | top :: rest => if top = [dot, dot] then comp :: stack else rest
  else comp :: stack

def simplifyPath (path : List UInt8) : List UInt8 :=
  let isAbsolute := path.head? = some slash
  let stack := ((components path).foldl (pushComponent isAbsolute) []).reverse
  let result := List.intercalate [slash] stack
  if isAbsolute then slash :: result else if stack = [] then [dot] else result

/-! ### Splitting -/

/-- The copy of the path that is split, over the stack bytes `stale`, and its last slash. -/
def splitCopy (stale : ByteMem) (path : List UInt8) : Option (List UInt8 × Option Nat) := do
  let pathCopy := copyOver stale pathSize path
  let lastSlash ← strrchr slash pathCopy 0 none
  some (pathCopy, lastSlash)

/-- `get_parent_dir` into a buffer that holds `staleDir`. -/
def getParentDir (stale staleDir : ByteMem) (path : List UInt8) : Option (List UInt8) := do
  let (pathCopy, lastSlash) ← splitCopy stale path
  let directory ← match lastSlash with
    | some i => some ((cstr pathCopy).take i)
    | none => bufferString pathCopy
  bufferString (copyOver staleDir pathSize (if directory = [] then [slash] else directory))

/-- `get_base_name_with_len` into the 12 bytes of `newName`, which hold `staleName`. -/
def getBaseNameWithLen (stale staleName : ByteMem) (path : List UInt8) : Option (List UInt8) := do
  let (pathCopy, lastSlash) ← splitCopy stale path
  let baseName ← bufferString (match lastSlash with
    | some i => pathCopy.drop (i + 1)
    | none => pathCopy)
  if Fat.filenameSize < baseName.length then some (baseName.take Fat.filenameSize)
  else bufferString (copyOver staleName (Fat.filenameSize + 1) baseName)

end DBolOS.Vfs
