import DBolOS.Vfs.Kernel

/-!
# System calls on files

The handlers of `file.c` and `dir.c` that open, close, read, write and change files, and the kernel as a machine of
system calls and entries to the process manager.  The calls of a handler into the file system find different bytes on
the stack: call `i` finds `stale i`.
-/

namespace DBolOS.Vfs

open Fat (FileData DirEntry Volume)
open Proc (Process FileDescriptor Manager MAX_LOCAL_FD)

/-- The 32 bits of a value as an `int`. -/
def toInt (x : UInt32) : Int := Int.bmod x.toNat (2 ^ 32)

namespace Kernel

/-! ### `_open` -/

/-- The path that `_open` looks up; empty when it does not fit. -/
def openPath (cwd path : List UInt8) : Except Fault (List UInt8) :=
  if path.head? = some Fat.slash then .ok (path.take (pathSize - 1)) else Fault.fileSystem.of (joinPath cwd path)

/-- The records of the file for a new entry of the table, created where `O_CREAT` asks for it; `none` where `_open`
gives up. -/
def findFile (stale : Nat → ByteMem) (v : Volume) (fullPath : List UInt8) (flags : UInt32) :
    Option (Option FileData × Volume) := do
  if hasFlag flags O_DIRECTORY then
    match ← Fat.Volume.fatGetDirData (stale 0) v fullPath with
    | .ok file => some (some file, v)
    | .error _ => some (none, v)
  else
    match ← Fat.Volume.fatGetFileData (stale 0) v fullPath with
    | .ok file => some (some file, v)
    | .error _ =>
      if hasFlag flags O_CREAT then
        let (ret, v) ← Fat.Volume.fatCreateFile (stale 1) v fullPath
        if ret ≠ 0 then some (none, v)
        else
          match ← Fat.Volume.fatGetFileData (stale 2) v fullPath with
          | .ok file => some (some file, v)
          | .error _ => some (none, v)
      else some (none, v)

/-- `O_TRUNC`. -/
def truncateOpened (k : Kernel) (g : Nat) : Except Fault Kernel := do
  let x ← k.global g
  let (_, file, volume) ← Fault.fileSystem.of (k.volume.fatTruncate x.file 0)
  let k ← k.modifyGlobal (some g) fun x => { x with file }
  .ok { k with volume }

/-- `_open` from the test of `O_EXCL` on, with slot `fd` of process `c` pointing to entry `g`. -/
def finishOpen (k : Kernel) (c fd g : Nat) (flags : UInt32) : Except Fault (Int × Kernel) :=
  if hasFlag flags O_DIRECTORY = false ∧ hasFlag flags O_EXCL then .ok (-EEXIST, k)
  else do
    let k ← if hasFlag flags O_DIRECTORY = false ∧ hasFlag flags O_TRUNC then k.truncateOpened g else .ok k
    let x ← k.global g
    let offset := if hasFlag flags O_DIRECTORY = false ∧ hasFlag flags O_APPEND then x.file.fileEntry.fileSize else 0
    let isDir := x.file.fileEntry.isDirectory
    let k ← k.modifyGlobal (some g) fun x => { x with isUsed := true, isDir }
    let flags := if isDir then flags ||| O_DIRECTORY else flags
    let k ← k.setSlot c fd ⟨some g, flags, offset, true⟩
    .ok (fd, k)

/-- `_open` with the unused slot `fd`: the entry of the path, or a new one. -/
def openSlot (stale : Nat → ByteMem) (k : Kernel) (c fd : Nat) (fullPath : List UInt8) (flags : UInt32) :
    Except Fault (Int × Kernel) :=
  match k.getOpenedFd fullPath with
  | none => do
    let (globalFd, k) := k.allocateGlobalFd fullPath
    let k ← k.setSlot c fd { FileDescriptor.zero with globalFd }
    let (file, volume) ← Fault.fileSystem.of (findFile stale k.volume fullPath flags)
    let k := { k with volume }
    match file with
    | none => .ok (-ENOENT, k)
    | some file =>
      let k ← k.modifyGlobal globalFd fun x => { x with file }
      let g ← Fault.globalFd.of globalFd
      k.finishOpen c fd g flags
  | some g => do
    let k ← k.setSlot c fd { FileDescriptor.zero with globalFd := some g }
    let x ← k.global g
    if x.isDir && !hasFlag flags O_DIRECTORY then .ok (-EISDIR, k)
    else if !x.isDir && hasFlag flags O_DIRECTORY then .ok (-ENOTDIR, k)
    else
      let k ← k.modifyGlobal (some g) fun x => { x with refCount := x.refCount + 1 }
      k.finishOpen c fd g flags

def sysOpen (stale : Nat → ByteMem) (k : Kernel) (path : List UInt8) (flags : UInt32) : Except Fault (Int × Kernel) :=
  match k.manager.currentProcess with
  | none => .ok (-ESRCH, k)
  | some c => do
    let p ← k.process c
    let fullPath ← openPath p.cwd path
    if fullPath = [] then .ok (-ENOMEM, k)
    else
      match ← unusedSlot p.fdTable MAX_FD 0 with
      | none => .ok (-EMFILE, k)
      | some fd => openSlot stale k c fd fullPath flags

/-! ### Calls on a descriptor -/

/-- The checks that the calls on a descriptor begin with, for a call that refuses the descriptors `refused`: the slot,
or the error. -/
def usedSlot (k : Kernel) (refused : List Int) (fd : Int) : Except Fault (Except Int (Nat × FileDescriptor)) :=
  match k.manager.currentProcess with
  | none => .ok (.error (-ESRCH))
  | some c =>
    if fd ∈ refused ∨ fd < 0 ∨ (MAX_FD : Int) ≤ fd then .ok (.error (-EBADF))
    else do
      let p ← k.process c
      let d ← slotOf p.fdTable fd.toNat
      if d.isUsed then .ok (.ok (c, d)) else .ok (.error (-EBADF))

/-- A descriptor without an open file. -/
def globalOf (k : Kernel) (d : FileDescriptor) : Except Fault (Nat × GlobalFd) := do
  let g ← Fault.globalFd.of d.globalFd
  let x ← k.global g
  .ok (g, x)

def sysClose (k : Kernel) (fd : Int) : Except Fault (Int × Kernel) := do
  match ← k.usedSlot [0, 1] fd with
  | .error err => .ok (err, k)
  | .ok (c, d) =>
    let (g, x) ← k.globalOf d
    let x := { x with refCount := x.refCount - 1 }
    let k ← k.modifyGlobal (some g) fun _ => if x.refCount = 0 then .zero else x
    let k ← k.setSlot c fd.toNat .zero
    .ok (0, k)

/-- The value returned with the bytes stored in the buffer; `none` when the process goes on to wait for input.  The
offset of the descriptor of a terminal, which no function reads, is not kept. -/
def sysRead (k : Kernel) (fd : Int) (count : UInt32) : Except Fault (Option (Int × List UInt8) × Kernel) := do
  match ← k.usedSlot [] fd with
  | .error err => .ok (some (err, []), k)
  | .ok (c, d) =>
    if hasFlag d.flags O_DIRECTORY then .ok (some (-EISDIR, []), k)
    else if hasFlag d.flags O_RDONLY then .ok (some (-EPERM, []), k)
    else if d.globalFd = none then .ok (some (-EBADF, []), k)
    else
      let (_, x) ← k.globalOf d
      match x.read with
      | none => .error .handler
      | some .terminalInput => do
        let (manager, _) ← Fault.process.of (k.manager.step .read)
        .ok (none, { k with manager })
      | some .fatFs => do
        let (ret, bytes) ← Fault.fileSystem.of (k.volume.fatRead x.file.fileEntry d.offset.toNat count.toNat)
        let k ← k.setSlot c fd.toNat { d with offset := d.offset + UInt32.ofInt ret }
        .ok (some (ret, bytes), k)

def sysWrite (k : Kernel) (fd : Int) (buf : List UInt8) : Except Fault (Int × Kernel) :=
  if k.manager.currentProcess ≠ none ∧ fd = 1 then .ok (Int.bmod buf.length (2 ^ 32), k)
  else do
    match ← k.usedSlot [0, 2] fd with
    | .error err => .ok (err, k)
    | .ok (c, d) =>
      if hasFlag d.flags O_DIRECTORY then .ok (-EISDIR, k)
      else if hasFlag d.flags O_RDONLY then .ok (-EPERM, k)
      else
        let (g, x) ← k.globalOf d
        let (ret, fileEntry, volume) ←
          Fault.fileSystem.of (k.volume.fatWrite x.file.fileEntry x.file.parentEntry d.offset.toNat buf)
        let k ← k.modifyGlobal (some g) fun x => { x with file := { x.file with fileEntry } }
        let k := { k with volume }
        if ret < 0 then .ok (EAGAIN, k)
        else
          let k ← k.setSlot c fd.toNat { d with offset := d.offset + UInt32.ofInt ret }
          .ok (ret, k)

inductive Whence
  | set
  | cur
  | end
  | other

/-- `SEEK_SET` and `SEEK_END` do not look at the offset asked for. -/
def sysLseek (k : Kernel) (fd offset : Int) (whence : Whence) : Except Fault (Int × Kernel) := do
  match ← k.usedSlot [0, 1, 2] fd with
  | .error err => .ok (err, k)
  | .ok (c, d) =>
    let newOffset ← match whence with
      | .set => .ok (some 0)
      | .cur => .ok (some (d.offset + UInt32.ofInt offset))
      | .end => do
        let (_, x) ← k.globalOf d
        .ok (some x.file.fileEntry.fileSize)
      | .other => .ok none
    match newOffset with
    | none => .ok (-EINVAL, k)
    | some newOffset =>
      if toInt newOffset < 0 then .ok (-EINVAL, k)
      else
        let past ← if hasFlag d.flags O_DIRECTORY then do
            let (_, x) ← k.globalOf d
            .ok (decide (x.file.fileEntry.fileSize < newOffset))
          else .ok false
        if past then .ok (-EINVAL, k)
        else
          let k ← k.setSlot c fd.toNat { d with offset := newOffset }
          .ok (toInt newOffset, k)

/-- What `_fstat` stores, without its constants. -/
structure Stat where
  size : UInt32
  mode : Nat
  blocks : UInt32

def FILE_TYPE_REGULAR : Nat := 1
def FILE_TYPE_DIRECTORY : Nat := 2
def FILE_TYPE_CHAR_DEVICE : Nat := 3

def statOf (x : GlobalFd) : Stat where
  size := x.file.fileEntry.fileSize
  mode :=
    if x.isDevice then FILE_TYPE_CHAR_DEVICE
    else if x.file.fileEntry.isDirectory then FILE_TYPE_DIRECTORY
    else FILE_TYPE_REGULAR
  blocks := (x.file.fileEntry.fileSize + 511) / 512

def sysFstat (k : Kernel) (fd : Int) : Except Fault (Int × Option Stat) := do
  match ← k.usedSlot [0, 1, 2] fd with
  | .error err => .ok (err, none)
  | .ok (_, d) =>
    let (_, x) ← k.globalOf d
    .ok (0, some (statOf x))

/-- The records with the size set by the caller after a successful `fat_truncate`. -/
def setLength (ret : Int) (file : FileData) (length : UInt32) : FileData :=
  if ret = 0 then { file with fileEntry := { file.fileEntry with fileSize := length } } else file

def sysFtruncate (k : Kernel) (fd : Int) (length : UInt32) : Except Fault (Int × Kernel) := do
  match ← k.usedSlot [0, 1, 2] fd with
  | .error err => .ok (err, k)
  | .ok (_, d) =>
    let (g, x) ← k.globalOf d
    let (ret, file, volume) ← Fault.fileSystem.of (k.volume.fatTruncate x.file length.toNat)
    let k ← k.modifyGlobal (some g) fun x => { x with file := setLength ret file length }
    .ok (ret, { k with volume })

/-! ### Calls on a path -/

def cwd (k : Kernel) : Except Fault (List UInt8) := do
  let c ← Fault.process.of k.manager.currentProcess
  let p ← k.process c
  .ok p.cwd

/-- The path in a zeroed buffer, which `strncpy` may fill to its end. -/
def zeroedPath (k : Kernel) (path : List UInt8) : Except Fault (List UInt8) :=
  if path.head? = some Fat.slash then if path.length < pathSize then .ok path else .error .fileSystem
  else do
    let cwd ← k.cwd
    Fault.fileSystem.of (joinPath cwd path)

/-- The path in a buffer with the bytes `stale`. -/
def stackPath (stale : ByteMem) (k : Kernel) (path : List UInt8) : Except Fault (List UInt8) :=
  if path.head? = some Fat.slash then Fault.fileSystem.of (bufferString (copyOver stale pathSize path))
  else do
    let cwd ← k.cwd
    Fault.fileSystem.of (joinPath cwd path)

def sysTruncate (stale : Nat → ByteMem) (k : Kernel) (path : List UInt8) (length : UInt32) :
    Except Fault (Int × Kernel) := do
  let fullPath ← k.zeroedPath path
  match ← Fault.fileSystem.of (Fat.Volume.fatGetFileData (stale 0) k.volume fullPath) with
  | .error _ => .ok (-ENOENT, k)
  | .ok file =>
    let (ret, _, volume) ← Fault.fileSystem.of (k.volume.fatTruncate file length.toNat)
    .ok (ret, { k with volume })

def sysMkdir (stale : Nat → ByteMem) (k : Kernel) (path : List UInt8) : Except Fault (Int × Kernel) := do
  let newPath ← k.stackPath (stale 0) path
  let (ret, volume) ← Fault.fileSystem.of (Fat.Volume.fatCreateDirectory (stale 1) k.volume newPath)
  .ok (ret, { k with volume })

def sysUnlink (stale : Nat → ByteMem) (k : Kernel) (path : List UInt8) : Except Fault (Int × Kernel) := do
  let fullPath ← k.zeroedPath path
  match ← Fault.fileSystem.of (Fat.Volume.fatGetFileData (stale 0) k.volume fullPath) with
  | .error err => .ok (err, k)
  | .ok _ =>
    match k.getOpenedFd fullPath with
    | some _ => .ok (-EBUSY, k)
    | none =>
      let (ret, volume) ← Fault.fileSystem.of (Fat.Volume.fatDeleteFile (stale 1) k.volume fullPath)
      .ok (ret, { k with volume })

/-- The string of an entry of the table after `strncpy` of `path` over it, whose bytes behind the string are zero. -/
def overwritePath (old path : List UInt8) : List UInt8 :=
  if path = [] then [] else path.take pathSize ++ old.drop path.length

/-- `_rename` after both paths were simplified. -/
def renameSimplified (stale : Nat → ByteMem) (k : Kernel) (oldPath newPath : List UInt8) :
    Except Fault (Int × Kernel) := do
  let oldDir ← Fault.fileSystem.of (getParentDir (stale 1) (stale 2) oldPath)
  let newDir ← Fault.fileSystem.of (getParentDir (stale 3) (stale 4) newPath)
  if oldDir ≠ newDir then .ok (-EINVAL, k)
  else
    let newName ← Fault.fileSystem.of (getBaseNameWithLen (stale 5) (stale 6) newPath)
    let (ret, volume) ← Fault.fileSystem.of (Fat.Volume.fatRename (stale 7) k.volume oldPath newName)
    let k := { k with volume }
    if ret ≠ 0 then .ok (-EINVAL, k)
    else
      match k.getOpenedFd oldPath with
      | none => .ok (0, k)
      | some g =>
        let k ← k.modifyGlobal (some g) fun x => { x with path := overwritePath x.path newPath }
        .ok (0, k)

def sysRename (stale : Nat → ByteMem) (k : Kernel) (oldPath newPath : List UInt8) : Except Fault (Int × Kernel) := do
  let fullOldPath ← k.stackPath (stale 0) oldPath
  let cwd ← k.cwd
  let fullNewPath ← Fault.fileSystem.of (joinPath cwd newPath)
  k.renameSimplified stale (simplifyPath fullOldPath) (simplifyPath fullNewPath)

/-! ### The kernel as a machine -/

/-- The calls on files and paths.  `_chdir`, `_rmdir`, `_getcwd`, `_getdents` and `_sbrk` are no steps of this machine and
stand where their results are. -/
inductive Syscall
  | open (stale : Nat → ByteMem) (path : List UInt8) (flags : UInt32)
  | close (fd : Int)
  | read (fd : Int) (count : UInt32)
  | write (fd : Int) (buf : List UInt8)
  | lseek (fd offset : Int) (whence : Whence)
  | fstat (fd : Int)
  | ftruncate (fd : Int) (length : UInt32)
  | truncate (stale : Nat → ByteMem) (path : List UInt8) (length : UInt32)
  | mkdir (stale : Nat → ByteMem) (path : List UInt8)
  | unlink (stale : Nat → ByteMem) (path : List UInt8)
  | rename (stale : Nat → ByteMem) (oldPath newPath : List UInt8)

/-- The value returned, `none` for a read that waits, and the kernel after the call. -/
def perform (k : Kernel) : Syscall → Except Fault (Option Int × Kernel)
  | .open stale path flags => Prod.map some id <$> sysOpen stale k path flags
  | .close fd => Prod.map some id <$> k.sysClose fd
  | .read fd count => Prod.map (Option.map Prod.fst) id <$> k.sysRead fd count
  | .write fd buf => Prod.map some id <$> k.sysWrite fd buf
  | .lseek fd offset whence => Prod.map some id <$> k.sysLseek fd offset whence
  | .fstat fd => (fun r => (some r.1, k)) <$> k.sysFstat fd
  | .ftruncate fd length => Prod.map some id <$> k.sysFtruncate fd length
  | .truncate stale path length => Prod.map some id <$> sysTruncate stale k path length
  | .mkdir stale path => Prod.map some id <$> sysMkdir stale k path
  | .unlink stale path => Prod.map some id <$> sysUnlink stale k path
  | .rename stale oldPath newPath => Prod.map some id <$> sysRename stale k oldPath newPath

inductive Event
  | manager (e : Manager.Event)
  | syscall (c : Syscall)

/-- One entry to the kernel.  A system call is made by a process that runs its own code; the wait for input is
entered by a call of `_read`. -/
def step (k : Kernel) : Event → Except Fault Kernel
  | .manager .read => .error .process
  | .manager e => do
    let (manager, _) ← Fault.process.of (k.manager.step e)
    .ok { k with manager }
  | .syscall c =>
    match k.manager.reading with
    | some (_, false) => Prod.snd <$> k.perform c
    | _ => .error .process

def exec (k : Kernel) (e : Event) : Option Kernel := (k.step e).toOption

end Kernel

end DBolOS.Vfs
