import DBolOS.Fat.Ops
import DBolOS.Proc.Manager
import DBolOS.Vfs.Paths

/-!
# Descriptors

The table of open files of `vfs/file.c` beside the processes and the volume, and the accesses that the system calls
make to the descriptor table of a process.  An access that has no defined result is a `Fault`.
-/

namespace DBolOS.Vfs

open Fat (FileData DirEntry Volume)
open Proc (Process FileDescriptor Manager Terminal MAX_LOCAL_FD)

def MAX_FD : Nat := 256

/-! ### Return codes and flags -/

def EPERM : Int := 1
def ENOENT : Int := 2
def ESRCH : Int := 3
def EBADF : Int := 9
def EAGAIN : Int := 11
def ENOMEM : Int := 12
def EBUSY : Int := 16
def EEXIST : Int := 17
def ENOTDIR : Int := 20
def EISDIR : Int := 21
def EINVAL : Int := 22
def EMFILE : Int := 24

def O_RDONLY : UInt32 := 0x0000
def O_CREAT : UInt32 := 0x0040
def O_EXCL : UInt32 := 0x0080
def O_TRUNC : UInt32 := 0x0200
def O_APPEND : UInt32 := 0x0400
def O_DIRECTORY : UInt32 := 0x10000

/-- `flags & flag`. -/
def hasFlag (flags flag : UInt32) : Bool := flags &&& flag != 0

/-! ### State -/

/-- The functions that `_read` points to. -/
inductive ReadHandler
  | fatFs
  | terminalInput
  deriving DecidableEq

/-- `global_file_descriptor`; `read` is `none` for a `NULL` `_read`. -/
structure GlobalFd where
  read : Option ReadHandler
  file : FileData
  refCount : Int
  path : List UInt8
  isDir : Bool
  isUsed : Bool
  isDevice : Bool

def GlobalFd.zero : GlobalFd := ⟨none, ⟨DirEntry.zero, DirEntry.zero⟩, 0, [], false, false, false⟩

structure Kernel where
  manager : Manager
  globalFdTable : Vector GlobalFd MAX_FD
  volume : Volume

/-- An access without a defined result. -/
inductive Fault
  /-- Slot `fd` beyond the end of `fd_table`. -/
  | fdTable (fd : Nat)
  /-- Through a `global_fd` that is `NULL` or no entry of the table. -/
  | globalFd
  /-- The call of a `NULL` `_read`. -/
  | handler
  /-- Through the pointer to a process that is not there. -/
  | process
  /-- In the file system or in a string function. -/
  | fileSystem
  deriving DecidableEq

def Fault.of {α : Type} (fault : Fault) : Option α → Except Fault α
  | none => .error fault
  | some x => .ok x

namespace Kernel

/-! ### The table of open files -/

def global (k : Kernel) (g : Nat) : Except Fault GlobalFd := Fault.globalFd.of k.globalFdTable[g]?

/-- A store to an entry of the table. -/
def modifyGlobal (k : Kernel) (globalFd : Option Nat) (f : GlobalFd → GlobalFd) : Except Fault Kernel :=
  match globalFd with
  | none => .error .globalFd
  | some g =>
    if h : g < MAX_FD then
      .ok { k with globalFdTable := k.globalFdTable.set g (f (k.globalFdTable.get ⟨g, h⟩)) h }
    else .error .globalFd

def getOpenedFd (k : Kernel) (path : List UInt8) : Option Nat :=
  (k.globalFdTable.findFinIdx? fun g =>
    g.isUsed && decide (strncmp pathSize (g.path ++ [0]) (path ++ [0]) = some 0)).map Fin.val

def unusedGlobal (k : Kernel) : Option (Fin MAX_FD) := k.globalFdTable.findFinIdx? fun g => !g.isUsed

/-- The entry is marked used by the caller. -/
def allocateGlobalFd (k : Kernel) (path : List UInt8) : Option Nat × Kernel :=
  match k.unusedGlobal with
  | none => (none, k)
  | some g =>
    let fresh := { GlobalFd.zero with path := path.take (pathSize - 1), read := some .fatFs, refCount := 1 }
    (some g, { k with globalFdTable := k.globalFdTable.set g fresh })

def allocateDeviceFd (k : Kernel) : Option Nat × Kernel :=
  match k.unusedGlobal with
  | none => (none, k)
  | some g =>
    let fresh := { GlobalFd.zero with refCount := 1, isDevice := true, isUsed := true }
    (some g, { k with globalFdTable := k.globalFdTable.set g fresh })

/-! ### The descriptors of a process -/

def slotOf (fdTable : Vector FileDescriptor MAX_LOCAL_FD) (fd : Nat) : Except Fault FileDescriptor :=
  (Fault.fdTable fd).of fdTable[fd]?

def process (k : Kernel) (c : Nat) : Except Fault Process := Fault.process.of (k.manager.proc c)

/-- A store to `fd_table[fd]`. -/
def setSlot (k : Kernel) (c fd : Nat) (d : FileDescriptor) : Except Fault Kernel :=
  if h : fd < MAX_LOCAL_FD then do
    let manager ← Fault.process.of (k.manager.modifyProc c fun p => { p with fdTable := p.fdTable.set fd d h })
    .ok { k with manager }
  else .error (.fdTable fd)

/-- The loop of `_open`: the first slot from `fd` on that is not used, with `n` slots left to look at. -/
def unusedSlot (fdTable : Vector FileDescriptor MAX_LOCAL_FD) : Nat → Nat → Except Fault (Option Nat)
  | 0, _ => .ok none
  | n + 1, fd => do
    let d ← slotOf fdTable fd
    if d.isUsed then unusedSlot fdTable n (fd + 1) else .ok (some fd)

/-! ### Boot -/

/-- `proc_manager_init`. -/
def procManagerInit (k : Kernel) : Except Fault Kernel := do
  let k ← k.modifyGlobal (some 0) fun g => { g with isUsed := true }
  let k ← k.modifyGlobal (some 1) fun g => { g with isUsed := true }
  k.modifyGlobal (some 2) fun g => { g with isUsed := true }

/-- `create_terminal`; without a free terminal the search leaves the array. -/
def createTerminal (k : Kernel) : Except Fault (UInt32 × Kernel) := do
  let (stdin, k) := k.allocateDeviceFd
  let (stdout, k) := k.allocateDeviceFd
  let (stderr, k) := k.allocateDeviceFd
  let k ← k.modifyGlobal stdin fun g => { g with read := some .terminalInput }
  let (manager, id) ← Fault.process.of (k.manager.createTerminal stdin stdout stderr)
  .ok (id, { k with manager })

/-- The managers when `kmain` initialises them, with the volume mounted. -/
def zeroed (volume : Volume) : Kernel where
  manager :=
    { nodes := ∅
      processListHead := none
      processListTail := none
      nextPid := 1
      currentProcess := none
      runProcesses := false
      terminals := Vector.replicate Proc.TERMINAL_AMMOUNT ⟨0, false, none, none, none⟩
      activeTerminalId := 0 }
  globalFdTable := Vector.replicate MAX_FD .zero
  volume := volume

/-- `proc_manager_init(); set_active_terminal(create_terminal(1))`. -/
def boot (volume : Volume) : Except Fault Kernel := do
  let k ← (zeroed volume).procManagerInit
  let (id, k) ← k.createTerminal
  let manager ← Fault.process.of (k.manager.setActiveTerminal id)
  .ok { k with manager }

end Kernel

end DBolOS.Vfs
