import DBolOS.CString

/-!
# Processes and terminals

The records of `process_manager.h` and `terminal_manager.h`, and the process list of `process_manager.c` as nodes in
kernel memory.  A node that was freed, or was never allocated, is absent; reading it is `none`.
-/

namespace DBolOS.Proc

/-! ### Records -/

def MAX_LOCAL_FD : Nat := 128

inductive ProcessState
  | running
  | ready
  | blocked
  | waiting
  | terminated
  deriving DecidableEq

/-- `file_descriptor`; `globalFd` is the index in the global table, `none` for `NULL`. -/
structure FileDescriptor where
  globalFd : Option Nat
  flags : UInt32
  offset : UInt32
  isUsed : Bool
  deriving DecidableEq

def FileDescriptor.zero : FileDescriptor := ⟨none, 0, 0, false⟩

/-- `process_t`.  Of the registers it is recorded whether they resume the loop of `read_terminal_input`. -/
structure Process where
  pid : UInt32
  terminalId : UInt32
  waitingFor : UInt32
  cwd : List UInt8
  state : ProcessState
  fdTable : Vector FileDescriptor MAX_LOCAL_FD
  inTerminalRead : Bool

/-- Zeroed memory. -/
def Process.zero : Process := ⟨0, 0, 0, [], .running, Vector.replicate MAX_LOCAL_FD .zero, false⟩

/-- `process_node_t`. -/
structure ProcessNode where
  proc : Process
  next : Option Nat
  prev : Option Nat

/-- `terminal_struct_t`, without its line buffer. -/
structure Terminal where
  id : UInt32
  isInputReady : Bool
  stdin : Option Nat
  stdout : Option Nat
  stderr : Option Nat
  deriving DecidableEq

def TERMINAL_AMMOUNT : Nat := 4

/-- The state of the process and terminal managers. -/
structure Manager where
  nodes : AList fun _ : Nat => ProcessNode
  processListHead : Option Nat
  processListTail : Option Nat
  nextPid : UInt32
  currentProcess : Option Nat
  runProcesses : Bool
  terminals : Vector Terminal TERMINAL_AMMOUNT
  activeTerminalId : UInt32

namespace Manager

/-! ### Nodes -/

def node (m : Manager) (a : Nat) : Option ProcessNode := m.nodes.lookup a

def next (m : Manager) (a : Nat) : Option Nat := (m.node a).bind ProcessNode.next

def prev (m : Manager) (a : Nat) : Option Nat := (m.node a).bind ProcessNode.prev

def proc (m : Manager) (a : Nat) : Option Process := (m.node a).map ProcessNode.proc

/-- A store into the node at `a`. -/
def modify (m : Manager) (a : Nat) (f : ProcessNode → ProcessNode) : Option Manager := do
  let n ← m.node a
  some { m with nodes := m.nodes.insert a (f n) }

def modifyProc (m : Manager) (a : Nat) (f : Process → Process) : Option Manager :=
  m.modify a fun n => { n with proc := f n.proc }

/-- A store through a pointer that is `NULL` at the end of the list. -/
def modifyIf (m : Manager) (a : Option Nat) (f : ProcessNode → ProcessNode) : Option Manager :=
  match a with
  | none => some m
  | some a => m.modify a f

/-! ### The process list -/

def addToLinkedList (m : Manager) (newNode : Nat) : Option Manager := do
  let m ← m.modify newNode fun n => { n with next := none, prev := none }
  match m.processListHead with
  | none => some { m with processListHead := some newNode, processListTail := some newNode }
  | some _ =>
    let tail ← m.processListTail
    let m ← m.modify tail fun n => { n with next := some newNode }
    let m ← m.modify newNode fun n => { n with prev := some tail }
    some { m with processListTail := some newNode }

def removeFromLinkedList (m : Manager) (procNode : Nat) : Option Manager := do
  let n ← m.node procNode
  let head := if m.processListHead = some procNode then n.next else m.processListHead
  let tail := if m.processListTail = some procNode then n.prev else m.processListTail
  let m := { m with processListHead := head, processListTail := tail }
  let m ← m.modifyIf n.prev fun p => { p with next := n.next }
  m.modifyIf n.next fun q => { q with prev := n.prev }

def freeProcNode (m : Manager) (procNode : Nat) : Manager := { m with nodes := m.nodes.erase procNode }

/-- The node after `a`, the head after the last one. -/
def ringNext (m : Manager) (a : Nat) : Option Nat := do
  let n ← m.node a
  n.next.or m.processListHead

end Manager

end DBolOS.Proc
