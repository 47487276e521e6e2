import DBolOS.Proc.Process

/-!
# The process manager

`process_manager.c` and the parts of `terminal_manager.c` that schedule: creating, waking, switching and ending
processes.  What jumps to a process returns the node it jumps to.  `none` is a read or store through a pointer to no
node, a panic, or a loop that does not end.
-/

namespace DBolOS.Proc

/-- What an entry to the kernel ends with: it returns, or it jumps to the process at `a`, found in state `was`. -/
inductive Outcome
  | stays
  | dispatches (a : Nat) (was : ProcessState)
  deriving DecidableEq

def Outcome.target : Outcome → Option Nat
  | stays => none
  | dispatches a _ => some a

/-- `init_proc_fd`. -/
def initProcFd (fdTable : Vector FileDescriptor MAX_LOCAL_FD) : Vector FileDescriptor MAX_LOCAL_FD :=
  let used := { FileDescriptor.zero with isUsed := true }
  ((fdTable.set 0 used (by decide)).set 1 used (by decide)).set 2 used (by decide)

/-- A store to `fd_table[fd].global_fd`. -/
def setGlobalFd (fdTable : Vector FileDescriptor MAX_LOCAL_FD) (fd : Fin MAX_LOCAL_FD) (globalFd : Option Nat) :
    Vector FileDescriptor MAX_LOCAL_FD :=
  fdTable.set fd { fdTable.get fd with globalFd }

namespace Manager

/-! ### Terminals -/

/-- `attach_process_to_terminal`.  The test of the bounds has no effect in the source. -/
def attachProcessToTerminal (m : Manager) (terminalId : UInt32) (p : Process) : Option Process := do
  let t ← m.terminals[(terminalId - 1).toNat]?
  if t.id ≠ terminalId then some p
  else
    let fdTable := setGlobalFd p.fdTable ⟨0, by decide⟩ t.stdin
    let fdTable := setGlobalFd fdTable ⟨1, by decide⟩ t.stdout
    let fdTable := setGlobalFd fdTable ⟨2, by decide⟩ t.stderr
    some { p with terminalId, fdTable }

/-- `create_terminal` with the descriptors it allocates. -/
def createTerminal (m : Manager) (stdin stdout stderr : Option Nat) : Option (Manager × UInt32) := do
  let i ← m.terminals.findFinIdx? (·.id = 0)
  let id := UInt32.ofNat (i + 1)
  some ({ m with terminals := m.terminals.set i ⟨id, false, stdin, stdout, stderr⟩ }, id)

def setActiveTerminal (m : Manager) (terminalId : UInt32) : Option Manager := do
  let t ← m.terminals[(terminalId - 1).toNat]?
  if t.id ≠ terminalId then some m else some { m with activeTerminalId := terminalId }

/-- `get_active_terminal_struct`; there is none for the id `0`. -/
def activeTerminal (m : Manager) : Option Terminal := m.terminals[(m.activeTerminalId - 1).toNat]?

def setInputReady (m : Manager) (ready : Bool) : Option Manager := do
  let t ← m.activeTerminal
  let terminals := m.terminals.setIfInBounds (m.activeTerminalId - 1).toNat { t with isInputReady := ready }
  some { m with terminals }

/-! ### Creation -/

/-- What `create_process_from_elf` stores in the node, over the bytes `stale` that `kmalloc` returned. -/
def newProcess (m : Manager) (stale : Process) : Option Process :=
  m.attachProcessToTerminal m.activeTerminalId
    { stale with
      cwd := [0x2f]
      pid := m.nextPid
      state := .ready
      inTerminalRead := false
      fdTable := initProcFd stale.fdTable }

/-- `create_process_from_elf` where the image loads, with the new node at `a`. -/
def createProcessFromElf (m : Manager) (a : Nat) (stale : Process) : Option Manager :=
  if (m.node a).isSome then none
  else do
    let p ← m.newProcess stale
    let m := { m with nodes := m.nodes.insert a ⟨p, none, none⟩, nextPid := m.nextPid + 1 }
    let m ← m.addToLinkedList a
    match m.currentProcess with
    | none => some m
    | some c => m.modifyProc c fun q => { q with waitingFor := p.pid, state := .waiting }

/-- How a call of `create_process` ends: with the new node at `a`, or failing before or after it took a pid. -/
inductive Creation
  | created (a : Nat) (stale : Process)
  | failed (pidTaken : Bool)

def createProcess (m : Manager) : Creation → Option Manager
  | .created a stale => m.createProcessFromElf a stale
  | .failed pidTaken => some { m with nextPid := if pidTaken then m.nextPid + 1 else m.nextPid }

/-! ### Wake-ups -/

/-- The loop of the two wake-ups: `wake` at each node from `iter` on, until the walk is back at `current`.  A walk
longer than the number of nodes never comes back. -/
def wakeLoop (wake : Process → Process) (current : Nat) : Nat → Nat → Manager → Option Manager
  | 0, _, _ => none
  | fuel + 1, iter, m => do
    let m ← m.modifyProc iter wake
    let iter ← m.ringNext iter
    if iter = current then some m else wakeLoop wake current fuel iter m

def wakeUp (m : Manager) (wake : Process → Process) : Option Manager := do
  let current ← m.currentProcess
  wakeLoop wake current m.nodes.keys.length current m

def wakeTerminal (terminalId : UInt32) (p : Process) : Process :=
  if p.state = .blocked ∧ p.terminalId = terminalId then { p with state := .ready } else p

def wakeWaiting (pid : UInt32) (p : Process) : Process :=
  if p.state = .waiting ∧ p.waitingFor = pid then { p with state := .ready, waitingFor := 0 } else p

def wakeUpTerminalProcesses (m : Manager) (terminalId : UInt32) : Option Manager := m.wakeUp (wakeTerminal terminalId)

def wakeUpWaitingProcesses (m : Manager) (pid : UInt32) : Option Manager := m.wakeUp (wakeWaiting pid)

/-! ### Switching -/

/-- The loop of `switch_process`: the first `READY` node after `a`. -/
def searchReady (m : Manager) : Nat → Nat → Option Nat
  | 0, _ => none
  | fuel + 1, a => do
    let a ← m.ringNext a
    let p ← m.proc a
    if p.state = .ready then some a else searchReady m fuel a

def setRunning (p : Process) : Process := { p with state := .running }

/-- Only a running process is set ready. -/
def setReady (p : Process) : Process := if p.state = .running then { p with state := .ready } else p

/-- From `switch_label` on. -/
def dispatch (m : Manager) (a : Nat) : Option (Manager × Outcome) := do
  let p ← m.proc a
  let m ← m.modifyProc a setRunning
  some ({ m with currentProcess := some a }, .dispatches a p.state)

def switchProcess (m : Manager) : Option (Manager × Outcome) :=
  match m.processListHead with
  | none => some (m, .stays)
  | some head =>
    match m.currentProcess with
    | none => m.dispatch head
    | some c => do
      let m ← m.modifyProc c setReady
      let a ← m.searchReady m.nodes.keys.length c
      m.dispatch a

/-! ### Exit -/

/-- `exit_proc`.  The successor is chosen before the node is unlinked and freed, and its state is not looked at. -/
def exitProc (m : Manager) (exitingProc : Nat) : Option (Manager × Outcome) := do
  let _ ← m.processListHead
  let x ← m.proc exitingProc
  let m ← m.wakeUpWaitingProcesses x.pid
  let c ← m.currentProcess
  let a ← m.ringNext c
  let p ← m.proc a
  let m ← { m with currentProcess := some a }.removeFromLinkedList exitingProc
  some (m.freeProcNode exitingProc, .dispatches a p.state)

def exitCurrentProcess (m : Manager) : Option (Manager × Outcome) := do
  let c ← m.currentProcess
  m.exitProc c

/-! ### Entries to the kernel -/

/-- What enters the kernel. -/
inductive Event
  /-- `kmain` creates a process. -/
  | create (c : Creation)
  | enableProcesses
  /-- `timer_irq`. -/
  | tick
  /-- The newline key in `keyboard_irq`. -/
  | newline
  /-- The current process enters `read_terminal_input`. -/
  | read
  /-- One test of the loop of `read_terminal_input`. -/
  | poll
  | execve (c : Creation)
  /-- `_exit`, or a page fault of the current process. -/
  | exit

/-- The process that runs, and whether it is in the loop of `read_terminal_input`, where interrupts are disabled. -/
def reading (m : Manager) : Option (Nat × Bool) := do
  let c ← m.currentProcess
  let p ← m.proc c
  some (c, p.inTerminalRead)

def interruptsEnabled (m : Manager) : Bool := m.reading.all fun r => !r.2

/-- One entry to the kernel; `none` also for an entry that is not possible in the state `m`. -/
def step (m : Manager) : Event → Option (Manager × Outcome)
  | .create c =>
    if m.currentProcess = none ∧ m.runProcesses = false then (·, .stays) <$> m.createProcess c else none
  | .enableProcesses =>
    if m.currentProcess = none ∧ m.runProcesses = false then some ({ m with runProcesses := true }, .stays) else none
  | .tick =>
    if m.interruptsEnabled then if m.runProcesses then m.switchProcess else some (m, .stays) else none
  | .newline =>
    if m.interruptsEnabled then do
      let m ← m.setInputReady true
      (·, .stays) <$> m.wakeUpTerminalProcesses m.activeTerminalId
    else none
  | .read => do
    let (c, inTerminalRead) ← m.reading
    if inTerminalRead then none else (·, .stays) <$> m.modifyProc c fun p => { p with inTerminalRead := true }
  | .poll => do
    let (c, inTerminalRead) ← m.reading
    let t ← m.activeTerminal
    if inTerminalRead then
      if t.isInputReady then do
        let m ← m.setInputReady false
        (·, .stays) <$> m.modifyProc c fun p => { p with inTerminalRead := false }
      else do
        let m ← m.modifyProc c fun p => { p with state := .blocked }
        m.switchProcess
    else none
  | .execve c => do
    let (_, inTerminalRead) ← m.reading
    if inTerminalRead then none else do
      let m ← m.createProcess c
      m.switchProcess
  | .exit => do
    let (_, inTerminalRead) ← m.reading
    if inTerminalRead then none else m.exitCurrentProcess

/-- The state after an entry to the kernel. -/
def exec (m : Manager) (e : Event) : Option Manager := Prod.fst <$> m.step e

/-- The nodes the entries `es` jump to, in order. -/
def dispatched (m : Manager) : List Event → List Nat
  | [] => []
  | e :: es =>
    match m.step e with
    | none => []
    | some (m', o) => o.target.toList ++ dispatched m' es

/-- The manager after `kmain` has created the first terminal: devices `3`, `4` and `5`, and no process. -/
def boot : Manager where
  nodes := ∅
  processListHead := none
  processListTail := none
  nextPid := 1
  currentProcess := none
  runProcesses := false
  terminals := (Vector.replicate TERMINAL_AMMOUNT ⟨0, false, none, none, none⟩).set 0
    ⟨1, false, some 3, some 4, some 5⟩ (by decide)
  activeTerminalId := 1

end Manager

end DBolOS.Proc
