import DBolOS.Dev.Pic
import DBolOS.Paging.Create
import DBolOS.Proc.Frame
import DBolOS.Proc.Manager

/-!
# The processor under the process manager

The process manager with the registers: what `isr_wrapper` calls for each vector, what `handle_syscall` calls for each
number, and which registers each of them saves and restores.  A process that is inside a call keeps the frame of the
call on its own kernel stack; code of the kernel that goes on after a switch is taken as C, so that a switch inside a
call returns to the call.  Faults inside a call are left out.  `none` is a panic, or an entry that is not possible.
-/

namespace DBolOS.Proc

open Dev (PIC1_IRQ_INDEX PIT_IRQ KEYBOARD_IRQ)
open Paging (USER_STACK_TOP)

/-! ### Handlers -/

inductive IsrHandler
  | timerIrq
  | keyboardIrq
  | switchProcess
  | handleSyscall
  deriving DecidableEq

def IDT_SIZE : UInt32 := 256

def registerIsrHandler (handlers : UInt32 → Option IsrHandler) (index : UInt32) (handler : IsrHandler) :
    UInt32 → Option IsrHandler :=
  if index ≥ IDT_SIZE then handlers else Function.update handlers index (some handler)

/-- `handlers` after `pit_init`, `keyboard_init`, `syscall_init` and `proc_manager_init`. -/
def handlers : UInt32 → Option IsrHandler :=
  [((PIC1_IRQ_INDEX + PIT_IRQ).toUInt32, IsrHandler.timerIrq),
    ((PIC1_IRQ_INDEX + KEYBOARD_IRQ).toUInt32, .keyboardIrq), (0x80, .handleSyscall),
    (0x69, .switchProcess)].foldl (fun handlers r => registerIsrHandler handlers r.1 r.2) fun _ => none

inductive SyscallHandler
  | sysExit
  | sysRead
  | sysWrite
  | sysOpen
  | sysClose
  | sysUnlink
  | sysChdir
  | sysLseek
  | sysGetpid
  | sysRename
  | sysMkdir
  | sysRmdir
  | sysTimes
  | sysGettimeofday
  | sysTruncate
  | sysFtruncate
  | sysStat
  | sysFstat
  | sysGetdents
  | sysGetcwd
  | sysExecve
  | sysSbrk
  | printLogo
  | printBye
  deriving DecidableEq

def SYSCALLS_MANAGER_MAX_HANDLERS : UInt32 := 256

/-- `syscalls_manager_attach_handler`.  The test of the bound never fails for a byte. -/
def attachHandler (table : UInt32 → Option SyscallHandler) (functionNumber : UInt8) (handler : SyscallHandler) :
    UInt32 → Option SyscallHandler :=
  Function.update table functionNumber.toUInt32 (some handler)

/-- The calls of `syscall_init`, in order. -/
def syscallInit : List (UInt8 × SyscallHandler) :=
  [(1, .sysExit), (3, .sysRead), (4, .sysWrite), (5, .sysOpen), (6, .sysClose), (10, .sysUnlink), (12, .sysChdir),
    (19, .sysLseek), (38, .sysRename), (39, .sysMkdir), (40, .sysRmdir), (40, .sysTimes), (78, .sysGettimeofday),
    (92, .sysTruncate), (93, .sysFtruncate), (106, .sysStat), (108, .sysFstat), (141, .sysGetdents),
    (183, .sysGetcwd), (59, .sysExecve), (183, .sysGetcwd), (45, .sysSbrk), (169, .printLogo), (170, .printBye)]

/-- `syscall_handler_array`. -/
def syscallHandlerArray : UInt32 → Option SyscallHandler :=
  syscallInit.foldl (fun table r => attachHandler table r.1 r.2) fun _ => none

/-- The handler `handle_syscall` calls. -/
def syscallHandler (eax : UInt32) : Option SyscallHandler :=
  if eax < SYSCALLS_MANAGER_MAX_HANDLERS then syscallHandlerArray eax else none

/-! ### The state -/

/-- What switching reads of `process_t` beside what is in `Process`. -/
structure ProcContext where
  regs : ProcessRegisters
  kernelStack : UInt32
  pageDirectory : UInt32
  isKernelMode : Bool

/-- What `create_process_from_elf` takes from the image and from the allocators. -/
structure Image where
  entry : UInt32
  kernelStack : UInt32
  pageDirectory : UInt32
  isKernelMode : Bool

/-- What `create_process_from_elf` stores. -/
def Image.context (i : Image) : ProcContext where
  regs :=
    { edi := 0, esi := 0, ebp := 0, unused := 0, ebx := 0, edx := 0, ecx := 0, eax := 0, eip := i.entry,
      cs := if i.isKernelMode then GDT_KERNEL_CODE_INDEX.toUInt32 else (GDT_USER_CODE_INDEX ||| 3).toUInt32,
      eflags := 0x0202, esp := UInt32.ofNat (USER_STACK_TOP - 4),
      ss := if i.isKernelMode then GDT_KERNEL_DATA_INDEX.toUInt32 else (GDT_USER_DATA_INDEX ||| 3).toUInt32 }
  kernelStack := i.kernelStack
  pageDirectory := i.pageDirectory
  isKernelMode := i.isKernelMode

/-- `inCall a` is the stack of the call that process `a` is inside, with the frame on top; `esp0` is in the task state
segment, `pageDirectory` is the one loaded. -/
structure System where
  manager : Manager
  context : Nat → ProcContext
  inCall : Nat → Option Stack
  cpu : Cpu
  esp0 : UInt32
  pageDirectory : UInt32

/-- What an entry to the kernel meets: the words on top of the stack of code of ring 0, whether the key is the newline
key, whether the descriptor read is the terminal, what the call returns, how creating the process of `execve` ends and
what its image is, and what saving the registers of code of ring 0 leaves in its node. -/
structure Input where
  above : UInt32 × UInt32
  isNewline : Bool
  isTerminal : Bool
  reply : UInt32
  creation : Manager.Creation
  image : Image
  ring0Regs : ProcessRegisters

namespace System

/-! ### Going on -/

/-- `offsetof(process_node_t, proc.regs)`. -/
def REGS_OFFSET : UInt32 := 2336

/-- `jump_proc_wrapper`. -/
def jumpProcWrapper (s : System) (a : Nat) : Option System := do
  let p := s.context a
  let stack : Stack := ⟨UInt32.ofNat a + REGS_OFFSET, p.regs.words⟩
  let kernel := { s.cpu with ss := GDT_KERNEL_DATA_INDEX }
  let (cpu, _) ← (if p.isKernelMode then jumpKernelmode else jumpUsermode) stack kernel
  some { s with cpu, pageDirectory := p.pageDirectory, esp0 := p.kernelStack }

/-- The manager went on as `o` says: back through the frame on `stack`, or at a process. -/
def finish (s : System) (o : Outcome) (stack : Stack) : Option System :=
  match o with
  | .stays => do
    let (cpu, _) ← isrReturn stack s.cpu
    some { s with cpu }
  | .dispatches a _ => s.jumpProcWrapper a

/-- `copy_registers` into the node of the current process.  The stack of code of ring 0 may lie in that node. -/
def saveRegisters (s : System) (regs : ProcessRegisters) : System :=
  match s.manager.currentProcess with
  | none => s
  | some c => { s with context := Function.update s.context c { s.context c with regs } }

/-- The process at `a` is created from `image`. -/
def place (s : System) (creation : Manager.Creation) (image : Image) : System :=
  match creation with
  | .failed _ => s
  | .created a _ =>
    { s with context := Function.update s.context a image.context, inCall := Function.update s.inCall a none }

/-- The current process `c` enters a call. -/
def enterCall (s : System) (c : Nat) (stack : Stack) : System :=
  { s with
    context := Function.update s.context c { s.context c with isKernelMode := true }
    inCall := Function.update s.inCall c (some stack) }

/-- `handle_syscall` after the handler: the call of `c` ends. -/
def endCall (s : System) (c : Nat) : System :=
  { s with
    context := Function.update s.context c { s.context c with isKernelMode := false }
    inCall := Function.update s.inCall c none
    esp0 := (s.context c).kernelStack }

/-- The call of `c` ends, and its frame is returned through. -/
def leaveCall (s : System) (c : Nat) (stack : Stack) : Option System := (s.endCall c).finish .stays stack

/-! ### Entries -/

/-- `switch_process` on the frame `regs`. -/
def switchTo (s : System) (e : Manager.Event) (regs : ProcessRegisters) (stack : Stack) : Option System := do
  let (manager, o) ← s.manager.step e
  match o with
  | .stays => finish { s with manager } .stays stack
  | .dispatches _ _ => finish { s.saveRegisters regs with manager } o stack

/-- `exit_current_process`: nothing is saved. -/
def exitCurrentProcess (s : System) (stack : Stack) : Option System := do
  let (manager, o) ← s.manager.step .exit
  finish { s with manager } o stack

/-- `handle_syscall`. -/
def handleSyscall (s : System) (regs : IntRegisters) (stack : Stack) (input : Input) : Option System :=
  match syscallHandler regs.eax with
  | none => s.finish .stays stack
  | some handler => do
    let c ← s.manager.currentProcess
    let s := s.enterCall c stack
    match handler with
    | .sysExit => s.exitCurrentProcess stack
    | .sysExecve => (s.place input.creation input.image).switchTo (.execve input.creation) input.ring0Regs stack
    | .sysRead =>
      if input.isTerminal then do
        let (manager, _) ← s.manager.step .read
        some { s with manager }
      else s.leaveCall c (stack.setEax input.reply)
    | .printLogo | .printBye => s.leaveCall c stack
    | _ => s.leaveCall c (stack.setEax input.reply)

/-- `isr_wrapper`. -/
def isrWrapper (s : System) (regs : IntRegisters) (stack : Stack) (input : Input) : Option System :=
  match handlers regs.interrupt with
  | some .timerIrq => s.switchTo .tick (if s.cpu.ring = 0 then input.ring0Regs else copyRegisters regs) stack
  | some .switchProcess => none
  | some .keyboardIrq =>
    if input.isNewline then do
      let (manager, o) ← s.manager.step .newline
      finish { s with manager } o stack
    else s.finish .stays stack
  | some .handleSyscall => s.handleSyscall regs stack input
  | none =>
    if regs.interrupt ≥ PIC1_IRQ_INDEX.toUInt32 then s.finish .stays stack
    else if regs.interrupt = 14 then s.exitCurrentProcess stack
    else none

/-! ### Actions -/

inductive Action
  /-- The current process runs outside of the kernel. -/
  | run (f : Cpu → Cpu)
  /-- `kmain` creates a process. -/
  | create (creation : Manager.Creation) (image : Image)
  | enableProcesses
  /-- The processor takes an interrupt of hardware, an exception or `int 0x80`. -/
  | interrupt (vector code : UInt32) (input : Input)
  /-- One test of the loop of `read_terminal_input`. -/
  | poll (input : Input)
  /-- The call of `execve` goes on after its switch. -/
  | resume (reply : UInt32)

/-- The call that the current process is inside. -/
def call (s : System) : Option (Nat × Stack) := do
  let c ← s.manager.currentProcess
  let stack ← s.inCall c
  some (c, stack)

def step (s : System) : Action → Option System
  | .run f =>
    if s.manager.currentProcess.isSome ∧ s.call = none then some { s with cpu := f s.cpu } else none
  | .create creation image => do
    let (manager, _) ← s.manager.step (.create creation)
    let s := s.place creation image
    some { s with manager }
  | .enableProcesses => do
    let (manager, _) ← s.manager.step .enableProcesses
    some { s with manager }
  | .interrupt vector code input =>
    if s.call = none ∧ vector ≠ 0x69 then do
      let stack := isrFrame s.cpu s.esp0 (if s.cpu.ring = 0 then [input.above.1, input.above.2] else []) vector code
      let regs ← stack.intRegisters
      s.isrWrapper regs stack input
    else none
  | .poll input => do
    let (c, stack) ← s.call
    let (manager, o) ← s.manager.step .poll
    match o with
    | .stays => leaveCall { s with manager } c (stack.setEax input.reply)
    | .dispatches _ _ => finish { s.saveRegisters input.ring0Regs with manager } o stack
  | .resume reply => do
    let (c, stack) ← s.call
    let (_, inTerminalRead) ← s.manager.reading
    if inTerminalRead then none else s.leaveCall c (stack.setEax reply)

end System

end DBolOS.Proc
