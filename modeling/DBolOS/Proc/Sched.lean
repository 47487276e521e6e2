import DBolOS.Proc.Manager

/-!
# The ring of processes

What the process manager is for, without its nodes: processes in the order of their creation, read as a ring, of which
one is current.  `Sched.Step` says everything an entry to the kernel can do to the ring.
-/

namespace DBolOS.Proc

open Manager

structure Sched where
  order : List Nat
  proc : Nat → Process
  current : Option Nat
  terminalId : UInt32
  inputReady : Bool

namespace Sched

/-! ### Changes of the ring -/

def update (s : Sched) (a : Nat) (f : Process → Process) : Sched :=
  { s with proc := Function.update s.proc a (f (s.proc a)) }

def wake (s : Sched) (f : Process → Process) : Sched := { s with proc := fun a => f (s.proc a) }

def enqueue (s : Sched) (a : Nat) (p : Process) : Sched :=
  { s with order := s.order ++ [a], proc := Function.update s.proc a p }

def remove (s : Sched) (a : Nat) : Sched := { s with order := s.order.erase a }

def setCurrent (s : Sched) (a : Nat) : Sched := { s with current := some a }

def setInputReady (s : Sched) (ready : Bool) : Sched := { s with inputReady := ready }

variable {s s' : Sched} {a b c : Nat} {f : Process → Process} {p : Process}

@[simp] theorem update_order : (s.update a f).order = s.order := rfl
@[simp] theorem update_current : (s.update a f).current = s.current := rfl
@[simp] theorem update_terminalId : (s.update a f).terminalId = s.terminalId := rfl
@[simp] theorem update_inputReady : (s.update a f).inputReady = s.inputReady := rfl
@[simp] theorem wake_order : (s.wake f).order = s.order := rfl
@[simp] theorem wake_current : (s.wake f).current = s.current := rfl
@[simp] theorem wake_proc : (s.wake f).proc a = f (s.proc a) := rfl
@[simp] theorem wake_terminalId : (s.wake f).terminalId = s.terminalId := rfl
@[simp] theorem wake_inputReady : (s.wake f).inputReady = s.inputReady := rfl
@[simp] theorem enqueue_order : (s.enqueue a p).order = s.order ++ [a] := rfl
@[simp] theorem enqueue_current : (s.enqueue a p).current = s.current := rfl
@[simp] theorem enqueue_terminalId : (s.enqueue a p).terminalId = s.terminalId := rfl
@[simp] theorem enqueue_inputReady : (s.enqueue a p).inputReady = s.inputReady := rfl
@[simp] theorem remove_order : (s.remove a).order = s.order.erase a := rfl
@[simp] theorem remove_proc : (s.remove a).proc = s.proc := rfl
@[simp] theorem remove_terminalId : (s.remove a).terminalId = s.terminalId := rfl
@[simp] theorem remove_inputReady : (s.remove a).inputReady = s.inputReady := rfl
@[simp] theorem setCurrent_order : (s.setCurrent a).order = s.order := rfl
@[simp] theorem setCurrent_current : (s.setCurrent a).current = some a := rfl
@[simp] theorem setCurrent_proc : (s.setCurrent a).proc = s.proc := rfl
@[simp] theorem setCurrent_terminalId : (s.setCurrent a).terminalId = s.terminalId := rfl
@[simp] theorem setCurrent_inputReady : (s.setCurrent a).inputReady = s.inputReady := rfl
@[simp] theorem setInputReady_order {r : Bool} : (s.setInputReady r).order = s.order := rfl
@[simp] theorem setInputReady_current {r : Bool} : (s.setInputReady r).current = s.current := rfl
@[simp] theorem setInputReady_proc {r : Bool} : (s.setInputReady r).proc = s.proc := rfl
@[simp] theorem setInputReady_terminalId {r : Bool} : (s.setInputReady r).terminalId = s.terminalId := rfl
@[simp] theorem setInputReady_inputReady {r : Bool} : (s.setInputReady r).inputReady = r := rfl

@[simp] theorem update_proc_self : (s.update a f).proc a = f (s.proc a) := Function.update_self ..

theorem update_proc_ne (h : b ≠ a) : (s.update a f).proc b = s.proc b := Function.update_of_ne h ..

@[simp] theorem enqueue_proc_self : (s.enqueue a p).proc a = p := Function.update_self ..

theorem enqueue_proc_ne (h : b ≠ a) : (s.enqueue a p).proc b = s.proc b := Function.update_of_ne h ..

/-! ### Steps -/

/-- `c` is current, and whether it is in the loop of `read_terminal_input`. -/
structure Runs (s : Sched) (c : Nat) (inTerminalRead : Bool) : Prop where
  current : s.current = some c
  mem : c ∈ s.order
  reads : (s.proc c).inTerminalRead = inTerminalRead

/-- A process as creation leaves it. -/
structure Fresh (s : Sched) (a : Nat) (p : Process) : Prop where
  notMem : a ∉ s.order
  state : p.state = .ready
  reads : p.inTerminalRead = false
  terminal : p.terminalId = s.terminalId

def block (p : Process) : Process := { p with state := .blocked }

def setReading (reads : Bool) (p : Process) : Process := { p with inTerminalRead := reads }

def waitFor (pid : UInt32) (p : Process) : Process := { p with waitingFor := pid, state := .waiting }

/-- What `switch_process` does: nothing without processes, the first process when none is current, and otherwise the
first `READY` process after the current one, which was set ready if it ran. -/
inductive Switch (s : Sched) : Outcome → Sched → Prop
  | empty (horder : s.order = []) : Switch s .stays s
  | first {a : Nat} {rest : List Nat} (hcurrent : s.current = none) (horder : s.order = a :: rest) :
      Switch s (.dispatches a (s.proc a).state) ((s.update a setRunning).setCurrent a)
  | next {a c : Nat} {rest skipped after : List Nat} (hcurrent : s.current = some c) (horder : s.order ~r (c :: rest))
      (hsplit : rest ++ [c] = skipped ++ a :: after)
      (hskipped : ∀ b ∈ skipped, ((s.update c setReady).proc b).state ≠ .ready)
      (hready : ((s.update c setReady).proc a).state = .ready) :
      Switch s (.dispatches a .ready) (((s.update c setReady).update a setRunning).setCurrent a)

inductive Step (s : Sched) : Event → Outcome → Sched → Prop
  | create {a : Nat} {stale p : Process} (hcurrent : s.current = none) (hfresh : s.Fresh a p) :
      Step s (.create (.created a stale)) .stays (s.enqueue a p)
  | createFailed {pidTaken : Bool} : Step s (.create (.failed pidTaken)) .stays s
  | enableProcesses : Step s .enableProcesses .stays s
  | idle : Step s .tick .stays s
  | tick {o : Outcome} {s' : Sched} (hreads : ∀ c, ¬ s.Runs c true) (hswitch : s.Switch o s') : Step s .tick o s'
  | newline {c : Nat} (hruns : s.Runs c false) :
      Step s .newline .stays ((s.wake (wakeTerminal s.terminalId)).setInputReady true)
  | read {c : Nat} (hruns : s.Runs c false) : Step s .read .stays (s.update c (setReading true))
  | pollReady {c : Nat} (hruns : s.Runs c true) (hinput : s.inputReady = true) :
      Step s .poll .stays ((s.update c (setReading false)).setInputReady false)
  | pollWait {c : Nat} {o : Outcome} {s' : Sched} (hruns : s.Runs c true) (hinput : s.inputReady = false)
      (hswitch : (s.update c block).Switch o s') : Step s .poll o s'
  | execve {a c : Nat} {stale p : Process} {o : Outcome} {s' : Sched} (hruns : s.Runs c false)
      (hfresh : s.Fresh a p) (hswitch : ((s.enqueue a p).update c (waitFor p.pid)).Switch o s') :
      Step s (.execve (.created a stale)) o s'
  | execveFailed {c : Nat} {pidTaken : Bool} {o : Outcome} {s' : Sched} (hruns : s.Runs c false)
      (hswitch : s.Switch o s') : Step s (.execve (.failed pidTaken)) o s'
  | exit {a c : Nat} {rest : List Nat} (hruns : s.Runs c false) (horder : s.order ~r (c :: rest))
      (hnext : (rest ++ [c]).head? = some a) :
      Step s .exit (.dispatches a (wakeWaiting (s.proc c).pid (s.proc a)).state)
        (((s.wake (wakeWaiting (s.proc c).pid)).remove c).setCurrent a)

end Sched

end DBolOS.Proc
