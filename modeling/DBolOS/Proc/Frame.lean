import Mathlib

/-!
# Interrupt frames

The registers of the processor, what it pushes when it takes an interrupt, what `int_handlers.asm` pushes after it and
pops before it returns, and the jumps of `switch_userspace.asm` and `switch_kernelspace.asm`.  The processor, the
entry of the vector and `isr_common` lay the same frame for every vector (`isrFrame_intRegisters`), and a handler that
leaves the frame is not seen by what was interrupted (`isrReturn_isrFrame`).
-/

namespace DBolOS.Proc

/-! ### Registers -/

/-- The registers of the processor. -/
@[ext]
structure Cpu where
  edi : UInt32
  esi : UInt32
  ebp : UInt32
  ebx : UInt32
  edx : UInt32
  ecx : UInt32
  eax : UInt32
  eip : UInt32
  cs : UInt16
  eflags : UInt32
  esp : UInt32
  ss : UInt16
  ds : UInt16
  es : UInt16
  fs : UInt16
  gs : UInt16
  deriving DecidableEq

/-- `int_registers`. -/
structure IntRegisters where
  ds : UInt32
  edi : UInt32
  esi : UInt32
  ebp : UInt32
  kernEsp : UInt32
  ebx : UInt32
  edx : UInt32
  ecx : UInt32
  eax : UInt32
  interrupt : UInt32
  error : UInt32
  eip : UInt32
  cs : UInt32
  eflags : UInt32
  esp : UInt32
  ss : UInt32
  deriving DecidableEq

/-- `process_registers_t`. -/
structure ProcessRegisters where
  edi : UInt32
  esi : UInt32
  ebp : UInt32
  unused : UInt32
  ebx : UInt32
  edx : UInt32
  ecx : UInt32
  eax : UInt32
  eip : UInt32
  cs : UInt32
  eflags : UInt32
  esp : UInt32
  ss : UInt32
  deriving DecidableEq

def GDT_KERNEL_CODE_INDEX : UInt16 := 0x08
def GDT_KERNEL_DATA_INDEX : UInt16 := 0x10
def GDT_USER_CODE_INDEX : UInt16 := 0x18
def GDT_USER_DATA_INDEX : UInt16 := 0x20

/-- The privilege level of the code that runs. -/
def Cpu.ring (c : Cpu) : UInt16 := c.cs &&& 3

/-- All segments of data are the one of `ds`. -/
structure Cpu.Flat (c : Cpu) : Prop where
  es : c.es = c.ds
  fs : c.fs = c.ds
  gs : c.gs = c.ds

/-- `mov ds, ax` and so on. -/
def Cpu.setSegments (c : Cpu) (selector : UInt16) : Cpu :=
  { c with ds := selector, es := selector, fs := selector, gs := selector }

/-! ### Stacks -/

/-- The stack pointer and the words from there on. -/
structure Stack where
  esp : UInt32
  words : List UInt32
  deriving DecidableEq

namespace Stack

def push (s : Stack) (x : UInt32) : Stack := ⟨s.esp - 4, x :: s.words⟩

def pop (s : Stack) : Option (UInt32 × Stack) :=
  match s.words with
  | [] => none
  | x :: words => some (x, ⟨s.esp + 4, words⟩)

@[simp] theorem pop_push (s : Stack) (x : UInt32) : (s.push x).pop = some (x, s) := by
  simp only [pop, push, UInt32.sub_add_cancel]

def pushad (s : Stack) (c : Cpu) : Stack :=
  (((((((s.push c.eax).push c.ecx).push c.edx).push c.ebx).push s.esp).push c.ebp).push c.esi).push c.edi

/-- `popad`; the word of `esp` is skipped. -/
def popad (s : Stack) (c : Cpu) : Option (Cpu × Stack) := do
  let (edi, s) ← s.pop
  let (esi, s) ← s.pop
  let (ebp, s) ← s.pop
  let (_, s) ← s.pop
  let (ebx, s) ← s.pop
  let (edx, s) ← s.pop
  let (ecx, s) ← s.pop
  let (eax, s) ← s.pop
  some ({ c with edi, esi, ebp, ebx, edx, ecx, eax }, s)

/-- `iret`; `esp` and `ss` are popped only on the way to another privilege level. -/
def iret (s : Stack) (c : Cpu) : Option (Cpu × Stack) := do
  let (eip, s) ← s.pop
  let (cs, s) ← s.pop
  let (eflags, s) ← s.pop
  let c := { c with eip, cs := cs.toUInt16, eflags, esp := s.esp }
  if c.ring = 0 then some (c, s)
  else
    let (esp, s) ← s.pop
    let (ss, s) ← s.pop
    some ({ c with esp, ss := ss.toUInt16 }, s)

/-- The frame that a pointer to the top of the stack points to. -/
def intRegisters (s : Stack) : Option IntRegisters :=
  match s.words with
  | ds :: edi :: esi :: ebp :: kernEsp :: ebx :: edx :: ecx :: eax :: interrupt :: error :: eip :: cs :: eflags ::
      esp :: ss :: _ =>
    some ⟨ds, edi, esi, ebp, kernEsp, ebx, edx, ecx, eax, interrupt, error, eip, cs, eflags, esp, ss⟩
  | _ => none

/-- A store to `regs->eax`. -/
def setEax (s : Stack) (eax : UInt32) : Stack := { s with words := s.words.set 8 eax }

end Stack

/-! ### Taking an interrupt -/

/-- The exceptions for which the processor pushes an error code. -/
def hasErrorCode (vector : UInt32) : Bool := vector ∈ [8, 10, 11, 12, 13, 14, 17, 21, 29, 30]

/-- What the processor pushes; from ring 3 onto the stack of the task state segment. -/
def Cpu.interrupt (c : Cpu) (esp0 : UInt32) (above : List UInt32) (vector code : UInt32) : Stack :=
  let s := if c.ring = 0 then ⟨c.esp, above⟩ else ((⟨esp0, above⟩ : Stack).push c.ss.toUInt32).push c.esp
  let s := ((s.push c.eflags).push c.cs.toUInt32).push c.eip
  if hasErrorCode vector then s.push code else s

/-- The ranges of `SET_ISR_ERROR_RANGES`; the other vectors are in the ranges of `SET_ISR_NOERROR_RANGES`. -/
def isrErrorRanges : List (UInt32 × UInt32) := [(8, 8), (10, 14), (17, 17), (21, 21), (29, 30)]

def isrError (vector : UInt32) : Bool := isrErrorRanges.any fun r => r.1 ≤ vector && vector ≤ r.2

/-- `first_int_handlers`: a dummy error code where the processor pushes none, and the vector. -/
def firstIntHandler (vector : UInt32) (s : Stack) : Stack := (if isrError vector then s else s.push 0).push vector

/-- The stack when `isr_common` calls `isr_wrapper`; its top is the frame. -/
def isrFrame (c : Cpu) (esp0 : UInt32) (above : List UInt32) (vector code : UInt32) : Stack :=
  ((firstIntHandler vector (c.interrupt esp0 above vector code)).pushad c).push c.ds.toUInt32

/-- `isr_common` after the call. -/
def isrReturn (s : Stack) (c : Cpu) : Option (Cpu × Stack) := do
  let (ds, s) ← s.pop
  let (c, s) ← s.popad (c.setSegments ds.toUInt16)
  let (_, s) ← s.pop
  let (_, s) ← s.pop
  s.iret c

/-- The stack the processor found: the one of the task state segment, or the interrupted one. -/
def Cpu.stackFound (c : Cpu) (esp0 : UInt32) (above : List UInt32) : Stack :=
  if c.ring = 0 then ⟨c.esp, above⟩ else ⟨esp0, above⟩

/-! ### Jumping to a process -/

/-- `copy_registers`. -/
def copyRegisters (src : IntRegisters) : ProcessRegisters where
  edi := src.edi
  esi := src.esi
  ebp := src.ebp
  unused := 0
  ebx := src.ebx
  edx := src.edx
  ecx := src.ecx
  eax := src.eax
  eip := src.eip
  cs := src.cs
  eflags := src.eflags
  esp := src.esp
  ss := src.ss

/-- The words of the record. -/
def ProcessRegisters.words (r : ProcessRegisters) : List UInt32 :=
  [r.edi, r.esi, r.ebp, r.unused, r.ebx, r.edx, r.ecx, r.eax, r.eip, r.cs, r.eflags, r.esp, r.ss]

/-- The two jumps, with the segment that each loads: the record becomes the stack and is popped. -/
def jumpMode (selector : UInt16) (s : Stack) (c : Cpu) : Option (Cpu × Stack) := do
  let (c, s) ← s.popad (c.setSegments selector)
  s.iret { c with eflags := c.eflags ||| 0x200 }

def jumpUsermode (s : Stack) (c : Cpu) : Option (Cpu × Stack) := jumpMode 0x23 s c

def jumpKernelmode (s : Stack) (c : Cpu) : Option (Cpu × Stack) := jumpMode 0x10 s c

/-! ### Frames and returns -/

/-- The entries add the dummy exactly where the processor pushes no error code. -/
private theorem isrError_eq (vector : UInt32) : isrError vector = hasErrorCode vector := by
  rw [Bool.eq_iff_iff]
  simp only [isrError, isrErrorRanges, hasErrorCode, List.any_cons, List.any_nil, Bool.or_false, Bool.or_eq_true,
    Bool.and_eq_true, decide_eq_true_eq, List.mem_cons, List.not_mem_nil, or_false, UInt32.le_iff_toNat_le,
    ← UInt32.toNat_inj, UInt32.reduceToNat]
  omega

variable {c : Cpu} {esp0 vector code : UInt32} {above : List UInt32}

/-- What the processor and the entry of the vector have pushed is the same for every vector. -/
theorem firstIntHandler_interrupt : firstIntHandler vector (c.interrupt esp0 above vector code) =
    ((((((if c.ring = 0 then ⟨c.esp, above⟩ else ((⟨esp0, above⟩ : Stack).push c.ss.toUInt32).push c.esp).push
      c.eflags).push c.cs.toUInt32).push c.eip).push (if hasErrorCode vector then code else 0)).push vector) := by
  simp only [firstIntHandler, Cpu.interrupt, isrError_eq]
  split <;> rfl

/-- The frame that `isr_wrapper` sees holds the interrupted registers, the vector and the error code, `0` where the
processor pushes none.  From ring 0 the words of `esp` and `ss` are those that were on top of the stack. -/
theorem isrFrame_intRegisters (c : Cpu) (esp0 : UInt32) (above : List UInt32) (vector code : UInt32) {w w' : UInt32}
    {rest : List UInt32} (habove : c.ring = 0 → above = w :: w' :: rest) :
    ∃ kernEsp, (isrFrame c esp0 above vector code).intRegisters = some
      { ds := c.ds.toUInt32, edi := c.edi, esi := c.esi, ebp := c.ebp, kernEsp, ebx := c.ebx, edx := c.edx, ecx := c.ecx,
        eax := c.eax, interrupt := vector, error := if hasErrorCode vector then code else 0, eip := c.eip,
        cs := c.cs.toUInt32, eflags := c.eflags, esp := if c.ring = 0 then w else c.esp,
        ss := if c.ring = 0 then w' else c.ss.toUInt32 } := by
  rw [isrFrame, firstIntHandler_interrupt]
  by_cases hring : c.ring = 0
  · rw [if_pos hring, if_pos hring, if_pos hring, habove hring]
    exact ⟨_, rfl⟩
  · rw [if_neg hring, if_neg hring, if_neg hring]
    exact ⟨_, rfl⟩

/-- `pushad` and `popad` give back all but `esp`, which `popad` leaves where the pushes began. -/
private theorem popad_pushad (s : Stack) (c c' : Cpu) : (s.pushad c).popad c' =
    some ({ c' with edi := c.edi, esi := c.esi, ebp := c.ebp, ebx := c.ebx, edx := c.edx, ecx := c.ecx, eax := c.eax },
      s) := by
  simp only [Stack.pushad, Stack.popad, Stack.pop_push, Option.bind_eq_bind, Option.bind_some]

/-- `iret` undoes what the processor pushed without its error code, for the ring the interrupted code was in. -/
private theorem iret_pushed (c c' : Cpu) (hss : c.ring = 0 → c'.ss = c.ss) :
    ((((if c.ring = 0 then ⟨c.esp, above⟩ else ((⟨esp0, above⟩ : Stack).push c.ss.toUInt32).push c.esp).push
      c.eflags).push c.cs.toUInt32).push c.eip).iret c' =
      some ({ c' with eip := c.eip, cs := c.cs, eflags := c.eflags, esp := c.esp, ss := c.ss },
        c.stackFound esp0 above) := by
  by_cases hring : c.ring = 0
  · rw [if_pos hring, Cpu.stackFound, if_pos hring]
    simp only [Stack.iret, Stack.pop_push, Option.bind_eq_bind, Option.bind_some, UInt16.toUInt16_toUInt32]
    exact (if_pos hring).trans (by rw [hss hring])
  · rw [if_neg hring, Cpu.stackFound, if_neg hring]
    simp only [Stack.iret, Stack.pop_push, Option.bind_eq_bind, Option.bind_some, UInt16.toUInt16_toUInt32]
    exact if_neg hring

private theorem setEax_pushad (s : Stack) (c : Cpu) (ds eax : UInt32) :
    ((s.pushad c).push ds).setEax eax = (s.pushad { c with eax }).push ds := rfl

/-- What was interrupted goes on with its registers and its stack, after a handler that stored to `regs->eax` with the
value stored. -/
theorem isrReturn_isrFrame {c' : Cpu} (hflat : c.Flat) (hss : c.ring = 0 → c'.ss = c.ss) (eax : UInt32) :
    isrReturn ((isrFrame c esp0 above vector code).setEax eax) c' =
      some ({ c with eax }, c.stackFound esp0 above) := by
  obtain ⟨hes, hfs, hgs⟩ := hflat
  rw [isrFrame, firstIntHandler_interrupt, setEax_pushad]
  simp only [isrReturn, Stack.pop_push, popad_pushad, Option.bind_eq_bind, Option.bind_some, UInt16.toUInt16_toUInt32]
  refine (iret_pushed c { c'.setSegments c.ds with
    edi := c.edi, esi := c.esi, ebp := c.ebp, ebx := c.ebx, edx := c.edx, ecx := c.ecx, eax := eax } hss).trans ?_
  congr 2
  ext1 <;> simp only [Cpu.setSegments, hes, hfs, hgs]

theorem setEax_isrFrame : (isrFrame c esp0 above vector code).setEax c.eax = isrFrame c esp0 above vector code := rfl

/-! ### Popping words -/

theorem popad_words (a edi esi ebp x ebx edx ecx eax : UInt32) (words : List UInt32) (c : Cpu) :
    (⟨a, edi :: esi :: ebp :: x :: ebx :: edx :: ecx :: eax :: words⟩ : Stack).popad c =
      some ({ c with edi, esi, ebp, ebx, edx, ecx, eax }, ⟨a + 32, words⟩) := by
  simp only [Stack.popad, Stack.pop, Option.bind_eq_bind, Option.bind_some, UInt32.add_assoc]
  rfl

/-- `iret` to ring 3. -/
theorem iret_words {cs : UInt16} (hcs : cs &&& 3 ≠ 0) (a eip eflags esp : UInt32) (ss : UInt16) (c : Cpu) :
    ∃ s, (⟨a, [eip, cs.toUInt32, eflags, esp, ss.toUInt32]⟩ : Stack).iret c =
      some ({ c with eip, cs, eflags, esp, ss }, s) := by
  simp only [Stack.iret, Stack.pop, Option.bind_eq_bind, Option.bind_some, UInt16.toUInt16_toUInt32]
  exact ⟨_, if_neg hcs⟩

/-- `iret` within ring 0 leaves the stack where the frame ends. -/
theorem iret_words_ring0 {cs : UInt16} (hcs : cs &&& 3 = 0) (a eip eflags : UInt32) (words : List UInt32) (c : Cpu) :
    (⟨a, eip :: cs.toUInt32 :: eflags :: words⟩ : Stack).iret c =
      some ({ c with eip, cs, eflags, esp := a + 12 }, ⟨a + 12, words⟩) := by
  simp only [Stack.iret, Stack.pop, Option.bind_eq_bind, Option.bind_some, UInt16.toUInt16_toUInt32, UInt32.add_assoc]
  exact if_pos hcs

end DBolOS.Proc
