import DBolOS.Proc.Runs
import DBolOS.Proc.System

/-!
# Every process on a processor of its own

What the process manager is for, seen from a process of ring 3: `System.alone` gives each of them a processor of its
own, on which nothing happens but its own instructions and what its own calls return.  After every run of the kernel
the registers of a process are those of its own processor, in the processor while it runs, in its node while it does
not, and in the frame of its call while it is inside one (`Holds`).
-/

namespace DBolOS.Proc

open Manager
open Paging (USER_STACK_TOP)

/-! ### The processors of the processes -/

/-- The processor of a process of ring 3 that begins. -/
def Image.start (i : Image) : Cpu where
  edi := 0
  esi := 0
  ebp := 0
  ebx := 0
  edx := 0
  ecx := 0
  eax := 0
  eip := i.entry
  cs := GDT_USER_CODE_INDEX ||| 3
  eflags := 0x0202
  esp := UInt32.ofNat (USER_STACK_TOP - 4)
  ss := GDT_USER_DATA_INDEX ||| 3
  ds := GDT_USER_DATA_INDEX ||| 3
  es := GDT_USER_DATA_INDEX ||| 3
  fs := GDT_USER_DATA_INDEX ||| 3
  gs := GDT_USER_DATA_INDEX ||| 3

/-- The processors of the processes of ring 3. -/
abbrev Processors := Nat → Option Cpu

namespace Processors

/-- The process that `creation` created begins. -/
def begin (V : Processors) (creation : Creation) (image : Image) : Processors :=
  match creation with
  | .failed _ => V
  | .created a _ => Function.update V a (if image.isKernelMode then none else some image.start)

/-- Process `c` takes the step `f`. -/
def does (V : Processors) (c : Nat) (f : Cpu → Cpu) : Processors := Function.update V c ((V c).map f)

/-- A call of process `c` returns `reply`. -/
def returns (V : Processors) (c : Nat) (reply : UInt32) : Processors := V.does c fun v => { v with eax := reply }

def ends (V : Processors) (c : Nat) : Processors := Function.update V c none

end Processors

/-- What `int 0x80` with the number `eax` is to the processors, when process `c` executes it. -/
def Processors.syscall (V : Processors) (c : Nat) (eax : UInt32) (input : Input) : Processors :=
  match syscallHandler eax with
  | none | some .printLogo | some .printBye => V
  | some .sysExit => V.ends c
  | some .sysExecve => V.begin input.creation input.image
  | some .sysRead => if input.isTerminal then V else V.returns c input.reply
  | some _ => V.returns c input.reply

namespace System

/-- What an action is to the processors, with process `c` current. -/
def effect (s : System) (c : Nat) (V : Processors) : Action → Processors
  | .run f => V.does c f
  | .create _ _ | .enableProcesses => V
  | .interrupt vector _ input =>
    if vector = 0x80 then V.syscall c ((V c).getD s.cpu).eax input
    else if vector = 14 then V.ends c
    else V
  | .poll input => if s.manager.activeTerminal.any (·.isInputReady) then V.returns c input.reply else V
  | .resume reply => V.returns c reply

/-- The processors after one action. -/
def processors (s : System) (V : Processors) (act : Action) : Processors :=
  match s.manager.currentProcess with
  | some c => s.effect c V act
  | none =>
    match act with
    | .create creation image => V.begin creation image
    | _ => V

/-- The processors after the actions, each process on its own. -/
def alone (s : System) (V : Processors) : List Action → Processors
  | [] => V
  | act :: acts =>
    match s.step act with
    | none => s.processors V act
    | some s' => s'.alone (s.processors V act) acts

end System

/-! ### Registers put aside -/

/-- The segments of ring 3. -/
structure Cpu.InRing3 (v : Cpu) : Prop where
  cs : v.cs = GDT_USER_CODE_INDEX ||| 3
  ss : v.ss = GDT_USER_DATA_INDEX ||| 3
  ds : v.ds = GDT_USER_DATA_INDEX ||| 3
  flat : v.Flat

/-- What `copy_registers` keeps of the registers. -/
def Cpu.saved (v : Cpu) : ProcessRegisters where
  edi := v.edi
  esi := v.esi
  ebp := v.ebp
  unused := 0
  ebx := v.ebx
  edx := v.edx
  ecx := v.ecx
  eax := v.eax
  eip := v.eip
  cs := v.cs.toUInt32
  eflags := v.eflags
  esp := v.esp
  ss := v.ss.toUInt32

variable {v : Cpu}

private theorem Cpu.InRing3.ring_ne (h : v.InRing3) : v.ring ≠ 0 := by
  rw [Cpu.ring, h.cs]
  decide

private theorem Cpu.InRing3.setEax (h : v.InRing3) (eax : UInt32) : { v with eax }.InRing3 :=
  ⟨h.cs, h.ss, h.ds, h.flat.es, h.flat.fs, h.flat.gs⟩

/-- Saving what the entries of the kernel have pushed keeps the registers. -/
private theorem Cpu.InRing3.copyRegisters {regs : IntRegisters} {esp0 vector code : UInt32} {above : List UInt32}
    (h : v.InRing3)
    (hregs : (isrFrame v esp0 above vector code).intRegisters = some regs) :
    Proc.copyRegisters regs = v.saved ∧ regs.interrupt = vector ∧ regs.eax = v.eax := by
  have habove : v.ring = 0 → above = 0 :: 0 :: [] := fun hring => absurd hring h.ring_ne
  obtain ⟨kernEsp, hframe⟩ := isrFrame_intRegisters v esp0 above vector code habove
  rw [hregs] at hframe
  cases hframe
  refine ⟨?_, rfl, rfl⟩
  simp only [Proc.copyRegisters, if_neg h.ring_ne]
  rfl

private theorem Cpu.InRing3.jumpUsermode (h : v.InRing3) (a : UInt32) (c : Cpu) :
    ∃ s, Proc.jumpUsermode ⟨a, v.saved.words⟩ c = some (v, s) := by
  obtain ⟨s, hiret⟩ := iret_words h.ring_ne (a + 32) v.eip v.eflags v.esp v.ss
    { c.setSegments 0x23 with
      edi := v.edi, esi := v.esi, ebp := v.ebp, ebx := v.ebx, edx := v.edx, ecx := v.ecx, eax := v.eax,
      eflags := c.eflags ||| 0x200 }
  refine ⟨s, ?_⟩
  rw [Proc.jumpUsermode, jumpMode, Cpu.saved, ProcessRegisters.words, popad_words]
  refine hiret.trans ?_
  obtain ⟨hes, hfs, hgs⟩ := h.flat
  have hds : v.ds = 0x23 := h.ds
  rw [hds] at hes hfs hgs
  congr 2
  ext1 <;> simp only [Cpu.setSegments, hds, hes, hfs, hgs]

private theorem Image.start_inRing3 (i : Image) : i.start.InRing3 := ⟨rfl, rfl, rfl, rfl, rfl, rfl⟩

private theorem Image.context_regs {i : Image} (h : i.isKernelMode = false) : i.context.regs = i.start.saved := by
  simp only [Image.context, h]
  rfl

/-! ### Where the registers are -/

variable {s s' : System} {a b c : Nat} {m' : Manager} {o : Outcome} {stack : Stack} {regs : ProcessRegisters}

namespace System

/-- The registers of process `a` are `v`, in its node or in the frame of its call. -/
structure Aside (s : System) (a : Nat) (v : Cpu) : Prop where
  inRing3 : v.InRing3
  mode : (s.context a).isKernelMode = (s.inCall a).isSome
  call : ∀ stack, s.inCall a = some stack → ∃ esp0 above vector code, stack = isrFrame v esp0 above vector code
  regs : s.inCall a = none → (s.context a).regs = v.saved

/-- The registers of process `a` are `v`, wherever they are. -/
structure Holds (s : System) (a : Nat) (v : Cpu) : Prop where
  inRing3 : v.InRing3
  mode : (s.context a).isKernelMode = (s.inCall a).isSome
  call : ∀ stack, s.inCall a = some stack → ∃ esp0 above vector code, stack = isrFrame v esp0 above vector code
  regs : s.manager.currentProcess ≠ some a → s.inCall a = none → (s.context a).regs = v.saved
  live : s.manager.currentProcess = some a → s.inCall a = none → s.cpu = v
  machine : s.manager.currentProcess = some a →
    s.pageDirectory = (s.context a).pageDirectory ∧ s.esp0 = (s.context a).kernelStack

private theorem Aside.holds (h : s.Aside a v) (hcurrent : s.manager.currentProcess ≠ some a) : s.Holds a v :=
  ⟨h.inRing3, h.mode, h.call, fun _ => h.regs, fun hc => absurd hc hcurrent, fun hc => absurd hc hcurrent⟩

private theorem Holds.aside (h : s.Holds a v) (hcurrent : s.manager.currentProcess ≠ some a) : s.Aside a v :=
  ⟨h.inRing3, h.mode, h.call, h.regs hcurrent⟩

/-- Only which process is current is read of the manager. -/
private theorem Holds.setManager (h : s.Holds a v) (hcurrent : m'.currentProcess = s.manager.currentProcess) :
    ({ s with manager := m' } : System).Holds a v :=
  ⟨h.inRing3, h.mode, h.call, fun hc => h.regs (hcurrent ▸ hc), fun hc => h.live (hcurrent ▸ hc),
    fun hc => h.machine (hcurrent ▸ hc)⟩

private theorem Aside.setManager (h : s.Aside a v) (m' : Manager) : ({ s with manager := m' } : System).Aside a v :=
  ⟨h.inRing3, h.mode, h.call, h.regs⟩

private theorem call_eq_none (h : s.call = none) (hcurrent : s.manager.currentProcess = some c) :
    s.inCall c = none := by
  cases hstack : s.inCall c with
  | none => rfl
  | some stack => simp [System.call, hcurrent, hstack] at h

private theorem call_eq_some (h : s.call = some (c, stack)) :
    s.manager.currentProcess = some c ∧ s.inCall c = some stack := by
  simp only [System.call, Option.bind_eq_bind, Option.bind_eq_some_iff] at h
  obtain ⟨c', hcurrent, stack', hstack, heq⟩ := h
  cases heq
  exact ⟨hcurrent, hstack⟩

/-- A frame of a process of ring 3 is returned through with what is stored to `regs->eax`. -/
private theorem isrReturn_user (h : v.InRing3) (esp0 : UInt32) (above : List UInt32) (vector code eax : UInt32)
    (c : Cpu) :
    ∃ rest, isrReturn ((isrFrame v esp0 above vector code).setEax eax) c = some ({ v with eax }, rest) :=
  ⟨_, isrReturn_isrFrame h.flat (fun hring => absurd hring h.ring_ne) eax⟩

/-! ### What the kernel does with them -/

/-- The jump to process `a` loads its registers, its stack and its address space. -/
private theorem Aside.jump (h : s.Aside b v) (hcurrent : s.manager.currentProcess = some a)
    (hjump : s.jumpProcWrapper a = some s') : s'.Holds b v := by
  simp only [jumpProcWrapper, Option.bind_eq_bind, Option.bind_eq_some_iff] at hjump
  obtain ⟨⟨cpu, rest⟩, hcpu, heq⟩ := hjump
  cases heq
  refine ⟨h.inRing3, h.mode, h.call, fun _ => h.regs, fun hb hcall => ?_, fun hb => ?_⟩
  · obtain rfl : a = b := Option.some.inj (hcurrent.symm.trans hb)
    have hmode : (s.context a).isKernelMode = false := by rw [h.mode, show s.inCall a = none from hcall]; rfl
    obtain ⟨rest', hregs⟩ := h.inRing3.jumpUsermode (UInt32.ofNat a + REGS_OFFSET)
      { s.cpu with ss := GDT_KERNEL_DATA_INDEX }
    rw [hmode, h.regs hcall, if_neg (by decide), hregs] at hcpu
    exact (congrArg Prod.fst (Option.some.inj hcpu)).symm
  · obtain rfl : a = b := Option.some.inj (hcurrent.symm.trans hb)
    exact ⟨rfl, rfl⟩

/-- Returning through the frame of the current process leaves the registers. -/
private theorem Holds.finishStays (h : s.Holds b v) (hframe : s.manager.currentProcess = some b → s.inCall b = none →
    ∃ esp0 above vector code, stack = isrFrame v esp0 above vector code) (hfinish : s.finish .stays stack = some s') :
    s'.Holds b v := by
  simp only [finish, Option.bind_eq_bind, Option.bind_eq_some_iff] at hfinish
  obtain ⟨⟨cpu, rest⟩, hcpu, heq⟩ := hfinish
  cases heq
  refine ⟨h.inRing3, h.mode, h.call, h.regs, fun hb hcall => ?_, h.machine⟩
  obtain ⟨esp0, above, vector, code, rfl⟩ := hframe hb hcall
  obtain ⟨rest', hreturn⟩ := isrReturn_user h.inRing3 esp0 above vector code v.eax s.cpu
  rw [setEax_isrFrame, hcpu] at hreturn
  exact congrArg Prod.fst (Option.some.inj hreturn)

/-- Saving the registers of the current process puts them aside. -/
private theorem Holds.saveRegisters (h : s.Holds b v)
    (hregs : s.manager.currentProcess = some b → s.inCall b = none → regs = v.saved) :
    (s.saveRegisters regs).Aside b v := by
  unfold System.saveRegisters
  cases hcurrent : s.manager.currentProcess with
  | none => exact h.aside (by simp [hcurrent])
  | some c =>
    by_cases hb : b = c
    · subst hb
      refine ⟨h.inRing3, ?_, h.call, fun hcall => ?_⟩
      · simp only [Function.update_self]
        exact h.mode
      · simp only [Function.update_self]
        exact hregs hcurrent hcall
    · have hc : s.manager.currentProcess ≠ some b := by
        rw [hcurrent]
        exact fun heq => hb (Option.some.inj heq).symm
      refine ⟨h.inRing3, ?_, h.call, fun hcall => ?_⟩
      · simp only [Function.update_of_ne hb]
        exact h.mode
      · simp only [Function.update_of_ne hb]
        exact h.regs hc hcall

/-- What a change of the parts of another process leaves. -/
private theorem Holds.frame (h : s.Holds b v) (hcontext : s'.context b = s.context b) (hcall : s'.inCall b = s.inCall b)
    (hcurrent : s.manager.currentProcess = some b →
      s'.cpu = s.cpu ∧ s'.pageDirectory = s.pageDirectory ∧ s'.esp0 = s.esp0)
    (hmanager : s'.manager.currentProcess = s.manager.currentProcess) : s'.Holds b v := by
  refine ⟨h.inRing3, by rw [hcontext, hcall, h.mode], by rw [hcall]; exact h.call, ?_, ?_, ?_⟩
  · rw [hmanager, hcontext, hcall]
    exact h.regs
  · intro hb
    rw [hmanager] at hb
    rw [hcall, (hcurrent hb).1]
    exact h.live hb
  · intro hb
    rw [hmanager] at hb
    rw [hcontext, (hcurrent hb).2.1, (hcurrent hb).2.2]
    exact h.machine hb

/-- Entering a call keeps the registers in its frame. -/
private theorem Holds.enterCall (h : s.Holds b v)
    (hframe : b = c → ∃ esp0 above vector code, stack = isrFrame v esp0 above vector code) :
    (s.enterCall c stack).Holds b v := by
  by_cases hb : b = c
  · subst hb
    have hcontext : (s.enterCall b stack).context b = { s.context b with isKernelMode := true } :=
      Function.update_self ..
    have hcall : (s.enterCall b stack).inCall b = some stack := Function.update_self ..
    refine ⟨h.inRing3, by rw [hcontext, hcall]; rfl, fun stack' hstack => ?_, fun _ hnone => ?_, fun _ hnone => ?_,
      fun hcurrent => ?_⟩
    · rw [hcall] at hstack
      cases hstack
      exact hframe rfl
    · rw [hcall] at hnone
      cases hnone
    · rw [hcall] at hnone
      cases hnone
    · rw [hcontext]
      exact h.machine hcurrent
  · exact h.frame (Function.update_of_ne hb ..) (Function.update_of_ne hb ..) (fun _ => ⟨rfl, rfl, rfl⟩) rfl

/-- Leaving the call of the current process `c` stores what the call returns to its `eax`. -/
private theorem Holds.leaveCall {eax : UInt32} (h : s.Holds b v) (hcurrent : s.manager.currentProcess = some c)
    (hstack : b = c → ∃ esp0 above vector code, stack = (isrFrame v esp0 above vector code).setEax eax)
    (hleave : s.leaveCall c stack = some s') : s'.Holds b (if b = c then { v with eax } else v) := by
  simp only [System.leaveCall, endCall, finish, Option.bind_eq_bind, Option.bind_eq_some_iff] at hleave
  obtain ⟨⟨cpu, rest⟩, hcpu, heq⟩ := hleave
  cases heq
  by_cases hb : b = c
  · subst hb
    rw [if_pos rfl]
    obtain ⟨esp0, above, vector, code, rfl⟩ := hstack rfl
    obtain ⟨rest', hreturn⟩ := isrReturn_user h.inRing3 esp0 above vector code eax s.cpu
    rw [hreturn] at hcpu
    refine ⟨h.inRing3.setEax eax, ?_, fun stack' hcall => ?_, fun hne => absurd hcurrent hne, fun _ _ => ?_, fun _ => ?_⟩
    · simp only [Function.update_self, Option.isSome_none]
    · simp only [Function.update_self] at hcall
      cases hcall
    · exact (congrArg Prod.fst (Option.some.inj hcpu)).symm
    · simp only [Function.update_self, and_true]
      exact (h.machine hcurrent).1
  · rw [if_neg hb]
    refine h.frame (Function.update_of_ne hb ..) (Function.update_of_ne hb ..) (fun hbc => ?_) rfl
    exact absurd (Option.some.inj (hbc.symm.trans hcurrent)) hb

end System

/-! ### What the manager does -/

variable {m : Manager} {r r' : Sched} {e : Event} {V : Processors}

/-- The process that is current after an entry. -/
def Outcome.current (o : Outcome) (c : Option Nat) : Option Nat := o.target.or c

private theorem Sched.Switch.current (h : r.Switch o r') : r'.current = o.current r.current := by
  cases h <;> rfl

private theorem Sched.Step.current (h : r.Step e o r') : r'.current = o.current r.current := by
  cases h with
  | tick _ hswitch => exact hswitch.current
  | pollWait _ _ hswitch => exact hswitch.current
  | execve _ _ hswitch => exact hswitch.current
  | execveFailed _ hswitch => exact hswitch.current
  | _ => rfl

/-- Only the current process leaves the ring, and only by exiting. -/
private theorem Sched.Step.mem (h : r.Step e o r') (hb : b ∈ r.order) :
    b ∈ r'.order ∨ e = .exit ∧ r.current = some b := by
  cases h with
  | create => exact .inl (List.mem_append_left _ hb)
  | tick _ hswitch => exact .inl (hswitch.order ▸ hb)
  | pollWait _ _ hswitch => exact .inl (hswitch.order ▸ hb)
  | execve _ _ hswitch => exact .inl (hswitch.order ▸ List.mem_append_left _ hb)
  | execveFailed _ hswitch => exact .inl (hswitch.order ▸ hb)
  | @exit a c rest hruns =>
    by_cases hbc : b = c
    · exact .inr ⟨rfl, hbc ▸ hruns.current⟩
    · exact .inl ((List.mem_erase_of_ne hbc).2 hb)
  | _ => exact .inl hb

/-- A created process is new, and not the current one. -/
private theorem Sched.Step.created {stale : Process} (h : r.Step e o r')
    (he : e = .create (.created a stale) ∨ e = .execve (.created a stale)) :
    a ∉ r.order ∧ a ∈ r'.order ∧ r.current ≠ some a := by
  cases h with
  | create hcurrent hfresh =>
    rcases he with he | he <;> cases he
    refine ⟨hfresh.notMem, List.mem_append_right _ List.mem_cons_self, ?_⟩
    rw [hcurrent]
    exact nofun
  | execve hruns hfresh hswitch =>
    rcases he with he | he <;> cases he
    refine ⟨hfresh.notMem, hswitch.order ▸ List.mem_append_right _ List.mem_cons_self, ?_⟩
    rw [hruns.current]
    rintro ⟨rfl⟩
    exact hfresh.notMem hruns.mem
  | _ => rcases he with he | he <;> cases he

private theorem Abs.step_cases (h : Abs m r) (hm : m.step e = some (m', o)) : ∃ r', Abs m' r' ∧ r.Step e o r' ∧
    m'.currentProcess = o.current m.currentProcess := by
  obtain ⟨r', hstep, h'⟩ := h.step hm
  exact ⟨r', h', hstep, by rw [h'.current, h.current, hstep.current]⟩

/-! ### Steps -/

/-- The processors of the processes are what the kernel keeps of them. -/
structure System.Inv (s : System) (V : Processors) : Prop where
  ring : ∃ r, Abs s.manager r ∧ ∀ a v, V a = some v → a ∈ r.order
  holds : ∀ a v, V a = some v → s.Holds a v

namespace System

private theorem finish_manager (h : s.finish o stack = some s') : s'.manager = s.manager := by
  cases o with
  | stays =>
    simp only [finish, Option.bind_eq_bind, Option.bind_eq_some_iff] at h
    obtain ⟨_, -, heq⟩ := h
    cases heq
    rfl
  | dispatches a was =>
    simp only [finish, jumpProcWrapper, Option.bind_eq_bind, Option.bind_eq_some_iff] at h
    obtain ⟨_, -, heq⟩ := h
    cases heq
    rfl

private theorem leaveCall_manager (h : s.leaveCall c stack = some s') : s'.manager = s.manager :=
  finish_manager (s := s.endCall c) h

private theorem switchTo_manager (h : s.switchTo e regs stack = some s') :
    ∃ o, s.manager.step e = some (s'.manager, o) := by
  simp only [switchTo, Option.bind_eq_bind, Option.bind_eq_some_iff] at h
  obtain ⟨⟨m', o⟩, hm, h⟩ := h
  cases o <;> exact ⟨_, by rw [finish_manager h]; exact hm⟩

private theorem exitCurrentProcess_manager (h : s.exitCurrentProcess stack = some s') :
    ∃ o, s.manager.step .exit = some (s'.manager, o) := by
  simp only [exitCurrentProcess, Option.bind_eq_bind, Option.bind_eq_some_iff] at h
  obtain ⟨⟨m', o⟩, hm, h⟩ := h
  exact ⟨_, by rw [finish_manager h]; exact hm⟩

/-- A switch puts the registers of the current process aside and takes up those of the next. -/
private theorem Holds.switchTo (h : s.Holds b v) (habs : Abs s.manager r)
    (hregs : s.manager.currentProcess = some b → s.inCall b = none → regs = v.saved)
    (hframe : s.manager.currentProcess = some b → s.inCall b = none →
      ∃ esp0 above vector code, stack = isrFrame v esp0 above vector code)
    (hswitch : s.switchTo e regs stack = some s') : s'.Holds b v := by
  simp only [System.switchTo, Option.bind_eq_bind, Option.bind_eq_some_iff] at hswitch
  obtain ⟨⟨m', o⟩, hm, hswitch⟩ := hswitch
  obtain ⟨-, -, -, hcurrent⟩ := habs.step_cases hm
  cases o with
  | stays => exact (h.setManager hcurrent).finishStays (fun hc => hframe (hcurrent.symm.trans hc)) hswitch
  | dispatches a was => exact ((h.saveRegisters hregs).setManager m').jump hcurrent hswitch

/-- An exit leaves the registers of the other processes. -/
private theorem Holds.exitCurrentProcess (h : s.Holds b v) (habs : Abs s.manager r)
    (hb : s.manager.currentProcess ≠ some b)
    (hexit : s.exitCurrentProcess stack = some s') : s'.Holds b v := by
  simp only [System.exitCurrentProcess, Option.bind_eq_bind, Option.bind_eq_some_iff] at hexit
  obtain ⟨⟨m', o⟩, hm, hexit⟩ := hexit
  obtain ⟨-, -, -, hcurrent⟩ := habs.step_cases hm
  cases o with
  | stays => exact (h.setManager hcurrent).finishStays (fun hc => absurd (hcurrent.symm.trans hc) hb) hexit
  | dispatches a was => exact ((h.aside hb).setManager m').jump hcurrent hexit

@[simp] theorem place_manager (s : System) (creation : Creation) (image : Image) :
    (s.place creation image).manager = s.manager := by
  cases creation <;> rfl

private theorem place_inCall {creation : Creation} {image : Image} (hb : ∀ stale, creation ≠ .created b stale) :
    (s.place creation image).inCall b = s.inCall b := by
  cases creation with
  | failed pidTaken => rfl
  | created a stale =>
    refine Function.update_of_ne ?_ ..
    rintro rfl
    exact hb stale rfl

/-- A process that is created is put aside as it begins. -/
private theorem Holds.place {creation : Creation} {image : Image} (h : s.Holds b v)
    (hb : ∀ stale, creation ≠ .created b stale) : (s.place creation image).Holds b v := by
  cases creation with
  | failed pidTaken => exact h
  | created a stale =>
    have hne : b ≠ a := by
      rintro rfl
      exact hb stale rfl
    exact h.frame (Function.update_of_ne hne ..) (Function.update_of_ne hne ..) (fun _ => ⟨rfl, rfl, rfl⟩) rfl

private theorem place_aside {stale : Process} {image : Image} (himage : image.isKernelMode = false) :
    (s.place (.created a stale) image).Aside a image.start := by
  refine ⟨image.start_inRing3, ?_, fun stack hcall => ?_, fun _ => ?_⟩
  · simp only [System.place, Function.update_self, Option.isSome_none]
    exact himage
  · simp only [System.place, Function.update_self] at hcall
    cases hcall
  · simp only [System.place, Function.update_self]
    exact Image.context_regs himage

/-! ### The invariant -/

/-- An entry that neither creates nor ends a process keeps the ring. -/
private theorem Inv.ofManager {V' : Processors} (h : s.Inv V) (hm : s.manager.step e = some (m', o)) (he : e ≠ .exit)
    (hmanager : s'.manager = m') (hV : ∀ a, (V' a).isSome = (V a).isSome) (hholds : ∀ a v, V' a = some v → s'.Holds a v) :
    s'.Inv V' := by
  obtain ⟨r, habs, hmem⟩ := h.ring
  obtain ⟨r', habs', hstep, -⟩ := habs.step_cases hm
  refine ⟨⟨r', hmanager ▸ habs', fun a v ha => ?_⟩, hholds⟩
  obtain ⟨v', hv'⟩ := Option.isSome_iff_exists.1 ((hV a).symm.trans (by rw [ha]; rfl))
  exact (hstep.mem (hmem a v' hv')).resolve_right fun hexit => he hexit.1

private theorem Inv.sameManager {V' : Processors} (h : s.Inv V) (hmanager : s'.manager = s.manager)
    (hV : ∀ a, (V' a).isSome = (V a).isSome) (hholds : ∀ a v, V' a = some v → s'.Holds a v) : s'.Inv V' := by
  obtain ⟨r, habs, hmem⟩ := h.ring
  refine ⟨⟨r, hmanager ▸ habs, fun a v ha => ?_⟩, hholds⟩
  obtain ⟨v', hv'⟩ := Option.isSome_iff_exists.1 ((hV a).symm.trans (by rw [ha]; rfl))
  exact hmem a v' hv'

private theorem isSome_does (V : Processors) (c : Nat) (f : Cpu → Cpu) (a : Nat) :
    (V.does c f a).isSome = (V a).isSome := by
  unfold Processors.does
  by_cases ha : a = c
  · rw [ha, Function.update_self, Option.isSome_map]
  · rw [Function.update_of_ne ha]

/-- The processors after a step of process `c`. -/
private theorem does_eq_some {V : Processors} {f : Cpu → Cpu} (h : V.does c f a = some v) :
    ∃ u, V a = some u ∧ v = if a = c then f u else u := by
  unfold Processors.does at h
  by_cases ha : a = c
  · subst ha
    rw [Function.update_self] at h
    obtain ⟨u, hu, rfl⟩ := Option.map_eq_some_iff.1 h
    exact ⟨u, hu, (if_pos rfl).symm⟩
  · rw [Function.update_of_ne ha] at h
    exact ⟨v, h, (if_neg ha).symm⟩

/-- The current process exits: of the other processes all is as before. -/
private theorem Inv.exitCurrentProcess (h : s.Inv V) (hcurrent : s.manager.currentProcess = some c)
    (hexit : s.exitCurrentProcess stack = some s') : s'.Inv (V.ends c) := by
  obtain ⟨r, habs, hmem⟩ := h.ring
  obtain ⟨o, hm⟩ := exitCurrentProcess_manager hexit
  obtain ⟨r', habs', hstep, -⟩ := habs.step_cases hm
  have hother : ∀ a v, V.ends c a = some v → V a = some v ∧ s.manager.currentProcess ≠ some a := by
    intro a v ha
    have hac : a ≠ c := by
      rintro rfl
      simp [Processors.ends] at ha
    rw [Processors.ends, Function.update_of_ne hac] at ha
    exact ⟨ha, fun hc => hac (Option.some.inj (hc.symm.trans hcurrent))⟩
  refine ⟨⟨r', habs', fun a v ha => ?_⟩, fun a v ha => ?_⟩
  · obtain ⟨hV, hne⟩ := hother a v ha
    exact (hstep.mem (hmem a v hV)).resolve_right fun hc => hne (habs.current.trans hc.2)
  · obtain ⟨hV, hne⟩ := hother a v ha
    exact (h.holds a v hV).exitCurrentProcess habs hne hexit

/-- The processors after a creation are the old ones, and the one of the process created. -/
private theorem begin_eq_some {creation : Creation} {image : Image} (h : V.begin creation image b = some v) :
    (∃ stale, creation = .created b stale) ∧ image.isKernelMode = false ∧ v = image.start ∨
      (∀ stale, creation ≠ .created b stale) ∧ V b = some v := by
  cases creation with
  | failed pidTaken => exact .inr ⟨nofun, h⟩
  | created a stale =>
    rw [show V.begin (.created a stale) image =
      Function.update V a (if image.isKernelMode then none else some image.start) from rfl] at h
    by_cases hb : b = a
    · subst hb
      rw [Function.update_self] at h
      split at h
      · cases h
      · rename_i hmode
        cases h
        exact .inl ⟨⟨stale, rfl⟩, by simpa using hmode, rfl⟩
    · rw [Function.update_of_ne hb] at h
      refine .inr ⟨fun stale' heq => ?_, h⟩
      cases heq
      exact hb rfl

/-- Creating a process keeps the ring and adds to it. -/
private theorem Inv.begin {creation : Creation} {image : Image} (h : s.Inv V) (hm : s.manager.step e = some (m', o))
    (he : e = .create creation ∨ e = .execve creation) (hmanager : s'.manager = m')
    (hholds : ∀ b v, (s.place creation image).Holds b v → s'.Holds b v) : s'.Inv (V.begin creation image) := by
  obtain ⟨r, habs, hmem⟩ := h.ring
  obtain ⟨r', habs', hstep, -⟩ := habs.step_cases hm
  have hne : e ≠ .exit := by rcases he with rfl | rfl <;> exact nofun
  refine ⟨⟨r', hmanager ▸ habs', fun b v hb => ?_⟩, fun b v hb => hholds b v ?_⟩
  · rcases begin_eq_some hb with ⟨⟨stale, rfl⟩, -, -⟩ | ⟨-, hV⟩
    · exact (hstep.created he).2.1
    · exact (hstep.mem (hmem b v hV)).resolve_right fun hexit => hne hexit.1
  · rcases begin_eq_some hb with ⟨⟨stale, rfl⟩, hmode, rfl⟩ | ⟨hfresh, hV⟩
    · refine (place_aside hmode).holds ?_
      change s.manager.currentProcess ≠ some b
      rw [habs.current]
      exact (hstep.created he).2.2
    · exact (h.holds b v hV).place hfresh

/-- The frame of the current process of ring 3. -/
private theorem Inv.frame (h : s.Inv V) (hcall : s.call = none) {esp0 vector code : UInt32} {above : List UInt32}
    (hstack : stack = isrFrame s.cpu esp0 above vector code) (hV : V b = some v)
    (hcurrent : s.manager.currentProcess = some b) : stack = isrFrame v esp0 above vector code := by
  rw [hstack, (h.holds b v hV).live hcurrent (call_eq_none hcall hcurrent)]

private theorem Inv.leaveCall {eax : UInt32} (h : s.Inv V) (hcurrent : s.manager.currentProcess = some c)
    (hstack : ∀ v, V c = some v → ∃ esp0 above vector code, stack = (isrFrame v esp0 above vector code).setEax eax)
    (hleave : s.leaveCall c stack = some s') : s'.Inv (V.returns c eax) := by
  refine h.sameManager (leaveCall_manager hleave) (isSome_does V c _) fun b v hb => ?_
  obtain ⟨u, hu, rfl⟩ := does_eq_some hb
  refine (h.holds b u hu).leaveCall hcurrent (fun hbc => ?_) hleave
  subst hbc
  exact hstack u hu

private theorem Inv.enterCall {esp0 vector code : UInt32} {above : List UInt32} (h : s.Inv V)
    (hstack : ∀ v, V c = some v → stack = isrFrame v esp0 above vector code) : (s.enterCall c stack).Inv V := by
  refine ⟨h.ring, fun b v hb => (h.holds b v hb).enterCall fun hbc => ?_⟩
  subst hbc
  exact ⟨_, _, _, _, hstack v hb⟩

private theorem returns_self {eax : UInt32} (h : ∀ v, V c = some v → v.eax = eax) : V.returns c eax = V := by
  unfold Processors.returns Processors.does
  cases hV : V c with
  | none => rw [Option.map_none, ← hV, Function.update_eq_self]
  | some v => rw [Option.map_some, ← h v hV, ← hV, Function.update_eq_self]

private theorem Inv.handleSyscall {regs : IntRegisters} {input : Input} {esp0 vector code : UInt32}
    {above : List UInt32}
    (h : s.Inv V) (hcall : s.call = none) (hcurrent : s.manager.currentProcess = some c)
    (hstack : stack = isrFrame s.cpu esp0 above vector code)
    (hstep : s.handleSyscall regs stack input = some s') : s'.Inv (V.syscall c regs.eax input) := by
  have hframe : ∀ v, V c = some v → stack = isrFrame v esp0 above vector code :=
    fun v hV => h.frame hcall hstack hV hcurrent
  have hsame : ∀ v, V c = some v → v.eax = s.cpu.eax := fun v hV => by
    rw [(h.holds c v hV).live hcurrent (call_eq_none hcall hcurrent)]
  have hreply : ∀ reply v, V c = some v →
      ∃ esp0 above vector code, stack.setEax reply = (isrFrame v esp0 above vector code).setEax reply :=
    fun reply v hV => ⟨_, _, _, _, by rw [hframe v hV]⟩
  have henter := h.enterCall hframe
  have hin : (s.enterCall c stack).inCall c = some stack := Function.update_self ..
  unfold System.handleSyscall at hstep
  unfold Processors.syscall
  split at hstep
  · -- no handler is attached
    rename_i hnone
    rw [hnone]
    refine h.sameManager (finish_manager hstep) (fun _ => rfl) fun b v hV => (h.holds b v hV).finishStays ?_ hstep
    exact fun hb _ => ⟨_, _, _, _, h.frame hcall hstack hV hb⟩
  · rename_i handler hhandler
    rw [hhandler]
    simp only [hcurrent, Option.bind_eq_bind, Option.bind_some] at hstep
    have hprint : (s.enterCall c stack).leaveCall c stack = some s' → s'.Inv V := by
      intro hleave
      have hself : ∀ v, V c = some v →
          ∃ esp0 above vector code, stack = (isrFrame v esp0 above vector code).setEax s.cpu.eax := fun v hV =>
        ⟨esp0, above, vector, code, by rw [← hsame v hV, setEax_isrFrame, hframe v hV]⟩
      have hinv := henter.leaveCall (c := c) hcurrent hself hleave
      rwa [returns_self hsame] at hinv
    cases handler with
    | sysExit => exact henter.exitCurrentProcess hcurrent hstep
    | sysExecve =>
      obtain ⟨o, hm⟩ := switchTo_manager hstep
      obtain ⟨r, habs, -⟩ := h.ring
      have hmanager := place_manager (s.enterCall c stack) input.creation input.image
      rw [hmanager] at hm
      obtain ⟨_, -, hexecve, -⟩ := habs.step_cases hm
      -- the process that calls is not the one created, and stays in its call
      have hne : ∀ stale, input.creation ≠ .created c stale := fun stale heq =>
        (hexecve.created (.inr (congrArg Event.execve heq))).2.2 (habs.current.symm.trans hcurrent)
      have hinside : ((s.enterCall c stack).place input.creation input.image).inCall c = some stack := by
        rw [place_inCall hne, hin]
      have hcalls : ∀ b, ((s.enterCall c stack).place input.creation input.image).manager.currentProcess = some b →
          ((s.enterCall c stack).place input.creation input.image).inCall b ≠ none := by
        intro b hb
        rw [hmanager] at hb
        obtain rfl : c = b := Option.some.inj (hcurrent.symm.trans hb)
        rw [hinside]
        exact nofun
      exact henter.begin hm (.inr rfl) rfl fun b v hb => hb.switchTo (hmanager ▸ habs)
        (fun hc hnone => absurd hnone (hcalls b hc)) (fun hc hnone => absurd hnone (hcalls b hc)) hstep
    | sysRead =>
      simp only at hstep ⊢
      split at hstep
      · rename_i hterminal
        rw [if_pos hterminal]
        simp only [Option.bind_eq_some_iff] at hstep
        obtain ⟨⟨m', o⟩, hm, heq⟩ := hstep
        cases heq
        obtain ⟨r, habs, -⟩ := h.ring
        obtain ⟨_, -, hread, hcurrent'⟩ := habs.step_cases hm
        cases hread
        exact henter.ofManager hm (by simp) rfl (fun _ => rfl) fun b v hb => (henter.holds b v hb).setManager hcurrent'
      · rename_i hterminal
        rw [if_neg hterminal]
        exact henter.leaveCall (c := c) hcurrent (hreply input.reply) hstep
    | printLogo => exact hprint hstep
    | printBye => exact hprint hstep
    | _ => exact henter.leaveCall (c := c) hcurrent (hreply input.reply) hstep

end System

/-! ### Interrupts -/

private theorem handlers_eq (vector : UInt32) : handlers vector =
    if vector = 0x69 then some .switchProcess else if vector = 0x80 then some .handleSyscall
    else if vector = 0x21 then some .keyboardIrq else if vector = 0x20 then some .timerIrq else none := by
  simp [handlers, registerIsrHandler, IDT_SIZE, Dev.PIC1_IRQ_INDEX, Dev.PIT_IRQ, Dev.KEYBOARD_IRQ, Function.update_apply]

/-- The frame holds the vector, and the number of a system call. -/
private theorem isrFrame_vector {c : Cpu} {esp0 vector code w w' : UInt32} {regs : IntRegisters}
    (h : (isrFrame c esp0 (if c.ring = 0 then [w, w'] else []) vector code).intRegisters = some regs) :
    regs.interrupt = vector ∧ regs.eax = c.eax := by
  obtain ⟨kernEsp, hframe⟩ := isrFrame_intRegisters c esp0 (if c.ring = 0 then [w, w'] else []) vector code
    (fun hring => if_pos hring)
  rw [h] at hframe
  cases hframe
  exact ⟨rfl, rfl⟩

namespace System

private theorem Inv.timerIrq {esp0 vector code : UInt32} {above : List UInt32} {regs : IntRegisters}
    (ring0Regs : ProcessRegisters)
    (h : s.Inv V) (hcall : s.call = none) (hstack : stack = isrFrame s.cpu esp0 above vector code)
    (hregs : stack.intRegisters = some regs)
    (hstep : s.switchTo .tick (if s.cpu.ring = 0 then ring0Regs else copyRegisters regs) stack = some s') :
    s'.Inv V := by
  obtain ⟨o, hm⟩ := switchTo_manager hstep
  obtain ⟨r, habs, -⟩ := h.ring
  refine h.ofManager hm (by simp) rfl (fun _ => rfl) fun b v hV => ?_
  refine (h.holds b v hV).switchTo habs (fun hb hnone => ?_) (fun hb _ => ?_) hstep
  · obtain hlive := (h.holds b v hV).live hb hnone
    have hring3 := (h.holds b v hV).inRing3
    rw [hstack, hlive] at hregs
    rw [hlive, if_neg hring3.ring_ne, (hring3.copyRegisters hregs).1]
  · exact ⟨_, _, _, _, h.frame hcall hstack hV hb⟩

private theorem Inv.wakes {esp0 vector code : UInt32} {above : List UInt32} (h : s.Inv V) (hcall : s.call = none)
    (hstack : stack = isrFrame s.cpu esp0 above vector code) (hm : s.manager.step .newline = some (m', o))
    (hstep : finish { s with manager := m' } o stack = some s') : s'.Inv V := by
  obtain ⟨r, habs, -⟩ := h.ring
  obtain ⟨_, -, hnewline, hcurrent⟩ := habs.step_cases hm
  cases hnewline
  refine h.ofManager hm (by simp) (finish_manager hstep) (fun _ => rfl) fun b v hV => ?_
  refine ((h.holds b v hV).setManager hcurrent).finishStays (fun hb _ => ?_) hstep
  exact ⟨_, _, _, _, h.frame hcall hstack hV (hcurrent.symm.trans hb)⟩

private theorem Inv.returns {esp0 vector code : UInt32} {above : List UInt32} (h : s.Inv V) (hcall : s.call = none)
    (hstack : stack = isrFrame s.cpu esp0 above vector code) (hstep : s.finish .stays stack = some s') : s'.Inv V :=
  h.sameManager (finish_manager hstep) (fun _ => rfl) fun b v hV => (h.holds b v hV).finishStays
    (fun hb _ => ⟨_, _, _, _, h.frame hcall hstack hV hb⟩) hstep

/-- Without a current process there is nothing to exit. -/
private theorem exit_current (h : s.exitCurrentProcess stack = some s') : ∃ c, s.manager.currentProcess = some c := by
  obtain ⟨o, hm⟩ := exitCurrentProcess_manager h
  simp only [Manager.step, Manager.reading, Option.bind_eq_bind, Option.bind_eq_some_iff] at hm
  obtain ⟨_, ⟨c, hc, -⟩, -⟩ := hm
  exact ⟨c, hc⟩

/-- What is neither a call nor a fault is nothing to the processes. -/
private theorem processors_interrupt {vector code : UInt32} {input : Input} (hsyscall : vector ≠ 0x80)
    (hfault : vector ≠ 14) :
    s.processors V (.interrupt vector code input) = V := by
  unfold processors
  cases s.manager.currentProcess with
  | none => rfl
  | some c => simp only [effect, if_neg hsyscall, if_neg hfault]

/-- `int 0x80`, also where no process is current. -/
private theorem Inv.syscall {regs : IntRegisters} {input : Input} {esp0 code : UInt32} {above : List UInt32}
    (h : s.Inv V)
    (hcall : s.call = none) (hstack : stack = isrFrame s.cpu esp0 above 0x80 code) (heax : regs.eax = s.cpu.eax)
    (hstep : s.handleSyscall regs stack input = some s') : s'.Inv (s.processors V (.interrupt 0x80 code input)) := by
  cases hcurrent : s.manager.currentProcess with
  | none =>
    simp only [processors, hcurrent]
    unfold System.handleSyscall at hstep
    split at hstep
    · exact h.returns hcall hstack hstep
    · rw [hcurrent] at hstep
      cases hstep
  | some c =>
    have heax' : ((V c).getD s.cpu).eax = regs.eax := by
      rw [heax]
      cases hV : V c with
      | none => rfl
      | some v => rw [(h.holds c v hV).live hcurrent (call_eq_none hcall hcurrent)]; rfl
    simp only [processors, hcurrent, effect, if_true, heax']
    exact h.handleSyscall hcall hcurrent hstack hstep

private theorem Inv.interrupt {vector code : UInt32} {input : Input} (h : s.Inv V)
    (hstep : s.step (.interrupt vector code input) = some s') :
    s'.Inv (s.processors V (.interrupt vector code input)) := by
  simp only [System.step] at hstep
  split at hstep
  · rename_i hguard
    obtain ⟨hcall, hvector⟩ := hguard
    simp only [Option.bind_eq_bind, Option.bind_eq_some_iff] at hstep
    obtain ⟨regs, hregs, hstep⟩ := hstep
    obtain ⟨hinterrupt, heax⟩ := isrFrame_vector hregs
    unfold isrWrapper at hstep
    rw [hinterrupt, handlers_eq, if_neg hvector] at hstep
    by_cases hsyscall : vector = 0x80
    · subst hsyscall
      rw [if_pos rfl] at hstep
      exact h.syscall hcall rfl heax hstep
    · rw [if_neg hsyscall] at hstep
      by_cases hfault : vector = 14
      · subst hfault
        obtain ⟨c, hcurrent⟩ := exit_current hstep
        simp only [processors, hcurrent, effect, if_neg hsyscall, if_true]
        exact h.exitCurrentProcess hcurrent hstep
      · rw [processors_interrupt hsyscall hfault]
        by_cases hkeyboard : vector = 0x21
        · simp only [if_pos hkeyboard] at hstep
          split at hstep
          · simp only [Option.bind_eq_bind, Option.bind_eq_some_iff] at hstep
            obtain ⟨⟨m', o⟩, hm, hstep⟩ := hstep
            exact h.wakes hcall rfl hm hstep
          · exact h.returns hcall rfl hstep
        · rw [if_neg hkeyboard] at hstep
          by_cases htimer : vector = 0x20
          · rw [if_pos htimer] at hstep
            exact h.timerIrq _ hcall rfl hregs hstep
          · rw [if_neg htimer] at hstep
            simp only [if_neg hfault] at hstep
            split at hstep
            · exact h.returns hcall rfl hstep
            · cases hstep
  · cases hstep

/-! ### The other actions -/

/-- A process that runs outside of the kernel keeps its segments, if it is of ring 3. -/
def Allowed (s : System) (act : Action) : Prop :=
  ∀ f, act = .run f → s.cpu.InRing3 → (f s.cpu).InRing3

private theorem Inv.run {f : Cpu → Cpu} (h : s.Inv V) (hallowed : s.Allowed (.run f))
    (hstep : s.step (.run f) = some s') :
    s'.Inv (s.processors V (.run f)) := by
  simp only [System.step] at hstep
  split at hstep
  · rename_i hguard
    obtain ⟨hsome, hcall⟩ := hguard
    obtain ⟨c, hcurrent⟩ := Option.isSome_iff_exists.1 hsome
    cases hstep
    simp only [processors, hcurrent, effect]
    refine h.sameManager rfl (isSome_does V c f) fun b v hb => ?_
    obtain ⟨u, hu, rfl⟩ := does_eq_some hb
    have hold := h.holds b u hu
    by_cases hbc : b = c
    · subst hbc
      have hlive := hold.live hcurrent (call_eq_none hcall hcurrent)
      rw [if_pos rfl, ← hlive]
      refine ⟨hallowed f rfl (hlive ▸ hold.inRing3), hold.mode, fun stack hin => ?_, fun hne => absurd hcurrent hne,
        fun _ _ => rfl, hold.machine⟩
      rw [call_eq_none hcall hcurrent] at hin
      cases hin
    · rw [if_neg hbc]
      exact hold.frame rfl rfl (fun hb => absurd (Option.some.inj (hb.symm.trans hcurrent)) hbc) rfl
  · cases hstep

private theorem Inv.create {creation : Creation} {image : Image} (h : s.Inv V)
    (hstep : s.step (.create creation image) = some s') : s'.Inv (s.processors V (.create creation image)) := by
  simp only [System.step, Option.bind_eq_bind, Option.bind_eq_some_iff] at hstep
  obtain ⟨⟨m', o⟩, hm, heq⟩ := hstep
  cases heq
  obtain ⟨r, habs, -⟩ := h.ring
  obtain ⟨_, -, hcreate, hcurrent'⟩ := habs.step_cases hm
  have hcurrent : s.manager.currentProcess = none := by
    simp only [Manager.step] at hm
    split at hm
    · rename_i hguard
      exact hguard.1
    · cases hm
  simp only [processors, hcurrent]
  refine h.begin hm (.inl rfl) rfl fun b v hb => hb.setManager ?_
  rw [place_manager]
  cases hcreate <;> exact hcurrent'

private theorem Inv.enableProcesses (h : s.Inv V) (hstep : s.step .enableProcesses = some s') :
    s'.Inv (s.processors V .enableProcesses) := by
  simp only [System.step, Option.bind_eq_bind, Option.bind_eq_some_iff] at hstep
  obtain ⟨⟨m', o⟩, hm, heq⟩ := hstep
  cases heq
  obtain ⟨r, habs, -⟩ := h.ring
  obtain ⟨_, -, henable, hcurrent'⟩ := habs.step_cases hm
  cases henable
  have hV : s.processors V .enableProcesses = V := by
    unfold processors
    cases s.manager.currentProcess <;> rfl
  rw [hV]
  exact h.ofManager hm (by simp) rfl (fun _ => rfl) fun b v hb => (h.holds b v hb).setManager hcurrent'

/-- The frame of the call that the current process is inside. -/
private theorem Inv.inside (h : s.Inv V) (hcall : s.call = some (c, stack)) (reply : UInt32) : ∀ v, V c = some v →
    ∃ esp0 above vector code, stack.setEax reply = (isrFrame v esp0 above vector code).setEax reply := by
  intro v hV
  obtain ⟨esp0, above, vector, code, rfl⟩ := (h.holds c v hV).call stack (call_eq_some hcall).2
  exact ⟨_, _, _, _, rfl⟩

private theorem Inv.poll {input : Input} (h : s.Inv V) (hstep : s.step (.poll input) = some s') :
    s'.Inv (s.processors V (.poll input)) := by
  simp only [System.step, Option.bind_eq_bind, Option.bind_eq_some_iff] at hstep
  obtain ⟨⟨c, stack⟩, hcall, ⟨m', o⟩, hm, hstep⟩ := hstep
  obtain ⟨hcurrent, hin⟩ := call_eq_some hcall
  obtain ⟨r, habs, -⟩ := h.ring
  obtain ⟨_, -, hpoll, hcurrent'⟩ := habs.step_cases hm
  obtain ⟨t, ht, -, hinput⟩ := habs.terminal
  simp only [processors, hcurrent, effect, ht, Option.any_some, hinput]
  cases hpoll with
  | pollReady hruns hready =>
    rw [if_pos hready]
    have hmanager : ({ s with manager := m' } : System).Inv V :=
      h.ofManager hm (by simp) rfl (fun _ => rfl) fun b v hb => (h.holds b v hb).setManager hcurrent'
    exact hmanager.leaveCall (hcurrent'.trans hcurrent) (h.inside hcall input.reply) hstep
  | pollWait hruns hwait hswitch =>
    rw [hwait, if_neg (by decide)]
    rcases hswitch.target with ⟨hempty, -, -⟩ | ⟨a, was, rfl, -, -, -⟩
    · have hmem := hruns.mem
      rw [show r.order = [] from hempty] at hmem
      cases hmem
    · refine h.ofManager hm (by simp) (finish_manager hstep) (fun _ => rfl) fun b v hb => ?_
      have haside : (s.saveRegisters input.ring0Regs).Aside b v := (h.holds b v hb).saveRegisters fun hc hnone => by
        obtain rfl : c = b := Option.some.inj (hcurrent.symm.trans hc)
        rw [hnone] at hin
        cases hin
      exact (haside.setManager m').jump hcurrent' hstep

private theorem Inv.resume {reply : UInt32} (h : s.Inv V) (hstep : s.step (.resume reply) = some s') :
    s'.Inv (s.processors V (.resume reply)) := by
  simp only [System.step, Option.bind_eq_bind, Option.bind_eq_some_iff] at hstep
  obtain ⟨⟨c, stack⟩, hcall, ⟨c', inTerminalRead⟩, hreading, hstep⟩ := hstep
  obtain ⟨hcurrent, hin⟩ := call_eq_some hcall
  simp only [processors, hcurrent, effect]
  split at hstep
  · cases hstep
  · exact h.leaveCall hcurrent (h.inside hcall reply) hstep

private theorem Inv.step {act : Action} (h : s.Inv V) (hallowed : s.Allowed act) (hstep : s.step act = some s') :
    s'.Inv (s.processors V act) := by
  cases act with
  | run f => exact h.run hallowed hstep
  | create creation image => exact h.create hstep
  | enableProcesses => exact h.enableProcesses hstep
  | interrupt vector code input => exact h.interrupt hstep
  | poll input => exact h.poll hstep
  | resume reply => exact h.resume hstep

private theorem Inv.runs {acts : List Action} (h : s.Inv V) (hrun : Machine.Run System.step System.Allowed s acts s') :
    s'.Inv (s.alone V acts) := by
  induction hrun generalizing V with
  | nil => exact h
  | cons hallowed hstep _ ih =>
    rw [alone, hstep]
    exact ih (h.step hallowed hstep)

end System

/-- From boot on, in every interleaving of interrupts, faults, system calls, switches inside calls, creations and
exits: the registers of every process of ring 3 are those it would have on a processor of its own.  They are in the
processor, with its stack and its address space loaded, when it is current outside of a call; a jump to it loads them
when it is not; and inside a call, the return of the call restores them with what it returns. -/
theorem processes_alone {s₀ s : System} {acts : List System.Action} (hboot : s₀.manager = Manager.boot)
    (hrun : Machine.Run System.step System.Allowed s₀ acts s) {a : Nat} {v : Cpu}
    (ha : s₀.alone (fun _ => none) acts a = some v) :
    (s.manager.node a).isSome ∧
    (s.manager.currentProcess = some a →
      s.pageDirectory = (s.context a).pageDirectory ∧ s.esp0 = (s.context a).kernelStack) ∧
    match s.inCall a with
    | none =>
      if s.manager.currentProcess = some a then s.cpu = v
      else ∃ s', s.jumpProcWrapper a = some s' ∧ s'.cpu = v ∧ s'.pageDirectory = (s.context a).pageDirectory ∧
        s'.esp0 = (s.context a).kernelStack
    | some stack => ∀ reply c, ∃ rest, isrReturn (stack.setEax reply) c = some ({ v with eax := reply }, rest) := by
  have h₀ : s₀.Inv fun _ => none := ⟨⟨_, hboot ▸ Abs.boot, nofun⟩, nofun⟩
  have h := h₀.runs hrun
  obtain ⟨r, habs, hmem⟩ := h.ring
  have hold := h.holds a v ha
  refine ⟨habs.node_isSome_iff.2 (hmem a v ha), hold.machine, ?_⟩
  cases hin : s.inCall a with
  | none =>
    simp only
    split
    · rename_i hcurrent
      exact hold.live hcurrent hin
    · rename_i hcurrent
      obtain ⟨rest, hjump⟩ := hold.inRing3.jumpUsermode (UInt32.ofNat a + System.REGS_OFFSET)
        { s.cpu with ss := GDT_KERNEL_DATA_INDEX }
      have hmode : (s.context a).isKernelMode = false := by rw [hold.mode, hin]; rfl
      refine ⟨{ s with
        cpu := v, pageDirectory := (s.context a).pageDirectory, esp0 := (s.context a).kernelStack }, ?_, rfl, rfl, rfl⟩
      simp only [System.jumpProcWrapper, hmode, hold.regs hcurrent hin, Bool.false_eq_true, if_false, hjump,
        Option.bind_eq_bind, Option.bind_some]
  | some stack =>
    intro reply c
    obtain ⟨esp0, above, vector, code, rfl⟩ := hold.call stack hin
    exact System.isrReturn_user hold.inRing3 esp0 above vector code reply c

/-! ### Two processes -/

def image (entry : UInt32) : Image := ⟨entry, 0xC2002000, 0xC2000000, false⟩

def quiet : Input :=
  ⟨(0, 0), false, false, 0, .failed false, image 0, (image 0).context.regs⟩

/-- Two processes are created, and run between interrupts of the timer. -/
def twoProcesses : List System.Action :=
  [.create (.created 4096 .zero) (image 0x8048000), .create (.created 8192 .zero) (image 0x8049000), .enableProcesses,
    .interrupt 0x20 0 quiet, .run fun c => { c with eax := 5 }, .interrupt 0x20 0 quiet, .run fun c => { c with eax := 7 },
    .interrupt 0x20 0 quiet]

def powerOn : System where
  manager := Manager.boot
  context _ := (image 0).context
  inCall _ := none
  cpu := { (image 0).start with cs := 0x08, ss := 0x10 }
  esp0 := 0xC1100000
  pageDirectory := 0xC1000000

/-- `processes_alone` on `twoProcesses`: the first process goes on with its own `eax`. -/
theorem processes_alone_twoProcesses : ∃ s, Machine.Run System.step System.Allowed powerOn twoProcesses s ∧
    s.manager.currentProcess = some 4096 ∧ s.cpu = { (image 0x8048000).start with eax := 5 } := by
  have hrun : ((twoProcesses.foldlM System.step powerOn).map fun s => (s.manager.currentProcess, s.inCall 4096)) =
      some (some 4096, none) := by
    decide +kernel
  have halone : powerOn.alone (fun _ => none) twoProcesses 4096 = some { (image 0x8048000).start with eax := 5 } := by
    decide +kernel
  obtain ⟨s, hs, hcurrent⟩ := Option.map_eq_some_iff.1 hrun
  rw [Prod.mk.injEq] at hcurrent
  have hreach : Machine.Run System.step System.Allowed powerOn twoProcesses s := by
    refine (Machine.run_iff_foldlM.2 hs).mono_mem fun t act hact _ f hf h => ?_
    subst hf
    simp only [twoProcesses, List.mem_cons, List.not_mem_nil, or_false, reduceCtorEq, false_or,
      System.Action.run.injEq] at hact
    rcases hact with rfl | rfl <;> exact h.setEax _
  obtain ⟨-, -, hplace⟩ := processes_alone rfl hreach halone
  rw [hcurrent.2] at hplace
  simp only [if_pos hcurrent.1] at hplace
  exact ⟨s, hreach, hcurrent.1, hplace⟩

end DBolOS.Proc
