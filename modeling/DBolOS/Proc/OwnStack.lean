import DBolOS.Proc.Frame

/-!
# Switching from ring 0

An interrupt in ring 0 is pushed onto the stack it finds, and `copy_registers` copies from there into the node, word by
word.  `jump_kernelmode` leaves the stack pointer at `regs.esp` of the node, so that a process of ring 0 has its stack in
its own node, and the copy overlaps what it copies from.
-/

namespace DBolOS.Proc

/-! ### Words -/

/-- Words in memory, by their number. -/
abbrev Words := Nat → UInt32

def Words.read (m : Words) (i n : Nat) : List UInt32 := (List.range n).map fun k => m (i + k)

def Words.write (m : Words) (i : Nat) (ws : List UInt32) : Words :=
  fun k => if i ≤ k then (ws[k - i]?).getD (m k) else m k

/-- The assignments of `copy_registers` in order: the word of `dst` and the word of `src`, none for `unused`. -/
def copyAssignments : List (Nat × Option Nat) :=
  [(0, some 1), (1, some 2), (2, some 3), (3, none), (4, some 5), (5, some 6), (6, some 7), (7, some 8), (8, some 11),
    (9, some 12), (10, some 13), (11, some 14), (12, some 15)]

/-- `copy_registers` with `src` and `dst` in one memory. -/
def copyRegistersAt (m : Words) (src dst : Nat) : Words :=
  copyAssignments.foldl (fun m r => Function.update m (dst + r.1) ((r.2.map fun k => m (src + k)).getD 0)) m

private theorem copyRegistersAt_apart {m : Words} {src dst : Nat} (h : src + 16 ≤ dst ∨ dst + 13 ≤ src) :
    (copyRegistersAt m src dst).read dst 13 =
      [m (src + 1), m (src + 2), m (src + 3), 0, m (src + 5), m (src + 6), m (src + 7), m (src + 8), m (src + 11),
        m (src + 12), m (src + 13), m (src + 14), m (src + 15)] := by
  have hne : ∀ i j, i < 16 → j < 13 → src + i ≠ dst + j := by omega
  have hdst : ∀ i, i < 16 → src + i ≠ dst := fun i hi => hne i 0 hi (by decide)
  simp [copyRegistersAt, copyAssignments, Words.read, List.range_succ, Function.update_apply, hne, hdst]

/-- Apart, the copy word by word is the copy of the record. -/
theorem copyRegistersAt_copyRegisters {m : Words} {src dst : Nat} {a : UInt32} {regs : IntRegisters}
    (h : (⟨a, m.read src 16⟩ : Stack).intRegisters = some regs) (hapart : src + 16 ≤ dst ∨ dst + 13 ≤ src) :
    (copyRegistersAt m src dst).read dst 13 = (copyRegisters regs).words := by
  rw [copyRegistersAt_apart hapart]
  cases h
  rfl

/-- The node of the stack: `regs` is three words above the frame, and is read after it was written. -/
private theorem copyRegistersAt_ownStack (m : Words) (src : Nat) :
    (copyRegistersAt m src (src + 3)).read (src + 3) 13 =
      [m (src + 1), m (src + 2), m (src + 1), 0, m (src + 1), 0, m (src + 1), 0, m (src + 11), m (src + 12),
        m (src + 13), m (src + 14), m (src + 15)] := by
  simp [copyRegistersAt, copyAssignments, Words.read, List.range_succ, Function.update_apply, Nat.add_assoc]

/-! ### Ring 0 -/

/-- Code of ring 0 whose stack begins at word `b + 14` is interrupted, its registers are copied to `regs` at word `r` and
address `a`, and it is jumped to again. -/
def ring0Switch (m : Words) (b r : Nat) (c : Cpu) (esp0 vector code a : UInt32) (kernel : Cpu) : Option (Cpu × Stack) :=
  let frame := isrFrame c esp0 [m (b + 14), m (b + 15)] vector code
  let m := copyRegistersAt (m.write b (frame.words.take 14)) b r
  jumpKernelmode ⟨a, m.read r 13⟩ kernel

section

variable {c : Cpu} {m : Words} {b r : Nat} {esp0 vector code a : UInt32} {kernel : Cpu}

private theorem ring0_words (hring : c.ring = 0) (esp0 : UInt32) (above : List UInt32) (vector code : UInt32) :
    ∃ kernEsp error,
    (isrFrame c esp0 above vector code).words.take 14 = [c.ds.toUInt32, c.edi, c.esi, c.ebp, kernEsp, c.ebx, c.edx, c.ecx,
      c.eax, vector, error, c.eip, c.cs.toUInt32, c.eflags] := by
  rw [isrFrame, firstIntHandler_interrupt, if_pos hring]
  exact ⟨_, _, rfl⟩

private theorem jumpKernelmode_words (hcs : c.cs &&& 3 = 0) (edi esi ebp ebx edx ecx eax : UInt32)
    (words : List UInt32) :
    jumpKernelmode ⟨a, edi :: esi :: ebp :: 0 :: ebx :: edx :: ecx :: eax :: c.eip :: c.cs.toUInt32 :: c.eflags :: words⟩
      kernel = some ({ kernel.setSegments 0x10 with
        edi, esi, ebp, ebx, edx, ecx, eax, eip := c.eip, cs := c.cs, eflags := c.eflags, esp := a + 44 },
        ⟨a + 44, words⟩) := by
  have hesp : a + 32 + 12 = a + 44 := by
    rw [UInt32.add_assoc]
    rfl
  have hiret := iret_words_ring0 hcs (a + 32) c.eip c.eflags words { kernel.setSegments 0x10 with
    edi, esi, ebp, ebx, edx, ecx, eax, eflags := kernel.eflags ||| 0x200 }
  rw [hesp] at hiret
  rw [jumpKernelmode, jumpMode, popad_words]
  exact hiret

/-- Where the frame and the node are apart, all registers are restored but the stack pointer, which is in the node, below
the two words that were on top of the stack. -/
private theorem ring0Switch_apart (hring : c.ring = 0) (hapart : b + 16 ≤ r ∨ r + 13 ≤ b) :
    ring0Switch m b r c esp0 vector code a kernel =
      some ({ kernel.setSegments 0x10 with
        edi := c.edi, esi := c.esi, ebp := c.ebp, ebx := c.ebx, edx := c.edx, ecx := c.ecx, eax := c.eax, eip := c.eip,
        cs := c.cs, eflags := c.eflags, esp := a + 44 }, ⟨a + 44, [m (b + 14), m (b + 15)]⟩) := by
  obtain ⟨kernEsp, error, hwords⟩ := ring0_words hring esp0 [m (b + 14), m (b + 15)] vector code
  have hread : (copyRegistersAt (m.write b [c.ds.toUInt32, c.edi, c.esi, c.ebp, kernEsp, c.ebx, c.edx, c.ecx, c.eax,
      vector, error, c.eip, c.cs.toUInt32, c.eflags]) b r).read r 13 =
      [c.edi, c.esi, c.ebp, 0, c.ebx, c.edx, c.ecx, c.eax, c.eip, c.cs.toUInt32, c.eflags, m (b + 14), m (b + 15)] := by
    rw [copyRegistersAt_apart hapart]
    simp [Words.write]
  simp only [ring0Switch, hwords, hread]
  exact jumpKernelmode_words hring ..

/-- Where the stack begins at `regs.esp` of the node, the frame and the node overlap: `edi` is read for `ebp`, `ebx` and
`ecx`, and the zero of `unused` for `edx` and `eax`. -/
private theorem ring0Switch_ownStack (hring : c.ring = 0) :
    ring0Switch m b (b + 3) c esp0 vector code a kernel =
      some ({ kernel.setSegments 0x10 with
        edi := c.edi, esi := c.esi, ebp := c.edi, ebx := c.edi, edx := 0, ecx := c.edi, eax := 0, eip := c.eip,
        cs := c.cs, eflags := c.eflags, esp := a + 44 }, ⟨a + 44, [m (b + 14), m (b + 15)]⟩) := by
  obtain ⟨kernEsp, error, hwords⟩ := ring0_words hring esp0 [m (b + 14), m (b + 15)] vector code
  have hread : (copyRegistersAt (m.write b [c.ds.toUInt32, c.edi, c.esi, c.ebp, kernEsp, c.ebx, c.edx, c.ecx, c.eax,
      vector, error, c.eip, c.cs.toUInt32, c.eflags]) b (b + 3)).read (b + 3) 13 =
      [c.edi, c.esi, c.edi, 0, c.edi, 0, c.edi, 0, c.eip, c.cs.toUInt32, c.eflags, m (b + 14), m (b + 15)] := by
    rw [copyRegistersAt_ownStack]
    simp [Words.write]
  simp only [ring0Switch, hwords, hread]
  exact jumpKernelmode_words hring ..

end

/-- Code of ring 0 that is interrupted and jumped to again goes on with its registers, and with the two words on top of
its stack, where its stack is apart from its node.  A process of ring 0 whose stack is where `jump_kernelmode` left it,
in its node, goes on with its registers exactly if `ebp`, `ebx` and `ecx` equal `edi` and `edx` and `eax` are zero. -/
theorem ring0_goes_on {c kernel : Cpu} (hring : c.ring = 0) (hflat : c.Flat) (hds : c.ds = GDT_KERNEL_DATA_INDEX)
    (hss : kernel.ss = c.ss) (m : Words) (b : Nat) (esp0 vector code a : UInt32) :
    (∀ r, b + 16 ≤ r ∨ r + 13 ≤ b → ring0Switch m b r c esp0 vector code a kernel =
      some ({ c with esp := a + 44 }, ⟨a + 44, [m (b + 14), m (b + 15)]⟩)) ∧
    (c.esp = a + 44 → ((ring0Switch m b (b + 3) c esp0 vector code a kernel).map Prod.fst = some c ↔
      c.ebp = c.edi ∧ c.ebx = c.edi ∧ c.ecx = c.edi ∧ c.edx = 0 ∧ c.eax = 0)) := by
  have hds' : c.ds = 0x10 := hds
  have hes : c.es = 0x10 := hflat.es.trans hds'
  have hfs : c.fs = 0x10 := hflat.fs.trans hds'
  have hgs : c.gs = 0x10 := hflat.gs.trans hds'
  constructor
  · intro r hapart
    rw [ring0Switch_apart hring hapart]
    congr 2
    ext1 <;> simp only [Cpu.setSegments, hds', hes, hfs, hgs, hss]
  · intro hesp
    rw [ring0Switch_ownStack hring, Option.map_some, Option.some.injEq, Cpu.ext_iff]
    simp only [Cpu.setSegments, hds', hes, hfs, hgs, hss, hesp, true_and, and_true]
    constructor
    · rintro ⟨hebp, hebx, hedx, hecx, heax⟩
      exact ⟨hebp.symm, hebx.symm, hecx.symm, hedx.symm, heax.symm⟩
    · rintro ⟨hebp, hebx, hecx, hedx, heax⟩
      exact ⟨hebp.symm, hebx.symm, hedx.symm, hecx.symm, heax.symm⟩

/-- A process of ring 0 that has counted to one. -/
def countingProcess : Cpu where
  edi := 0
  esi := 0
  ebp := 0
  ebx := 0
  edx := 0
  ecx := 0
  eax := 1
  eip := 0x8048000
  cs := GDT_KERNEL_CODE_INDEX
  eflags := 0x0202
  esp := 0xC180102C
  ss := GDT_KERNEL_DATA_INDEX
  ds := GDT_KERNEL_DATA_INDEX
  es := GDT_KERNEL_DATA_INDEX
  fs := GDT_KERNEL_DATA_INDEX
  gs := GDT_KERNEL_DATA_INDEX

/-- `ring0_goes_on` on `countingProcess`: the timer takes its count away. -/
theorem ring0_goes_on_counting :
    (ring0Switch (fun _ => 0) 8 11 countingProcess 0xC1100000 0x20 0 0xC1801000 countingProcess).map Prod.fst ≠
      some countingProcess := by
  have hgoes := (ring0_goes_on (c := countingProcess) rfl ⟨rfl, rfl, rfl⟩ rfl rfl
    (fun _ => 0) 8 0xC1100000 0x20 0 0xC1801000).2 (by decide)
  rw [Ne, hgoes]
  decide

end DBolOS.Proc
