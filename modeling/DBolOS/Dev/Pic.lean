import Mathlib

/-!
# The interrupt controllers

Two 8259 chips behind their ports, the slave on line 2 of the master, and the functions of `pic.c` and `irq.c` on them.  Of
the chips it is modelled what their documents promise of the commands that the kernel gives: the initialization words, the
mask, and the end of an interrupt that names no line.
-/

namespace DBolOS.Dev

def PIC1_CMD : UInt16 := 0x20
def PIC1_DATA : UInt16 := 0x21
def PIC2_CMD : UInt16 := 0xA0
def PIC2_DATA : UInt16 := 0xA1

def PIC_ICW1_MASK_IC4 : UInt8 := 0x1
def PIC_ICW1_MASK_INIT : UInt8 := 0x10
def PIC_ICW4_MASK_8086 : UInt8 := 0x1
def PIC_EOI : UInt8 := 0x20

def PIC1_IRQ_INDEX : UInt8 := 0x20
def PIC2_IRQ_INDEX : UInt8 := PIC1_IRQ_INDEX + 0x8

def PIT_IRQ : UInt8 := 0
def KEYBOARD_IRQ : UInt8 := 1
def CASCADE_IRQ : UInt8 := 2

-- the numerals of the lines
scoped instance neZero_eight : NeZero 8 := ⟨by decide⟩
scoped instance neZero_sixteen : NeZero 16 := ⟨by decide⟩

/-- Bit `i` of a register. -/
def bit (x : UInt8) (i : Fin 8) : Bool := x.toNat.testBit i

/-! ### A chip -/

/-- What the data port takes next. -/
inductive Expects
  | mask
  | icw2
  | icw3
  | icw4
  deriving DecidableEq

structure Pic where
  imr : UInt8
  irr : Finset (Fin 8)
  isr : Finset (Fin 8)
  base : UInt8
  cascade : UInt8
  /-- ICW1 announced an ICW4. -/
  withIcw4 : Bool
  mode8086 : Bool
  expects : Expects

namespace Pic

/-- The command port.  ICW1 clears the mask and the requests; whether it ends an interrupt in service is not documented, and
left out.  Of the other commands the kernel gives the end of the interrupt with the highest priority alone. -/
def command (c : Pic) (x : UInt8) : Pic :=
  if bit x 4 then { c with imr := 0, irr := ∅, withIcw4 := bit x 0, mode8086 := false, expects := .icw2 }
  else if x = PIC_EOI then
    match Fin.find? fun i => decide (i ∈ c.isr) with
    | some i => { c with isr := c.isr.erase i }
    | none => c
  else c

/-- The data port. -/
def data (c : Pic) (x : UInt8) : Pic :=
  match c.expects with
  | .mask => { c with imr := x }
  | .icw2 => { c with base := x &&& 0xF8, expects := .icw3 }
  | .icw3 => { c with cascade := x, expects := if c.withIcw4 then .icw4 else .mask }
  | .icw4 => { c with mode8086 := bit x 0, expects := .mask }

/-- The line whose interrupt the chip asks for, with `wired` the requests that another chip holds: the first that is
requested and not masked, where it comes before those in service. -/
def interrupt (c : Pic) (wired : Fin 8 → Bool) : Option (Fin 8) :=
  Fin.find? fun i => (decide (i ∈ c.irr) || wired i) && !bit c.imr i && decide (∀ j ∈ c.isr, i < j)

/-- The request goes into service. -/
def serve (c : Pic) (i : Fin 8) : Pic := { c with irr := c.irr.erase i, isr := insert i c.isr }

def request (c : Pic) (i : Fin 8) : Pic := { c with irr := insert i c.irr }

variable {c : Pic} {i j : Fin 8}

@[simp] theorem mem_irr_serve : j ∈ (c.serve i).irr ↔ j ≠ i ∧ j ∈ c.irr := Finset.mem_erase

@[simp] theorem mem_isr_serve : j ∈ (c.serve i).isr ↔ j = i ∨ j ∈ c.isr := Finset.mem_insert

@[simp] theorem mem_irr_request : j ∈ (c.request i).irr ↔ j = i ∨ j ∈ c.irr := Finset.mem_insert

end Pic

/-! ### The pair -/

structure Pics where
  master : Pic
  slave : Pic

namespace Pics

def outByte (p : Pics) (port : UInt16) (x : UInt8) : Pics :=
  if port = PIC1_CMD then { p with master := p.master.command x }
  else if port = PIC1_DATA then { p with master := p.master.data x }
  else if port = PIC2_CMD then { p with slave := p.slave.command x }
  else if port = PIC2_DATA then { p with slave := p.slave.data x }
  else p

def inByte (p : Pics) (port : UInt16) : UInt8 := if port = PIC2_DATA then p.slave.imr else p.master.imr

/-- The slave holds line 2 of the master. -/
def wired (p : Pics) (i : Fin 8) : Bool := decide (i = 2) && (p.slave.interrupt fun _ => false).isSome

/-- The line of the processor. -/
def intr (p : Pics) : Bool := (p.master.interrupt p.wired).isSome

/-- The processor takes the interrupt: its vector, from the slave where the master leaves it to the slave. -/
def acknowledge (p : Pics) : Option (UInt8 × Pics) := do
  let i ← p.master.interrupt p.wired
  if bit p.master.cascade i then
    if p.slave.cascade.toNat = i.val then
      let j ← p.slave.interrupt fun _ => false
      some (p.slave.base + UInt8.ofNat j, ⟨p.master.serve i, p.slave.serve j⟩)
    else none
  else some (p.master.base + UInt8.ofNat i, { p with master := p.master.serve i })

/-- A device raises its line. -/
def raise (p : Pics) (line : Fin 16) : Pics :=
  if h : line.val < 8 then { p with master := p.master.request ⟨line, h⟩ }
  else { p with slave := p.slave.request (line.subNat 8 (Nat.not_lt.1 h)) }

/-! ### `pic.c` and `irq.c` -/

def initPic (p : Pics) (irqOffset1 irqOffset2 : UInt8) : Pics :=
  let irqMask1 := p.inByte PIC1_DATA
  let irqMask2 := p.inByte PIC2_DATA
  let icw1 := PIC_ICW1_MASK_INIT ||| PIC_ICW1_MASK_IC4
  let p := p.outByte PIC1_CMD icw1
  let p := p.outByte PIC2_CMD icw1
  let p := p.outByte PIC1_DATA irqOffset1
  let p := p.outByte PIC2_DATA irqOffset2
  let p := p.outByte PIC1_DATA 0b00000100
  let p := p.outByte PIC2_DATA 2
  let p := p.outByte PIC1_DATA PIC_ICW4_MASK_8086
  let p := p.outByte PIC2_DATA PIC_ICW4_MASK_8086
  let p := p.outByte PIC1_DATA irqMask1
  p.outByte PIC2_DATA irqMask2

def picToggleIrq (p : Pics) (irqNumber : UInt8) (toggleOn : Bool) : Pics :=
  let port := if irqNumber > 7 then PIC2_DATA else PIC1_DATA
  let irqMask := p.inByte port
  let irqNumber := irqNumber % 8
  let irqMask := if toggleOn then irqMask &&& ~~~(1 <<< irqNumber) else irqMask ||| (1 <<< irqNumber)
  p.outByte port irqMask

def initIrqs (p : Pics) : Pics :=
  let p := (List.range 16).foldl (fun p i => p.picToggleIrq (UInt8.ofNat i) false) p
  p.picToggleIrq CASCADE_IRQ true

def irqExit (p : Pics) (interruptNumber : UInt32) : Pics :=
  let p := if interruptNumber ≥ PIC2_IRQ_INDEX.toUInt32 then p.outByte PIC2_CMD PIC_EOI else p
  p.outByte PIC1_CMD PIC_EOI

end Pics

/-! ### Bits -/

private theorem bit_shift (n : UInt8) (i : Fin 8) : bit (1 <<< (n % 8)) i = decide (i.val = n.toNat % 8) := by
  have hn : (n % 8).toNat % 8 = n.toNat % 8 := by simp
  have hlt : n.toNat % 8 < 8 := Nat.mod_lt _ (by decide)
  rw [bit, UInt8.toNat_shiftLeft, hn]
  generalize n.toNat % 8 = k at hlt ⊢
  revert i
  interval_cases k <;> decide

private theorem bit_or (x y : UInt8) (i : Fin 8) : bit (x ||| y) i = (bit x i || bit y i) := by simp [bit]

private theorem bit_and_not (x y : UInt8) (i : Fin 8) : bit (x &&& ~~~y) i = (bit x i && !bit y i) := by
  have hy : (~~~y).toNat = 2 ^ 8 - (y.toNat + 1) := by
    have := y.toNat_lt
    rw [UInt8.toNat_not]
    show 256 - 1 - y.toNat = _
    omega
  rw [bit, UInt8.toNat_and, Nat.testBit_and, hy, Nat.testBit_two_pow_sub_succ y.toNat_lt, decide_eq_true i.isLt,
    Bool.true_and]
  rfl

/-- What a toggle does to the mask. -/
theorem bit_toggle (x n : UInt8) (on : Bool) (i : Fin 8) :
    bit (if on then x &&& ~~~(1 <<< (n % 8)) else x ||| (1 <<< (n % 8))) i =
      if i.val = n.toNat % 8 then !on else bit x i := by
  cases on with
  | true =>
    rw [if_pos rfl, bit_and_not, bit_shift]
    by_cases hi : i.val = n.toNat % 8 <;> simp [hi]
  | false =>
    rw [if_neg (by decide), bit_or, bit_shift]
    by_cases hi : i.val = n.toNat % 8 <;> simp [hi]

end DBolOS.Dev
