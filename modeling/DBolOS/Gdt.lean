import DBolOS.Lib.ByteMem

/-!
# Segments and the task state

`gdt.c`: the descriptors of the segments and of the task state segment, which holds the stack of ring 0.  The kernel stores
no bitmap for the ports, and leaves its offset at zero: the processor takes the task state itself for the bitmap.  So what a
program of ring 3 may do with a port is decided by the words of the task state, of which only the stack of ring 0 and its
segment are not zero (`ring3_ports`).
-/

namespace DBolOS.Gdt

open ByteMem

abbrev GDT_SIZE : Nat := 6

/-! ### The tables -/

/-- `struct gdt_entry`. -/
structure GdtEntry where
  limitLow : UInt16
  baseLow : UInt16
  baseMid : UInt8
  accessed : Bool
  readableWriteable : Bool
  direction : Bool
  executable : Bool
  segmentType : Bool
  privilege : Fin 4
  present : Bool
  limitHigh : Fin 16
  reserved : Bool
  longMode : Bool
  segmentSize : Bool
  granularity : Bool
  baseHigh : UInt8

def GdtEntry.zero : GdtEntry :=
  ⟨0, 0, 0, false, false, false, false, false, 0, false, 0, false, false, false, false, 0⟩

/-- `struct tss_entry_t`. -/
structure TssEntry where
  prevTss : UInt32
  esp0 : UInt32
  ss0 : UInt32
  esp1 : UInt32
  ss1 : UInt32
  esp2 : UInt32
  ss2 : UInt32
  cr3 : UInt32
  eip : UInt32
  eflags : UInt32
  eax : UInt32
  ecx : UInt32
  edx : UInt32
  ebx : UInt32
  esp : UInt32
  ebp : UInt32
  esi : UInt32
  edi : UInt32
  es : UInt32
  cs : UInt32
  ss : UInt32
  ds : UInt32
  fs : UInt32
  gs : UInt32
  ldt : UInt32
  trap : UInt16
  iomapBase : UInt16

/-- The static variables of `gdt.c`, with the address of `tss`. -/
structure Tables where
  gdtTable : Vector GdtEntry GDT_SIZE
  tss : TssEntry
  tssAddress : UInt32

/-! ### In memory -/

/-- The words of the task state, in their order. -/
def TssEntry.words (x : TssEntry) : List UInt32 :=
  [x.prevTss, x.esp0, x.ss0, x.esp1, x.ss1, x.esp2, x.ss2, x.cr3, x.eip, x.eflags, x.eax, x.ecx, x.edx, x.ebx, x.esp, x.ebp,
    x.esi, x.edi, x.es, x.cs, x.ss, x.ds, x.fs, x.gs, x.ldt]

def TssEntry.toBytes (x : TssEntry) : List UInt8 := x.words.flatMap le32 ++ le16 x.trap ++ le16 x.iomapBase

def sizeofTssEntry : UInt32 := 104

/-- A byte of flags, the first in bit 0. -/
def flags (bits : List Bool) : UInt8 := bits.foldr (fun b x => 2 * x + if b then 1 else 0) 0

/-- The eight bytes of a descriptor. -/
def GdtEntry.toBytes (x : GdtEntry) : List UInt8 :=
  le16 x.limitLow ++ le16 x.baseLow ++ [x.baseMid,
    flags [x.accessed, x.readableWriteable, x.direction, x.executable, x.segmentType, x.privilege.val.testBit 0,
      x.privilege.val.testBit 1, x.present],
    flags [x.limitHigh.val.testBit 0, x.limitHigh.val.testBit 1, x.limitHigh.val.testBit 2, x.limitHigh.val.testBit 3,
      x.reserved, x.longMode, x.segmentSize, x.granularity], x.baseHigh]

/-! ### `gdt.c` -/

def tssFillEntry (esp0 ss0 : UInt32) : TssEntry :=
  ⟨0, esp0, ss0, 0, 0, 0, 0, 0, 0, 0, 0, 0, 0, 0, 0, 0, 0, 0, 0, 0, 0, 0, 0, 0, 0, 0, 0⟩

/-- Every field but `long_mode` is set. -/
def gdtFillEntry (x : GdtEntry) (base limit : UInt32) (isExecutable : Bool) (privilegeLevel : Fin 4) : GdtEntry where
  limitLow := (limit &&& 0xFFFF).toUInt16
  limitHigh := Fin.ofNat 16 ((limit >>> 16) &&& 0x0F).toNat
  baseLow := (base &&& 0xFFFF).toUInt16
  baseMid := ((base >>> 16) &&& 0xFF).toUInt8
  baseHigh := ((base >>> 24) &&& 0xFF).toUInt8
  accessed := false
  readableWriteable := true
  direction := false
  executable := isExecutable
  segmentType := true
  privilege := privilegeLevel
  present := true
  reserved := false
  longMode := x.longMode
  segmentSize := true
  granularity := true

def gdtFillEntryAsTss (x : GdtEntry) (tssEntryAddress : UInt32) : GdtEntry where
  limitLow := sizeofTssEntry.toUInt16
  baseLow := tssEntryAddress.toUInt16
  baseMid := (tssEntryAddress >>> 16).toUInt8
  accessed := true
  readableWriteable := false
  direction := false
  executable := true
  segmentType := false
  privilege := 0
  present := true
  limitHigh := Fin.ofNat 16 (sizeofTssEntry >>> 16).toNat
  reserved := false
  longMode := x.longMode
  segmentSize := false
  granularity := false
  baseHigh := (tssEntryAddress >>> 24).toUInt8

namespace Tables

def setEntry (t : Tables) (i : Fin GDT_SIZE) (f : GdtEntry → GdtEntry) : Tables :=
  { t with gdtTable := t.gdtTable.set i (f t.gdtTable[i]) }

/-- `tss` and the descriptor that holds its address. -/
def tssFillEsp0 (t : Tables) (esp0 : UInt32) : Tables :=
  setEntry { t with tss := tssFillEntry esp0 0x10 } 5 fun x => gdtFillEntryAsTss x t.tssAddress

def gdtInit (t : Tables) : Tables :=
  let t := t.setEntry 0 fun _ => .zero
  let t := t.setEntry 1 fun x => gdtFillEntry x 0 0xFFFFF true 0
  let t := t.setEntry 2 fun x => gdtFillEntry x 0 0xFFFFF false 0
  let t := t.setEntry 3 fun x => gdtFillEntry x 0 0xFFFFF true 3
  let t := t.setEntry 4 fun x => gdtFillEntry x 0 0xFFFFF false 3
  let t := { t with tss := tssFillEntry 0xC1100000 0x10 }
  t.setEntry 5 fun x => gdtFillEntryAsTss x t.tssAddress

/-- The tables as they are linked, before `gdt_init`. -/
def static (tssAddress : UInt32) : Tables :=
  ⟨Vector.replicate GDT_SIZE .zero, ⟨0, 0, 0, 0, 0, 0, 0, 0, 0, 0, 0, 0, 0, 0, 0, 0, 0, 0, 0, 0, 0, 0, 0, 0, 0, 0, 0⟩,
    tssAddress⟩

end Tables

/-! ### The processor -/

/-- Byte `i` of a descriptor. -/
def byteAt (bytes : List UInt8) (i : Nat) : Nat := (bytes.getD i 0).toNat

/-- The base that the processor takes from the eight bytes of a descriptor. -/
def base (bytes : List UInt8) : Nat :=
  byteAt bytes 2 + 2 ^ 8 * byteAt bytes 3 + 2 ^ 16 * byteAt bytes 4 + 2 ^ 24 * byteAt bytes 7

/-- The last offset of the segment. -/
def limit (bytes : List UInt8) : Nat :=
  let n := byteAt bytes 0 + 2 ^ 8 * byteAt bytes 1 + 2 ^ 16 * (byteAt bytes 6 % 16)
  if (byteAt bytes 6).testBit 7 then 2 ^ 12 * n + (2 ^ 12 - 1) else n

/-- Whether code with less privilege than `IOPL` may reach `size` ports from `port` on, with `tr` the descriptor of the task
and `mem` the memory: the bits of the ports are in two bytes of the bitmap that the task state points to, within its limit,
and are zero. -/
def portAllowed (tr : List UInt8) (mem : Nat → UInt8) (port size : Nat) : Bool :=
  let task := fun i => mem ((base tr + i) % 2 ^ 32)
  let offset := (ofLe16 (task 102) (task 103)).toNat + port / 8
  let bits := (task offset).toNat + 2 ^ 8 * (task (offset + 1)).toNat
  decide (offset + 1 ≤ limit tr) && (List.range size).all fun i => !bits.testBit (port % 8 + i)

/-- The stack pointer and the stack segment that the processor takes on the way into ring 0. -/
def ring0Stack (tr : List UInt8) (mem : Nat → UInt8) : List UInt8 :=
  (List.range 6).map fun i => mem ((base tr + 4 + i) % 2 ^ 32)

namespace Tables

/-- The task state is in memory at its address. -/
def InMemory (t : Tables) (mem : Nat → UInt8) : Prop :=
  ∀ i b, t.tss.toBytes[i]? = some b → mem ((t.tssAddress.toNat + i) % 2 ^ 32) = b

/-- The descriptor of the task register, which `gdt_init` loads with 0x28. -/
def taskRegister (t : Tables) : List UInt8 := t.gdtTable[5].toBytes

end Tables

/-! ### Bits -/

/-- Bit `m` of the bytes, from the first byte on. -/
def bitOf (bytes : List UInt8) (m : Nat) : Bool := (bytes.getD (m / 8) 0).toNat.testBit (m % 8)

private theorem bitOf_le32_append (x : UInt32) (bytes : List UInt8) (m : Nat) :
    bitOf (le32 x ++ bytes) m = if m < 32 then x.toNat.testBit m else bitOf bytes (m - 32) := by
  by_cases hm : m < 32
  · have hbyte : ∀ r, r < 4 → ((le32 x).getD r 0).toNat = x.toNat / 2 ^ (8 * r) % 2 ^ 8 := by
      intro r hr
      interval_cases r <;> simp [le32]
    rw [if_pos hm, bitOf, List.getD_append _ _ _ _ (by rw [length_le32]; omega), hbyte _ (by omega), Nat.testBit_mod_two_pow,
      Nat.testBit_div_two_pow, decide_eq_true (Nat.mod_lt m (by decide)), Bool.true_and, Nat.mod_add_div]
  · obtain ⟨k, rfl⟩ := Nat.exists_eq_add_of_le (Nat.not_lt.1 hm)
    rw [if_neg hm, Nat.add_sub_cancel_left, bitOf, List.getD_append_right _ _ _ _ (by rw [length_le32]; omega), length_le32,
      show (32 + k) / 8 - 4 = k / 8 by omega, show (32 + k) % 8 = k % 8 by omega]
    rfl

/-- The bits of words are those of the bytes. -/
private theorem bitOf_words (ws : List UInt32) (m : Nat) :
    bitOf (ws.flatMap le32) m = (ws.getD (m / 32) 0).toNat.testBit (m % 32) := by
  induction ws generalizing m with
  | nil => simp [bitOf]
  | cons w ws ih =>
    rw [List.flatMap_cons, bitOf_le32_append]
    by_cases hm : m < 32
    · rw [if_pos hm, Nat.div_eq_of_lt hm, Nat.mod_eq_of_lt hm]
      rfl
    · obtain ⟨k, rfl⟩ := Nat.exists_eq_add_of_le (Nat.not_lt.1 hm)
      rw [if_neg hm, Nat.add_sub_cancel_left, ih, Nat.add_mod_left, show (32 + k) / 32 = k / 32 + 1 by omega]
      rfl

private theorem testBit_pair (a b : UInt8) (k : Nat) :
    (a.toNat + 2 ^ 8 * b.toNat).testBit k = if k < 8 then a.toNat.testBit k else b.toNat.testBit (k - 8) := by
  rw [Nat.add_comm, Nat.testBit_two_pow_mul_add _ a.toNat_lt]

/-! ### The ports of ring 3 -/

/-- The ports that ring 3 may reach: 0x44 is the bit of the stack segment of ring 0, and the ports from 32 to 63 are the bits
of its stack pointer. -/
def PortOpen (esp0 : UInt32) (port : Nat) : Prop :=
  port ≠ 0x44 ∧ (32 ≤ port → port < 64 → esp0.toNat.testBit (port - 32) = false)

instance (esp0 : UInt32) (port : Nat) : Decidable (PortOpen esp0 port) := inferInstanceAs (Decidable (_ ∧ _))

private theorem toBytes_tssFillEntry (esp0 : UInt32) :
    (tssFillEntry esp0 0x10).toBytes = (0 :: esp0 :: 0x10 :: List.replicate 23 0).flatMap le32 := by
  simp [TssEntry.toBytes, tssFillEntry, TssEntry.words, List.replicate, le16, le32]

private theorem bitOf_tssFillEntry (esp0 : UInt32) (m : Nat) :
    bitOf (tssFillEntry esp0 0x10).toBytes m = false ↔ PortOpen esp0 m := by
  rw [toBytes_tssFillEntry, bitOf_words, PortOpen]
  obtain hm | hm | hm | ⟨k, hm⟩ : m / 32 = 0 ∨ m / 32 = 1 ∨ m / 32 = 2 ∨ ∃ k, m / 32 = k + 3 := by
    obtain hm | hm := Nat.lt_or_ge (m / 32) 3
    · omega
    · exact .inr (.inr (.inr ⟨m / 32 - 3, by omega⟩))
  · rw [hm, List.getD_cons_zero]
    simp only [UInt32.toNat_zero, Nat.zero_testBit, true_iff]
    exact ⟨by omega, by omega⟩
  · rw [hm, List.getD_cons_succ, List.getD_cons_zero, show m - 32 = m % 32 by omega]
    exact ⟨fun h => ⟨by omega, fun _ _ => h⟩, fun h => h.2 (by omega) (by omega)⟩
  · have hbit : (0x10 : UInt32).toNat.testBit (m % 32) = decide (m % 32 = 4) := by
      show (2 ^ 4).testBit _ = _
      rw [Nat.testBit_two_pow]
      exact decide_eq_decide.2 eq_comm
    rw [hm, List.getD_cons_succ, List.getD_cons_succ, List.getD_cons_zero, hbit, decide_eq_false_iff_not]
    exact ⟨fun h => ⟨by omega, by omega⟩, fun h => by have := h.1; omega⟩
  · have hzero : (List.replicate 23 (0 : UInt32)).getD k 0 = 0 := by
      rw [List.getD_eq_getElem?_getD, List.getElem?_replicate]
      split <;> rfl
    rw [hm, List.getD_cons_succ, List.getD_cons_succ, List.getD_cons_succ, hzero]
    simp only [UInt32.toNat_zero, Nat.zero_testBit, true_iff]
    exact ⟨by omega, by omega⟩

/-! ### The segments -/

private theorem base_gdtFillEntry (x : GdtEntry) (isExecutable : Bool) (privilegeLevel : Fin 4) :
    base (gdtFillEntry x 0 0xFFFFF isExecutable privilegeLevel).toBytes = 0 := by
  simp [base, byteAt, GdtEntry.toBytes, gdtFillEntry, le16]

private theorem limit_gdtFillEntry (x : GdtEntry) (isExecutable : Bool) (privilegeLevel : Fin 4) :
    limit (gdtFillEntry x 0 0xFFFFF isExecutable privilegeLevel).toBytes = 2 ^ 32 - 1 := by
  have hflags : ∀ b, (flags [true, true, true, true, false, b, true, true]).toNat % 16 = 15 ∧
      (flags [true, true, true, true, false, b, true, true]).toNat.testBit 7 = true := by decide
  have hbits : Nat.testBit 15 1 = true ∧ Nat.testBit 15 2 = true ∧ Nat.testBit 15 3 = true := by decide
  obtain ⟨hlow, hgranular⟩ := hflags x.longMode
  simp [limit, byteAt, GdtEntry.toBytes, gdtFillEntry, le16, hbits, hlow, hgranular]

private theorem Tables.getElem_setEntry (t : Tables) (i j : Fin GDT_SIZE) (f : GdtEntry → GdtEntry) :
    (t.setEntry i f).gdtTable[j] = if i = j then f t.gdtTable[j] else t.gdtTable[j] := by
  show (t.gdtTable.set i (f t.gdtTable[i]))[j.val] = _
  rw [Vector.getElem_set]
  by_cases hij : i = j
  · subst hij
    rw [if_pos rfl, if_pos rfl]
  · rw [if_neg (Fin.val_ne_of_ne hij), if_neg hij]
    rfl

private theorem Tables.getElem_gdtInit (t : Tables) {i : Fin GDT_SIZE} (hi : i ≠ 0) (hi' : i ≠ 5) :
    t.gdtInit.gdtTable[i] =
      gdtFillEntry t.gdtTable[i] 0 0xFFFFF (decide (i = 1 ∨ i = 3)) (if i < 3 then 0 else 3) := by
  simp only [gdtInit, getElem_setEntry]
  fin_cases i
  · exact absurd rfl hi
  · rfl
  · rfl
  · rfl
  · rfl
  · exact absurd rfl hi'

private theorem Tables.getElem_run (t : Tables) (esp0s : List UInt32) {i : Fin GDT_SIZE} (hi : i ≠ 5) :
    (esp0s.foldl tssFillEsp0 t).gdtTable[i] = t.gdtTable[i] := by
  induction esp0s generalizing t with
  | nil => rfl
  | cons e esp0s ih =>
    rw [List.foldl_cons, ih, tssFillEsp0, getElem_setEntry, if_neg hi.symm]

/-- The segments of the kernel and of the programs are the whole memory, at every time. -/
theorem segments_flat (t : Tables) (esp0s : List UInt32) {i : Fin GDT_SIZE} (hi : i ≠ 0) (hi' : i ≠ 5) :
    base ((esp0s.foldl Tables.tssFillEsp0 t.gdtInit).gdtTable[i]).toBytes = 0 ∧
      limit ((esp0s.foldl Tables.tssFillEsp0 t.gdtInit).gdtTable[i]).toBytes = 2 ^ 32 - 1 ∧
      ((esp0s.foldl Tables.tssFillEsp0 t.gdtInit).gdtTable[i]).privilege = if i < 3 then 0 else 3 := by
  rw [Tables.getElem_run _ _ hi', Tables.getElem_gdtInit t hi hi']
  exact ⟨base_gdtFillEntry _ _ _, limit_gdtFillEntry _ _ _, rfl⟩

/-! ### The descriptor of the task -/

private theorem base_gdtFillEntryAsTss (x : GdtEntry) (address : UInt32) :
    base (gdtFillEntryAsTss x address).toBytes = address.toNat := by
  have hlt := address.toNat_lt
  have hbase : base (gdtFillEntryAsTss x address).toBytes = (address.toUInt16.toNat % 2 ^ 8) +
      2 ^ 8 * (address.toUInt16.toNat / 2 ^ 8 % 2 ^ 8) + 2 ^ 16 * (address >>> 16).toUInt8.toNat +
      2 ^ 24 * (address >>> 24).toUInt8.toNat := by
    simp [base, byteAt, GdtEntry.toBytes, gdtFillEntryAsTss, le16]
  rw [hbase]
  clear hbase
  simp only [UInt32.toNat_toUInt16, UInt32.toNat_toUInt8, UInt32.toNat_shiftRight, Nat.shiftRight_eq_div_pow,
    show (16 : UInt32).toNat % 32 = 16 from rfl, show (24 : UInt32).toNat % 32 = 24 from rfl]
  omega

private theorem limit_gdtFillEntryAsTss (x : GdtEntry) (address : UInt32) :
    limit (gdtFillEntryAsTss x address).toBytes = 104 := by
  have hflags : ∀ b, (flags [false, false, false, false, false, b, false, false]).toNat % 16 = 0 ∧
      (flags [false, false, false, false, false, b, false, false]).toNat.testBit 7 = false := by decide
  obtain ⟨hlow, hgranular⟩ := hflags x.longMode
  simp [limit, byteAt, GdtEntry.toBytes, gdtFillEntryAsTss, le16, sizeofTssEntry, hlow, hgranular]

/-- The tables hold the stack `esp0` of ring 0, and the descriptor of the task points to it. -/
structure Tables.Holds (t : Tables) (esp0 : UInt32) : Prop where
  tss : t.tss = tssFillEntry esp0 0x10
  base : Gdt.base t.taskRegister = t.tssAddress.toNat
  limit : Gdt.limit t.taskRegister = 104

private theorem Tables.holds_fill (t : Tables) (esp0 : UInt32) :
    (setEntry { t with tss := tssFillEntry esp0 0x10 } 5 fun x => gdtFillEntryAsTss x t.tssAddress).Holds esp0 := by
  have hregister : (setEntry { t with tss := tssFillEntry esp0 0x10 } 5 fun x =>
      gdtFillEntryAsTss x t.tssAddress).taskRegister = (gdtFillEntryAsTss t.gdtTable[5] t.tssAddress).toBytes := by
    simp [setEntry, taskRegister]
  refine ⟨rfl, ?_, ?_⟩
  · rw [hregister, base_gdtFillEntryAsTss]
    rfl
  · rw [hregister, limit_gdtFillEntryAsTss]

private theorem Tables.holds_run {t : Tables} {esp0 : UInt32} (h : t.Holds esp0) (esp0s : List UInt32) :
    (esp0s.foldl tssFillEsp0 t).Holds (esp0s.getLastD esp0) := by
  induction esp0s generalizing t esp0 with
  | nil => exact h
  | cons e esp0s ih =>
    rw [List.foldl_cons, List.getLastD_cons]
    exact ih (t.holds_fill e)

variable {t : Tables} {esp0 : UInt32} {mem : Nat → UInt8} {port size : Nat}

private theorem length_toBytes (esp0 : UInt32) : (tssFillEntry esp0 0x10).toBytes.length = 104 := by
  simp [toBytes_tssFillEntry]

private theorem Tables.Holds.task (h : t.Holds esp0) (hmem : t.InMemory mem) {i : Nat} (hi : i < 104) :
    mem ((Gdt.base t.taskRegister + i) % 2 ^ 32) = (tssFillEntry esp0 0x10).toBytes.getD i 0 := by
  have hlength : i < t.tss.toBytes.length := by rwa [h.tss, length_toBytes]
  rw [h.base, ← h.tss, List.getD_eq_getElem _ _ hlength]
  exact hmem i _ (List.getElem?_eq_getElem hlength)

private theorem Tables.Holds.portAllowed (h : t.Holds esp0) (hmem : t.InMemory mem) (hsize : 0 < size)
    (hsize' : size ≤ 4)
    (hport : port + size ≤ 832) :
    portAllowed t.taskRegister mem port size = true ↔ ∀ i, i < size → PortOpen esp0 (port + i) := by
  have hoffset : (ofLe16 (mem ((Gdt.base t.taskRegister + 102) % 2 ^ 32))
      (mem ((Gdt.base t.taskRegister + 103) % 2 ^ 32))).toNat = 0 := by
    rw [h.task hmem (by decide), h.task hmem (by decide), toBytes_tssFillEntry]
    simp [List.replicate, le32, ofLe16]
  simp only [Gdt.portAllowed, hoffset, Nat.zero_add, h.limit, Bool.and_eq_true, decide_eq_true_eq, List.all_eq_true,
    List.mem_range, Bool.not_eq_true', testBit_pair]
  rw [and_iff_right (by omega)]
  refine forall_congr' fun i => forall_congr' fun hi => ?_
  rw [← bitOf_tssFillEntry, bitOf]
  by_cases hbit : port % 8 + i < 8
  · rw [if_pos hbit, h.task hmem (by omega), show (port + i) / 8 = port / 8 by omega,
      show (port + i) % 8 = port % 8 + i by omega]
  · rw [if_neg hbit, h.task hmem (by omega), show (port + i) / 8 = port / 8 + 1 by omega,
      show (port + i) % 8 = port % 8 + i - 8 by omega]

private theorem Tables.Holds.portDenied (h : t.Holds esp0) (hport : 832 ≤ port) :
    Gdt.portAllowed t.taskRegister mem port size = false := by
  simp only [Gdt.portAllowed, h.limit]
  rw [decide_eq_false (by omega), Bool.false_and]

private theorem Tables.Holds.ring0Stack (h : t.Holds esp0) (hmem : t.InMemory mem) :
    Gdt.ring0Stack t.taskRegister mem = le32 esp0 ++ le16 0x10 := by
  have hbytes : Gdt.ring0Stack t.taskRegister mem =
      (List.range 6).map fun i => (tssFillEntry esp0 0x10).toBytes.getD (4 + i) 0 := by
    refine List.map_congr_left fun i hi => ?_
    rw [Nat.add_assoc, h.task hmem (by rw [List.mem_range] at hi; omega)]
  rw [hbytes]
  rfl

/-- After `gdt_init` and any calls of `tss_fill_esp0` the processor enters ring 0 on the last stack, and a program of ring 3
reaches a port below 832 exactly where the bits of the task state are zero, and none above. -/
theorem ring3_ports (t : Tables) (esp0s : List UInt32) (mem : Nat → UInt8)
    (hmem : (esp0s.foldl Tables.tssFillEsp0 t.gdtInit).InMemory mem) :
    ring0Stack (esp0s.foldl Tables.tssFillEsp0 t.gdtInit).taskRegister mem =
        le32 (esp0s.getLastD 0xC1100000) ++ le16 0x10 ∧
      ∀ port size, 0 < size → size ≤ 4 →
        (port + size ≤ 832 →
          (portAllowed (esp0s.foldl Tables.tssFillEsp0 t.gdtInit).taskRegister mem port size = true ↔
            ∀ i, i < size → PortOpen (esp0s.getLastD 0xC1100000) (port + i))) ∧
        (832 ≤ port → portAllowed (esp0s.foldl Tables.tssFillEsp0 t.gdtInit).taskRegister mem port size = false) := by
  have hinit : t.gdtInit.Holds 0xC1100000 := Tables.holds_fill _ _
  have h := Tables.holds_run hinit esp0s
  exact ⟨h.ring0Stack hmem, fun port size hsize hsize' => ⟨h.portAllowed hmem hsize hsize', h.portDenied⟩⟩

/-- A program may command the drive, whose status port is 0x1F7. -/
theorem ring3_ports_drive : ∃ mem,
    portAllowed ([0xC1104000].foldl Tables.tssFillEsp0 (Tables.static 0xC0108000).gdtInit).taskRegister mem 0x1F7 1 = true ∧
      portAllowed ([0xC1104000].foldl Tables.tssFillEsp0 (Tables.static 0xC0108000).gdtInit).taskRegister mem 0x44 1 =
        false := by
  let mem : Nat → UInt8 := fun a => (tssFillEntry 0xC1104000 0x10).toBytes.getD (a - 0xC0108000) 0
  have hmem : ([0xC1104000].foldl Tables.tssFillEsp0 (Tables.static 0xC0108000).gdtInit).InMemory mem := by
    intro i b hb
    change (tssFillEntry 0xC1104000 0x10).toBytes[i]? = some b at hb
    show (tssFillEntry 0xC1104000 0x10).toBytes.getD ((3222306816 + i) % 2 ^ 32 - 0xC0108000) 0 = b
    have hi : i < 104 := by
      obtain ⟨hi, _⟩ := List.getElem?_eq_some_iff.1 hb
      rwa [length_toBytes] at hi
    rw [show (3222306816 + i) % 2 ^ 32 - 0xC0108000 = i by omega, List.getD_eq_getElem?_getD, hb]
    rfl
  have h := (ring3_ports (.static 0xC0108000) [0xC1104000] mem hmem).2
  refine ⟨mem, ((h 0x1F7 1 (by decide) (by decide)).1 (by decide)).2 (by decide), Bool.eq_false_iff.2 fun hallowed => ?_⟩
  exact (((h 0x44 1 (by decide) (by decide)).1 (by decide)).1 hallowed 0 (by decide)).1 rfl

end DBolOS.Gdt
