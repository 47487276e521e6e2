import DBolOS.Lib.ByteMem

/-!
# A drive behind its ports

What the documents of a hard disk in PIO mode promise its driver: a command is taken while no other is under way, a sector
passes through the data port word by word while the drive asks for it, and between two sectors the drive is busy for a while.
How long it is busy, and whether a program ever sees it so, is left open.
-/

namespace DBolOS.Dev

open ByteMem

/-- The instructions that reach a device with the states `D`. -/
structure Ports (D : Type*) where
  inByte : D → UInt16 → UInt8 × D
  inWord : D → UInt16 → UInt16 × D
  outByte : D → UInt16 → UInt8 → D
  outWord : D → UInt16 → UInt16 → D

def ATA_DATA : UInt16 := 0x1F0

def ATA_SECTOR_COUNT : UInt16 := 0x1F2

def ATA_SECTOR_LOW : UInt16 := 0x1F3

def ATA_SECTOR_MID : UInt16 := 0x1F4

def ATA_SECTOR_HIGH : UInt16 := 0x1F5

def ATA_SELECT_DRIVE : UInt16 := 0x1F6

def ATA_CMD_STATUS : UInt16 := 0x1F7

def SECTOR_SIZE : Nat := 512

/-- What is left of a command: `left` sectors from `sector` on. -/
structure Transfer where
  writes : Bool
  sector : Nat
  left : Nat

def Transfer.next (t : Transfer) : Transfer := { t with sector := t.sector + 1, left := t.left - 1 }

inductive Phase
  | idle
  | busy (t : Transfer)
  /-- The drive asks for the sector, of which `words` have passed. -/
  | ready (t : Transfer) (words : List UInt16)

/-- What follows when the drive is not busy any more. -/
def Phase.settle (t : Transfer) : Phase := if t.left = 0 then .idle else .ready t []

structure Drive where
  disk : ByteMem
  sectors : Nat
  count : UInt8
  low : UInt8
  mid : UInt8
  high : UInt8
  select : UInt8
  phase : Phase

namespace Drive

/-- The sector in the registers, of which the drive takes 28 bits. -/
def lba (s : Drive) : Nat :=
  s.low.toNat + 2 ^ 8 * s.mid.toNat + 2 ^ 16 * s.high.toNat + 2 ^ 24 * (s.select.toNat % 16)

/-- The number of sectors in the registers; 0 stands for 256. -/
def amount (s : Drive) : Nat := if s.count.toNat = 0 then 256 else s.count.toNat

/-- The registers name sectors of the first drive, in LBA mode. -/
def InRange (s : Drive) : Prop := s.select.toNat / 16 = 0xE ∧ s.lba + s.amount ≤ s.sectors

/-- The word `i` of a sector. -/
def word (s : Drive) (sector i : Nat) : UInt16 :=
  ofLe16 (s.disk (SECTOR_SIZE * sector + 2 * i)) (s.disk (SECTOR_SIZE * sector + 2 * i + 1))

/-- From `s` the drive has come to the transfer `t`, and may be busy with it. -/
def Reaches (s : Drive) (t : Transfer) (s' : Drive) : Prop :=
  s' = { s with phase := .busy t } ∨ s' = { s with phase := .settle t }

/-- The drive after the word `w` of a sector that is read. -/
def Delivers (s : Drive) (t : Transfer) (words : List UInt16) (w : UInt16) (s' : Drive) : Prop :=
  w = s.word t.sector words.length ∧
    if words.length + 1 = 256 then s.Reaches t.next s' else s' = { s with phase := .ready t (words ++ [w]) }

/-- The drive after the word `w` of a sector that is written. -/
def Takes (s : Drive) (t : Transfer) (words : List UInt16) (w : UInt16) (s' : Drive) : Prop :=
  if words.length + 1 = 256 then
    Reaches { s with disk := s.disk.writeBytes (SECTOR_SIZE * t.sector) ((words ++ [w]).flatMap le16) } t.next s'
  else s' = { s with phase := .ready t (words ++ [w]) }

end Drive

/-- A reading of the status port. -/
def Ports.status {D : Type*} (io : Ports D) (d : D) : UInt8 × D := io.inByte d ATA_CMD_STATUS

/-- `BSY` in a status byte. -/
def isBusy (status : UInt8) : Bool := status &&& 0x80 != 0

/-- `DRQ` in a status byte. -/
def asks (status : UInt8) : Bool := status &&& 0x08 != 0

/-- The device is a drive: in the state `d` it is the drive `abs d`. -/
structure Ports.IsDrive {D : Type*} (io : Ports D) (abs : D → Drive) : Prop where
  idle : ∀ d, (abs d).phase = .idle →
    isBusy (io.status d).1 = false ∧ asks (io.status d).1 = false ∧ abs (io.status d).2 = abs d
  ready : ∀ d t words, (abs d).phase = .ready t words →
    isBusy (io.status d).1 = false ∧ asks (io.status d).1 = true ∧ abs (io.status d).2 = abs d
  busy : ∀ d t, (abs d).phase = .busy t →
    isBusy (io.status d).1 = true ∧ asks (io.status d).1 = false ∧ (abs d).Reaches t (abs (io.status d).2)
  /-- No drive is busy for ever. -/
  settles : ∀ d, ∃ n, ∀ t, (abs ((fun d => (io.status d).2)^[n] d)).phase ≠ .busy t
  count : ∀ d x, (abs d).phase = .idle → abs (io.outByte d ATA_SECTOR_COUNT x) = { abs d with count := x }
  low : ∀ d x, (abs d).phase = .idle → abs (io.outByte d ATA_SECTOR_LOW x) = { abs d with low := x }
  mid : ∀ d x, (abs d).phase = .idle → abs (io.outByte d ATA_SECTOR_MID x) = { abs d with mid := x }
  high : ∀ d x, (abs d).phase = .idle → abs (io.outByte d ATA_SECTOR_HIGH x) = { abs d with high := x }
  select : ∀ d x, (abs d).phase = .idle → abs (io.outByte d ATA_SELECT_DRIVE x) = { abs d with select := x }
  read : ∀ d, (abs d).phase = .idle → (abs d).InRange →
    (abs d).Reaches ⟨false, (abs d).lba, (abs d).amount⟩ (abs (io.outByte d ATA_CMD_STATUS 0x20))
  write : ∀ d, (abs d).phase = .idle → (abs d).InRange →
    (abs d).Reaches ⟨true, (abs d).lba, (abs d).amount⟩ (abs (io.outByte d ATA_CMD_STATUS 0x30))
  inData : ∀ d t words, (abs d).phase = .ready t words → t.writes = false →
    (abs d).Delivers t words (io.inWord d ATA_DATA).1 (abs (io.inWord d ATA_DATA).2)
  outData : ∀ d t words w, (abs d).phase = .ready t words → t.writes = true →
    (abs d).Takes t words w (abs (io.outWord d ATA_DATA w))

end DBolOS.Dev
