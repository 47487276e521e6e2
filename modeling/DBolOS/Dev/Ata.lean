import DBolOS.Lib.Polling
import DBolOS.Dev.Drive
import DBolOS.Fat.Volume

/-!
# The disk driver

`ata_read` and `ata_write` send a command through the ports, wait for the drive and pass its sectors word by word.  On every
drive that keeps to the documents, however long it is busy, a run of them reads and writes the flat memory of bytes that the
file system works on (`ataCalls_refine`).
-/

namespace DBolOS.Dev

open ByteMem Polling

/-- `ata_drive`. -/
structure AtaDrive where
  cylinders : UInt16
  heads : UInt16
  sectorsPerTrack : UInt16
  totalSectors : Nat
  model : List UInt8
  isPresent : Bool

section Driver

variable {D : Type*} (io : Ports D)

def inWords : Nat → D → List UInt16 × D
  | 0, d => ([], d)
  | n + 1, d =>
    let (w, d) := io.inWord d ATA_DATA
    let (ws, d) := inWords n d
    (w :: ws, d)

/-- The inner loop of `ata_read`. -/
@[irreducible] def inSector (d : D) : List UInt16 × D := inWords io 256 d

def outWords (d : D) (words : List UInt16) : D := words.foldl (fun d w => io.outWord d ATA_DATA w) d

/-- `ata_init`, which does not wait for the data of `IDENTIFY`. -/
def ataInit (mainDriver : AtaDrive) (d : D) : AtaDrive × D :=
  let d := io.outByte d ATA_SELECT_DRIVE 0xA0
  let d := io.outByte d ATA_SECTOR_LOW 0
  let d := io.outByte d ATA_SECTOR_MID 0
  let d := io.outByte d ATA_SECTOR_HIGH 0
  let d := io.outByte d ATA_CMD_STATUS 0xEC
  let (driveStatus, d) := io.inByte d ATA_CMD_STATUS
  if driveStatus = 0 then ({ mainDriver with isPresent := false }, d)
  else
    let (dataBuffer, d) := inSector io d
    ({ cylinders := dataBuffer.getD 1 0
       heads := dataBuffer.getD 3 0
       sectorsPerTrack := dataBuffer.getD 6 0
       totalSectors := (dataBuffer.getD 60 0).toNat + 2 ^ 16 * (dataBuffer.getD 61 0).toNat
       model := ((dataBuffer.drop 27).take 20).flatMap le16 ++ [0]
       isPresent := true }, d)

def wait400ns (d : D) : D := (fun d => (io.status d).2)^[4] d

/-- `io_in_byte(ATA_CMD_STATUS) & 0x08` -/
def hasData (d : D) : Bool × D := (asks (io.status d).1, (io.status d).2)

/-- `!(io_in_byte(ATA_CMD_STATUS) & 0x80)` -/
def isDone (d : D) : Bool × D := (!isBusy (io.status d).1, (io.status d).2)

/-- The registers and the command of a transfer. -/
def sendCommand (sectorNumber : UInt32) (sectorCount command : UInt8) (d : D) : D :=
  let d := io.outByte d ATA_SELECT_DRIVE ((sectorNumber >>> 24).toUInt8 ||| 0xE0)
  let d := io.outByte d ATA_SECTOR_COUNT sectorCount
  let d := io.outByte d ATA_SECTOR_LOW (sectorNumber &&& 0xFF).toUInt8
  let d := io.outByte d ATA_SECTOR_MID ((sectorNumber >>> 8) &&& 0xFF).toUInt8
  let d := io.outByte d ATA_SECTOR_HIGH ((sectorNumber >>> 16) &&& 0xFF).toUInt8
  io.outByte d ATA_CMD_STATUS command

/-- The sectors of `ata_read`; each wait takes at most `n` rounds. -/
def readSectors (n : Nat) : Nat → D → Option (List UInt8 × D)
  | 0, d => some ([], d)
  | k + 1, d => do
    let (words, d) := inSector io d
    let d ← waitFor (isDone io) n (wait400ns io d)
    let (bytes, d) ← readSectors n k d
    some (words.flatMap le16 ++ bytes, d)

def ataRead (n : Nat) (mainDriver : AtaDrive) (sectorNumber : UInt32) (sectorCount : UInt8) (d : D) :
    Option (Int × List UInt8 × D) :=
  if !mainDriver.isPresent then some (1, [], d)
  else do
    let d ← waitFor (hasData io) n (sendCommand io sectorNumber sectorCount 0x20 d)
    let (bytes, d) ← readSectors io n sectorCount.toNat d
    some (0, bytes, d)

def writeSectors (n : Nat) : Nat → List UInt16 → D → Option D
  | 0, _, d => some d
  | k + 1, buffer, d => do
    let d := outWords io d (buffer.take 256)
    let d ← waitFor (isDone io) n (wait400ns io d)
    writeSectors n k (buffer.drop 256) d

/-- `none` for a buffer that is shorter than the sectors. -/
def ataWrite (n : Nat) (mainDriver : AtaDrive) (sectorNumber : UInt32) (sectorCount : UInt8) (buffer : List UInt8) (d : D) :
    Option (Int × D) :=
  if !mainDriver.isPresent then some (1, d)
  else if 512 * sectorCount.toNat ≤ buffer.length then do
    let d ← waitFor (hasData io) n (sendCommand io sectorNumber sectorCount 0x30 d)
    let d ← writeSectors io n sectorCount.toNat (words16 (buffer.take (512 * sectorCount.toNat))) d
    some (0, d)
  else none

end Driver

private theorem length_inWords {D : Type*} (io : Ports D) (n : Nat) (d : D) : (inWords io n d).1.length = n := by
  induction n generalizing d with
  | zero => rfl
  | succ n ih => exact congrArg (· + 1) (ih _)

/-- A drive that is found has a model number of 40 characters. -/
theorem length_model_ataInit {D : Type*} (io : Ports D) (mainDriver : AtaDrive) (d : D)
    (h : (ataInit io mainDriver d).1.isPresent = true) : (ataInit io mainDriver d).1.model.length = 41 := by
  obtain ⟨n, hn⟩ : ∃ n, n = 256 := ⟨_, rfl⟩
  have hlen : ∀ d, (inSector io d).1.length = n := by
    intro d
    rw [hn]
    unfold inSector
    exact length_inWords io 256 d
  unfold ataInit at h ⊢
  dsimp only at h ⊢
  split at h
  · cases h
  · rename_i hstatus
    rw [if_neg hstatus, List.length_append, length_flatMap_le16, List.length_take, List.length_drop, hlen, hn,
      List.length_singleton]
    decide

/-! ### Waiting -/

section Waiting

variable {D : Type*} {io : Ports D} {abs : D → Drive} {d : D} {s : Drive} {t : Transfer}

/-- A reading of the status leaves a drive that has come to `t` there. -/
private theorem reaches_status (h : io.IsDrive abs) (hd : s.Reaches t (abs d)) : s.Reaches t (abs (io.status d).2) := by
  rcases hd with hd | hd
  · have hnext := (h.busy d t (by rw [hd])).2.2
    rw [hd] at hnext
    rcases hnext with hnext | hnext
    · exact .inl hnext
    · exact .inr hnext
  · have hsame : abs (io.status d).2 = abs d := by
      by_cases hleft : t.left = 0
      · exact (h.idle d (by rw [hd]; exact if_pos hleft)).2.2
      · exact (h.ready d t [] (by rw [hd]; exact if_neg hleft)).2.2
    exact .inr (hsame.trans hd)

private theorem reaches_iterate (h : io.IsDrive abs) (hd : s.Reaches t (abs d)) (n : Nat) :
    s.Reaches t (abs ((fun d => (io.status d).2)^[n] d)) := by
  induction n generalizing d with
  | zero => exact hd
  | succ n ih => exact ih (reaches_status h hd)

/-- What the status says of a drive that has come to `t`. -/
private theorem status_reaches (h : io.IsDrive abs) (hd : s.Reaches t (abs d)) :
    abs d = { s with phase := .busy t } ∧ isBusy (io.status d).1 = true ∧ asks (io.status d).1 = false ∨
      abs d = { s with phase := .settle t } ∧ isBusy (io.status d).1 = false ∧
        asks (io.status d).1 = decide (t.left ≠ 0) ∧ abs (io.status d).2 = abs d := by
  rcases hd with hd | hd
  · obtain ⟨hbusy, hasks, -⟩ := h.busy d t (by rw [hd])
    exact .inl ⟨hd, hbusy, hasks⟩
  · by_cases hleft : t.left = 0
    · obtain ⟨hbusy, hasks, hsame⟩ := h.idle d (by rw [hd]; exact if_pos hleft)
      exact .inr ⟨hd, hbusy, by simp [hasks, hleft], hsame⟩
    · obtain ⟨hbusy, hasks, hsame⟩ := h.ready d t [] (by rw [hd]; exact if_neg hleft)
      exact .inr ⟨hd, hbusy, by simp [hasks, hleft], hsame⟩

private theorem settles_reaches (h : io.IsDrive abs) (hd : s.Reaches t (abs d)) :
    ∃ n, abs ((fun d => (io.status d).2)^[n] d) = { s with phase := .settle t } := by
  obtain ⟨n, hn⟩ := h.settles d
  exact ⟨n, (reaches_iterate h hd n).resolve_left fun hbusy => hn t (by rw [hbusy])⟩

/-- The wait for the end of `BSY`. -/
private theorem waitFor_isDone (h : io.IsDrive abs) (hd : s.Reaches t (abs d)) :
    ∃ n d', (∀ m ≥ n, waitFor (isDone io) m d = some d') ∧ abs d' = { s with phase := .settle t } := by
  refine waitFor_of_fair (I := fun d => s.Reaches t (abs d)) (fun d hd _ => reaches_status h hd) (fun d hd hdone => ?_)
    (fun d hd => ?_) hd
  · rcases status_reaches h hd with ⟨-, hbusy, -⟩ | ⟨hd, -, -, hsame⟩
    · simp [isDone, hbusy] at hdone
    · exact hsame.trans hd
  · obtain ⟨n, hn⟩ := settles_reaches h hd
    refine ⟨n, ?_⟩
    rcases status_reaches h (reaches_iterate h hd n) with ⟨hbusy, -⟩ | ⟨-, hbusy, -⟩
    · exfalso
      have hphase := congrArg Drive.phase (hbusy.symm.trans hn)
      simp only [Phase.settle] at hphase
      split at hphase <;> cases hphase
    · show (!isBusy (io.status ((fun d => (io.status d).2)^[n] d)).1) = true
      rw [hbusy]
      rfl

private theorem waitFor_hasData (h : io.IsDrive abs) (hleft : t.left ≠ 0) (hd : s.Reaches t (abs d)) :
    ∃ n d', (∀ m ≥ n, waitFor (hasData io) m d = some d') ∧ abs d' = { s with phase := .settle t } := by
  refine waitFor_of_fair (I := fun d => s.Reaches t (abs d)) (fun d hd _ => reaches_status h hd) (fun d hd hasks => ?_)
    (fun d hd => ?_) hd
  · rcases status_reaches h hd with ⟨-, -, hnone⟩ | ⟨hd, -, -, hsame⟩
    · simp [hasData, hnone] at hasks
    · exact hsame.trans hd
  · obtain ⟨n, hn⟩ := settles_reaches h hd
    refine ⟨n, ?_⟩
    rcases status_reaches h (reaches_iterate h hd n) with ⟨hbusy, -⟩ | ⟨-, -, hasks, -⟩
    · exfalso
      have hphase := congrArg Drive.phase (hbusy.symm.trans hn)
      simp only [Phase.settle] at hphase
      split at hphase <;> cases hphase
    · show asks (io.status ((fun d => (io.status d).2)^[n] d)).1 = true
      rw [hasks]
      simpa using hleft

end Waiting

/-! ### Transfers -/

section Transfers

variable {D : Type*} {io : Ports D} {abs : D → Drive} {d : D} {s : Drive} {t : Transfer} {words : List UInt16} {n k : Nat}

private theorem flatMap_word (s : Drive) (sector n : Nat) :
    ((List.range n).map fun i => s.word sector i).flatMap le16 = s.disk.readBytes (SECTOR_SIZE * sector) (2 * n) := by
  induction n with
  | zero => rfl
  | succ n ih =>
    rw [List.range_succ, List.map_append, List.flatMap_append, ih, Nat.mul_succ, readBytes_add, List.map_singleton,
      List.flatMap_singleton, Drive.word, le16_ofLe16]
    rfl

private theorem inWords_spec (h : io.IsDrive abs) (hread : t.writes = false)
    (hd : abs d = { s with phase := .ready t words })
    (hn : words.length + n = 256) (hpos : 0 < n) :
    (inWords io n d).1 = (List.range n).map (fun i => s.word t.sector (words.length + i)) ∧
      s.Reaches t.next (abs (inWords io n d).2) := by
  induction n generalizing d words with
  | zero => cases hpos
  | succ n ih =>
    obtain ⟨hw, hnext⟩ := h.inData d t words (by rw [hd]) hread
    rw [hd] at hw hnext
    replace hw : (io.inWord d ATA_DATA).1 = s.word t.sector words.length := hw
    rw [List.range_succ_eq_map, List.map_cons, List.map_map]
    by_cases hlast : words.length + 1 = 256
    · rw [if_pos hlast] at hnext
      obtain rfl : n = 0 := by omega
      exact ⟨congrArg (fun w => [w]) hw, hnext⟩
    · rw [if_neg hlast] at hnext
      obtain ⟨hwords, hreaches⟩ := ih hnext (by rw [List.length_append, List.length_singleton]; omega) (by omega)
      refine ⟨?_, hreaches⟩
      show (io.inWord d ATA_DATA).1 :: (inWords io n (io.inWord d ATA_DATA).2).1 = _
      rw [hw, hwords, Nat.add_zero]
      congr 1
      refine List.map_congr_left fun i _ => ?_
      rw [List.length_append, List.length_singleton, Function.comp_apply, Nat.add_assoc, Nat.add_comm 1 i]

private theorem inSector_spec (h : io.IsDrive abs) (hread : t.writes = false)
    (hd : abs d = { s with phase := .ready t [] }) :
    (inSector io d).1.flatMap le16 = s.disk.readBytes (SECTOR_SIZE * t.sector) SECTOR_SIZE ∧
      s.Reaches t.next (abs (inSector io d).2) := by
  obtain ⟨n, hn⟩ : ∃ n, n = 256 := ⟨_, rfl⟩
  obtain ⟨hwords, hreaches⟩ := inWords_spec (n := n) h hread hd (by rw [hn]; rfl) (by omega)
  simp only [List.length_nil, Nat.zero_add] at hwords
  have hsector : inSector io d = inWords io n d := by
    rw [hn]
    unfold inSector
    rfl
  have hsize : 2 * n = SECTOR_SIZE := by rw [hn, SECTOR_SIZE]
  rw [hsector, hwords, flatMap_word, hsize]
  exact ⟨rfl, hreaches⟩

private theorem readSectors_spec (h : io.IsDrive abs) (hread : t.writes = false) (hleft : t.left = k)
    (hd : abs d = { s with phase := .settle t }) :
    ∃ n d', (∀ m ≥ n, readSectors io m k d = some (s.disk.readBytes (SECTOR_SIZE * t.sector) (SECTOR_SIZE * k), d')) ∧
      abs d' = { s with phase := .idle } := by
  induction k generalizing d t with
  | zero => exact ⟨0, d, fun m _ => rfl, by rw [hd, Phase.settle, if_pos hleft]⟩
  | succ k ih =>
    have hready : abs d = { s with phase := .ready t [] } := by rw [hd, Phase.settle, if_neg (by omega)]
    obtain ⟨hwords, hreaches⟩ := inSector_spec h hread hready
    obtain ⟨n₁, d₁, hwait, hd₁⟩ := waitFor_isDone h (reaches_iterate h hreaches 4)
    obtain ⟨n₂, d₂, hrest, hd₂⟩ := ih (t := t.next) hread (by rw [Transfer.next, hleft]; rfl) hd₁
    refine ⟨max n₁ n₂, d₂, fun m hm => ?_, hd₂⟩
    have hw : waitFor (isDone io) m (wait400ns io (inSector io d).2) = some d₁ := hwait m (by omega)
    have hnext : SECTOR_SIZE * t.next.sector = SECTOR_SIZE * t.sector + SECTOR_SIZE := Nat.mul_succ _ _
    have hsplit : SECTOR_SIZE * (k + 1) = SECTOR_SIZE + SECTOR_SIZE * k := by rw [Nat.mul_succ, Nat.add_comm]
    simp only [readSectors, hw, hrest m (by omega), Option.bind_eq_bind, Option.bind_some, hwords]
    rw [hsplit, readBytes_add, hnext]

private theorem outWords_spec (h : io.IsDrive abs) (hwrite : t.writes = true) {buffer : List UInt16}
    (hd : abs d = { s with phase := .ready t words }) (hn : words.length + buffer.length = 256) (hpos : buffer ≠ []) :
    Drive.Reaches { s with disk := s.disk.writeBytes (SECTOR_SIZE * t.sector) ((words ++ buffer).flatMap le16) } t.next
      (abs (outWords io d buffer)) := by
  induction buffer generalizing d words with
  | nil => exact absurd rfl hpos
  | cons w buffer ih =>
    have hnext := h.outData d t words w (by rw [hd]) hwrite
    rw [hd] at hnext
    rw [List.length_cons] at hn
    unfold Drive.Takes at hnext
    by_cases hlast : words.length + 1 = 256
    · rw [if_pos hlast] at hnext
      obtain rfl : buffer = [] := List.length_eq_zero_iff.1 (by omega)
      exact hnext
    · rw [if_neg hlast] at hnext
      have hrest : buffer ≠ [] := by
        rintro rfl
        exact hlast (by simpa using hn)
      have hreaches := ih hnext (by rw [List.length_append, List.length_singleton]; omega) hrest
      rwa [List.append_assoc, List.singleton_append] at hreaches

private theorem writeSectors_spec (h : io.IsDrive abs) (hwrite : t.writes = true) {buffer : List UInt16}
    (hleft : t.left = k)
    (hlen : buffer.length = 256 * k) (hd : abs d = { s with phase := .settle t }) :
    ∃ n d', (∀ m ≥ n, writeSectors io m k buffer d = some d') ∧
      abs d' = { s with
        disk := s.disk.writeBytes (SECTOR_SIZE * t.sector) (buffer.flatMap le16), phase := .idle } := by
  induction k generalizing d t s buffer with
  | zero =>
    obtain rfl : buffer = [] := List.length_eq_zero_iff.1 (by omega)
    refine ⟨0, d, fun m _ => rfl, ?_⟩
    rw [hd, Phase.settle, if_pos hleft]
    congr 1
    funext a
    exact (writeBytes_outside s.disk (by simp; omega)).symm
  | succ k ih =>
    have hready : abs d = { s with phase := .ready t [] } := by rw [hd, Phase.settle, if_neg (by omega)]
    have htake : (buffer.take 256).length = 256 := by rw [List.length_take]; omega
    have hreaches := outWords_spec h hwrite hready (by rw [htake]; rfl : [].length + (buffer.take 256).length = 256)
      (fun h0 => by rw [h0] at htake; cases htake)
    obtain ⟨n₁, d₁, hwait, hd₁⟩ := waitFor_isDone h (reaches_iterate h hreaches 4)
    obtain ⟨n₂, d₂, hrest, hd₂⟩ := ih (t := t.next) hwrite (by rw [Transfer.next, hleft]; rfl)
      (by rw [List.length_drop]; omega : (buffer.drop 256).length = 256 * k) hd₁
    refine ⟨max n₁ n₂, d₂, fun m hm => ?_, ?_⟩
    · have hw : waitFor (isDone io) m (wait400ns io (outWords io d (buffer.take 256))) = some d₁ := hwait m (by omega)
      simp only [writeSectors, hw, hrest m (by omega), Option.bind_eq_bind, Option.bind_some]
    · rw [hd₂, List.nil_append]
      have hsplit : buffer.flatMap le16 = (buffer.take 256).flatMap le16 ++ (buffer.drop 256).flatMap le16 := by
        rw [← List.flatMap_append, List.take_append_drop]
      rw [hsplit, writeBytes_append, length_flatMap_le16, htake]
      rfl

end Transfers

/-! ### Commands -/

private theorem toNat_low (a : UInt32) : (a &&& 0xFF).toUInt8.toNat = a.toNat % 2 ^ 8 := by
  rw [UInt32.toNat_toUInt8, UInt32.toNat_and, show (0xFF : UInt32).toNat = 2 ^ 8 - 1 from rfl,
    Nat.and_two_pow_sub_one_eq_mod]
  omega

private theorem toNat_byte (a : UInt32) {k : UInt32} (hk : k.toNat < 32) :
    ((a >>> k) &&& 0xFF).toUInt8.toNat = a.toNat / 2 ^ k.toNat % 2 ^ 8 := by
  rw [toNat_low, UInt32.toNat_shiftRight, Nat.mod_eq_of_lt hk, Nat.shiftRight_eq_div_pow]

private theorem toNat_or_select {x : UInt8} (h : x.toNat < 16) : (x ||| 0xE0).toNat = x.toNat + 0xE0 := by
  obtain ⟨n, hn⟩ : ∃ n, n = x.toNat := ⟨_, rfl⟩
  obtain rfl : x = UInt8.ofNat n := by rw [hn, UInt8.ofNat_toNat]
  rw [← hn] at h ⊢
  interval_cases n <;> rfl

section Commands

variable {D : Type*} {io : Ports D} {abs : D → Drive} {d : D} {sectorNumber : UInt32} {sectorCount : UInt8}

/-- The registers before the command. -/
def Drive.addressed (s : Drive) (sectorNumber : UInt32) (sectorCount : UInt8) : Drive :=
  { s with
    select := (sectorNumber >>> 24).toUInt8 ||| 0xE0
    count := sectorCount
    low := (sectorNumber &&& 0xFF).toUInt8
    mid := ((sectorNumber >>> 8) &&& 0xFF).toUInt8
    high := ((sectorNumber >>> 16) &&& 0xFF).toUInt8 }

/-- The registers name the sectors, as long as their numbers have 28 bits. -/
private theorem addressed_spec (s : Drive) (hpos : 0 < sectorCount.toNat) (hsize : s.sectors ≤ 2 ^ 28)
    (hin : sectorNumber.toNat + sectorCount.toNat ≤ s.sectors) :
    (s.addressed sectorNumber sectorCount).InRange ∧ (s.addressed sectorNumber sectorCount).lba = sectorNumber.toNat ∧
      (s.addressed sectorNumber sectorCount).amount = sectorCount.toNat := by
  have htop : ((sectorNumber >>> 24).toUInt8).toNat = sectorNumber.toNat / 2 ^ 24 := by
    rw [UInt32.toNat_toUInt8, UInt32.toNat_shiftRight, show (24 : UInt32).toNat % 32 = 24 from rfl,
      Nat.shiftRight_eq_div_pow]
    omega
  have hselect : ((sectorNumber >>> 24).toUInt8 ||| 0xE0).toNat = sectorNumber.toNat / 2 ^ 24 + 0xE0 := by
    rw [toNat_or_select (by rw [htop]; omega), htop]
  have hlba : (s.addressed sectorNumber sectorCount).lba = sectorNumber.toNat := by
    have hmid := toNat_byte sectorNumber (k := 8) (by decide)
    have hhigh := toNat_byte sectorNumber (k := 16) (by decide)
    simp only [Drive.lba, Drive.addressed, toNat_low, hmid, hhigh, hselect, show (8 : UInt32).toNat = 8 from rfl,
      show (16 : UInt32).toNat = 16 from rfl]
    omega
  have hamount : (s.addressed sectorNumber sectorCount).amount = sectorCount.toNat := if_neg hpos.ne'
  refine ⟨⟨?_, ?_⟩, hlba, hamount⟩
  · show ((sectorNumber >>> 24).toUInt8 ||| 0xE0).toNat / 16 = 0xE
    rw [hselect]
    omega
  · rw [hlba, hamount]
    exact hin

private theorem sendCommand_reaches (h : io.IsDrive abs) (hidle : (abs d).phase = .idle)
    (hsize : (abs d).sectors ≤ 2 ^ 28)
    (hpos : 0 < sectorCount.toNat) (hin : sectorNumber.toNat + sectorCount.toNat ≤ (abs d).sectors) (writes : Bool) :
    ((abs d).addressed sectorNumber sectorCount).Reaches ⟨writes, sectorNumber.toNat, sectorCount.toNat⟩
      (abs (sendCommand io sectorNumber sectorCount (if writes then 0x30 else 0x20) d)) := by
  obtain ⟨d₁, hd₁⟩ : ∃ d₁, d₁ = io.outByte d ATA_SELECT_DRIVE ((sectorNumber >>> 24).toUInt8 ||| 0xE0) := ⟨_, rfl⟩
  obtain ⟨d₂, hd₂⟩ : ∃ d₂, d₂ = io.outByte d₁ ATA_SECTOR_COUNT sectorCount := ⟨_, rfl⟩
  obtain ⟨d₃, hd₃⟩ : ∃ d₃, d₃ = io.outByte d₂ ATA_SECTOR_LOW (sectorNumber &&& 0xFF).toUInt8 := ⟨_, rfl⟩
  obtain ⟨d₄, hd₄⟩ : ∃ d₄, d₄ = io.outByte d₃ ATA_SECTOR_MID ((sectorNumber >>> 8) &&& 0xFF).toUInt8 := ⟨_, rfl⟩
  obtain ⟨d₅, hd₅⟩ : ∃ d₅, d₅ = io.outByte d₄ ATA_SECTOR_HIGH ((sectorNumber >>> 16) &&& 0xFF).toUInt8 := ⟨_, rfl⟩
  have habs₁ := h.select d ((sectorNumber >>> 24).toUInt8 ||| 0xE0) hidle
  rw [← hd₁] at habs₁
  have habs₂ := h.count d₁ sectorCount (by rw [habs₁]; exact hidle)
  rw [← hd₂, habs₁] at habs₂
  have habs₃ := h.low d₂ (sectorNumber &&& 0xFF).toUInt8 (by rw [habs₂]; exact hidle)
  rw [← hd₃, habs₂] at habs₃
  have habs₄ := h.mid d₃ ((sectorNumber >>> 8) &&& 0xFF).toUInt8 (by rw [habs₃]; exact hidle)
  rw [← hd₄, habs₃] at habs₄
  have habs₅ := h.high d₄ ((sectorNumber >>> 16) &&& 0xFF).toUInt8 (by rw [habs₄]; exact hidle)
  rw [← hd₅, habs₄] at habs₅
  replace habs₅ : abs d₅ = (abs d).addressed sectorNumber sectorCount := habs₅
  obtain ⟨hrange, hlba, hamount⟩ := addressed_spec (abs d) hpos hsize hin
  have hidle₅ : (abs d₅).phase = .idle := by rw [habs₅]; exact hidle
  have hread := h.read d₅ hidle₅ (by rw [habs₅]; exact hrange)
  have hwrite := h.write d₅ hidle₅ (by rw [habs₅]; exact hrange)
  rw [habs₅, hlba, hamount] at hread hwrite
  have hsend : ∀ command, sendCommand io sectorNumber sectorCount command d = io.outByte d₅ ATA_CMD_STATUS command := by
    intro command
    rw [hd₅, hd₄, hd₃, hd₂, hd₁, sendCommand]
  cases writes with
  | false => rw [if_neg Bool.false_ne_true, hsend]; exact hread
  | true => rw [if_pos rfl, hsend]; exact hwrite

end Commands

/-! ### Calls -/

/-- A call of the driver. -/
inductive DiskCall
  | read (sectorNumber : UInt32) (sectorCount : UInt8)
  | write (sectorNumber : UInt32) (sectorCount : UInt8) (buffer : List UInt8)

/-- There are sectors to pass, they lie on the disk, and the buffer holds them. -/
def DiskCall.InRange (sectors : Nat) : DiskCall → Prop
  | .read sectorNumber sectorCount => 0 < sectorCount.toNat ∧ sectorNumber.toNat + sectorCount.toNat ≤ sectors
  | .write sectorNumber sectorCount buffer => 0 < sectorCount.toNat ∧
      sectorNumber.toNat + sectorCount.toNat ≤ sectors ∧ 512 * sectorCount.toNat ≤ buffer.length

/-- The return value of the call, the bytes that it reads and the device after it. -/
def ataCall {D : Type*} (io : Ports D) (n : Nat) (mainDriver : AtaDrive) (d : D) : DiskCall → Option ((Int × List UInt8) × D)
  | .read sectorNumber sectorCount => do
    let (ret, bytes, d) ← ataRead io n mainDriver sectorNumber sectorCount d
    some ((ret, bytes), d)
  | .write sectorNumber sectorCount buffer => do
    let (ret, d) ← ataWrite io n mainDriver sectorNumber sectorCount buffer d
    some ((ret, []), d)

/-- The same call on the flat memory of the file system. -/
def DiskCall.onBytes (disk : ByteMem) : DiskCall → Option ((Int × List UInt8) × ByteMem)
  | .read sectorNumber sectorCount => some ((0, Fat.ataRead disk sectorNumber.toNat sectorCount.toNat), disk)
  | .write sectorNumber sectorCount buffer => do
    let disk ← Fat.ataWrite disk sectorNumber.toNat sectorCount.toNat buffer
    some ((0, []), disk)

/-- Call after call, with their results. -/
def callAll {S C R : Type*} (call : S → C → Option (R × S)) : List C → S → Option (List R × S)
  | [], s => some ([], s)
  | c :: cs, s => do
    let (r, s) ← call s c
    let (rs, s) ← callAll call cs s
    some (r :: rs, s)

section Calls

variable {D : Type*} {io : Ports D} {abs : D → Drive} {d : D} {mainDriver : AtaDrive}

/-- A call does to the disk what it does to the flat memory. -/
private theorem ataCall_refines (h : io.IsDrive abs) (hpresent : mainDriver.isPresent = true)
    (hidle : (abs d).phase = .idle)
    (hsize : (abs d).sectors ≤ 2 ^ 28) {c : DiskCall} (hc : c.InRange (abs d).sectors) :
    ∃ n d' r, (∀ m ≥ n, ataCall io m mainDriver d c = some (r, d')) ∧
      c.onBytes (abs d).disk = some (r, (abs d').disk) ∧ (abs d').phase = .idle ∧ (abs d').sectors = (abs d).sectors := by
  cases c with
  | read sectorNumber sectorCount =>
    obtain ⟨hpos, hin⟩ := hc
    have hreaches := sendCommand_reaches h hidle hsize hpos hin false
    obtain ⟨n₁, d₁, hwait, hd₁⟩ := waitFor_hasData h hpos.ne' hreaches
    obtain ⟨n₂, d₂, hread, hd₂⟩ := readSectors_spec h rfl rfl hd₁
    refine ⟨max n₁ n₂, d₂, (0, (abs d).disk.readBytes (SECTOR_SIZE * sectorNumber.toNat) (SECTOR_SIZE * sectorCount.toNat)),
      fun m hm => ?_, ?_, by rw [hd₂], by rw [hd₂]; rfl⟩
    · have hw : waitFor (hasData io) m (sendCommand io sectorNumber sectorCount 0x20 d) = some d₁ := hwait m (by omega)
      simp only [ataCall, ataRead, hpresent, Bool.not_true, Bool.false_eq_true, ↓reduceIte, hw, hread m (by omega),
        Option.bind_eq_bind, Option.bind_some]
      rfl
    · rw [hd₂, DiskCall.onBytes, Fat.ataRead, Fat.ataAddr_of_lt (by omega)]
      rfl
  | write sectorNumber sectorCount buffer =>
    obtain ⟨hpos, hin, hlen⟩ := hc
    have hreaches := sendCommand_reaches h hidle hsize hpos hin true
    obtain ⟨n₁, d₁, hwait, hd₁⟩ := waitFor_hasData h hpos.ne' hreaches
    have htake : (buffer.take (512 * sectorCount.toNat)).length = 512 * sectorCount.toNat := by
      rw [List.length_take]
      omega
    have hwords : (words16 (buffer.take (512 * sectorCount.toNat))).length = 256 * sectorCount.toNat := by
      rw [length_words16, htake]
      omega
    obtain ⟨n₂, d₂, hwrite, hd₂⟩ := writeSectors_spec h rfl rfl hwords hd₁
    refine ⟨max n₁ n₂, d₂, (0, []), fun m hm => ?_, ?_, by rw [hd₂], by rw [hd₂]; rfl⟩
    · have hw : waitFor (hasData io) m (sendCommand io sectorNumber sectorCount 0x30 d) = some d₁ := hwait m (by omega)
      simp only [ataCall, ataWrite, hpresent, Bool.not_true, Bool.false_eq_true, ↓reduceIte, hlen, hw, hwrite m (by omega),
        Option.bind_eq_bind, Option.bind_some]
    · rw [flatMap_le16_words16 _ (by rw [htake]; omega)] at hd₂
      rw [hd₂, DiskCall.onBytes, Fat.ataWrite, if_pos hlen, Fat.ataAddr_of_lt (by omega)]
      rfl

end Calls

/-- On every drive of at most 2^28 sectors, however long it is busy, calls on sectors of the disk come to their end one after
the other; their results, and the disk, are those of the same calls on the flat memory of bytes. -/
theorem ataCalls_refine {D : Type*} {io : Ports D} {abs : D → Drive} (h : io.IsDrive abs) {mainDriver : AtaDrive}
    (hpresent : mainDriver.isPresent = true) {d : D} (hidle : (abs d).phase = .idle) (hsize : (abs d).sectors ≤ 2 ^ 28)
    {calls : List DiskCall} (hcalls : ∀ c ∈ calls, c.InRange (abs d).sectors) :
    ∃ n d' results, (∀ m ≥ n, callAll (ataCall io m mainDriver) calls d = some (results, d')) ∧
      callAll DiskCall.onBytes calls (abs d).disk = some (results, (abs d').disk) ∧ (abs d').phase = .idle := by
  induction calls generalizing d with
  | nil => exact ⟨0, d, [], fun _ _ => rfl, rfl, hidle⟩
  | cons c calls ih =>
    obtain ⟨n₁, d₁, r, hcall, hbytes, hidle₁, hsectors⟩ := ataCall_refines h hpresent hidle hsize (hcalls c (by simp))
    obtain ⟨n₂, d₂, results, hrest, hbytes', hidle₂⟩ := ih hidle₁ (hsectors ▸ hsize)
      (fun c' hc' => hsectors ▸ hcalls c' (List.mem_cons_of_mem _ hc'))
    refine ⟨max n₁ n₂, d₂, r :: results, fun m hm => ?_, ?_, hidle₂⟩
    · simp only [callAll, hcall m (by omega), hrest m (by omega), Option.bind_eq_bind, Option.bind_some]
    · simp only [callAll, hbytes, hbytes', Option.bind_eq_bind, Option.bind_some]

/-! ### A drive -/

/-- A drive that is busy for one reading of its status before each sector. -/
def slowDrive : Ports Drive where
  inByte s port :=
    if port = ATA_CMD_STATUS then
      match s.phase with
      | .idle => (0x40, s)
      | .busy t => (0x80, { s with phase := .settle t })
      | .ready _ _ => (0x48, s)
    else (0, s)
  inWord s _ :=
    match s.phase with
    | .ready t words =>
      (s.word t.sector words.length,
        if words.length + 1 = 256 then { s with phase := .busy t.next }
        else { s with phase := .ready t (words ++ [s.word t.sector words.length]) })
    | _ => (0, s)
  outByte s port x :=
    if port = ATA_SECTOR_COUNT then { s with count := x }
    else if port = ATA_SECTOR_LOW then { s with low := x }
    else if port = ATA_SECTOR_MID then { s with mid := x }
    else if port = ATA_SECTOR_HIGH then { s with high := x }
    else if port = ATA_SELECT_DRIVE then { s with select := x }
    else { s with phase := .busy ⟨x = 0x30, s.lba, s.amount⟩ }
  outWord s _ w :=
    match s.phase with
    | .ready t words =>
      if words.length + 1 = 256 then
        { s with
          disk := s.disk.writeBytes (SECTOR_SIZE * t.sector) ((words ++ [w]).flatMap le16), phase := .busy t.next }
      else { s with phase := .ready t (words ++ [w]) }
    | _ => s

private theorem slowDrive_isDrive : slowDrive.IsDrive id where
  idle d hd := by
    simp only [Ports.status, slowDrive, show d.phase = .idle from hd, if_true, and_true]
    exact ⟨rfl, rfl⟩
  ready d t words hd := by
    simp only [Ports.status, slowDrive, show d.phase = .ready t words from hd, if_true, and_true]
    exact ⟨rfl, rfl⟩
  busy d t hd := by
    simp only [Ports.status, slowDrive, show d.phase = .busy t from hd, if_true]
    exact ⟨rfl, rfl, .inr rfl⟩
  settles d := by
    refine ⟨1, fun t hbusy => ?_⟩
    simp only [id, Function.iterate_one, Ports.status, slowDrive, if_true] at hbusy
    split at hbusy
    · rename_i hphase
      rw [hphase] at hbusy
      cases hbusy
    · simp only [Phase.settle] at hbusy
      split at hbusy <;> cases hbusy
    · rename_i hphase
      rw [hphase] at hbusy
      cases hbusy
  count d x _ := rfl
  low d x _ := rfl
  mid d x _ := rfl
  high d x _ := rfl
  select d x _ := rfl
  read d _ _ := .inl rfl
  write d _ _ := .inl rfl
  inData d t words hd _ := by
    simp only [slowDrive, show d.phase = .ready t words from hd, Drive.Delivers, id, true_and]
    split
    · exact .inl rfl
    · rfl
  outData d t words w hd _ := by
    simp only [slowDrive, show d.phase = .ready t words from hd, Drive.Takes, id]
    split
    · exact .inl rfl
    · rfl

def smallDrive : Drive := ⟨fun _ => 0, 16, 0, 0, 0, 0, 0, .idle⟩

/-- `ataCalls_refine` on a drive of 16 sectors: a sector is written and read back. -/
theorem ataCalls_refine_slowDrive : ∃ n d', ∀ m ≥ n,
    callAll (ataCall slowDrive m ⟨0, 0, 0, 16, [], true⟩) [.write 3 1 (List.replicate 512 7), .read 3 1] smallDrive =
      some ([(0, []), (0, List.replicate 512 7)], d') := by
  have hcalls : ∀ c ∈ [DiskCall.write 3 1 (List.replicate 512 7), .read 3 1], c.InRange (id smallDrive).sectors := by
    intro c hc
    simp only [List.mem_cons, List.not_mem_nil, or_false] at hc
    rcases hc with rfl | rfl
    · exact ⟨by decide, by decide, by rw [List.length_replicate]; decide⟩
    · exact ⟨by decide, by decide⟩
  obtain ⟨n, d', results, hrun, hbytes, -⟩ := ataCalls_refine slowDrive_isDrive
    (rfl : (⟨0, 0, 0, 16, [], true⟩ : AtaDrive).isPresent = true) rfl (by decide) hcalls
  have hresults : (callAll DiskCall.onBytes [.write 3 1 (List.replicate 512 7), .read 3 1] fun _ => 0).map Prod.fst =
      some [(0, []), (0, List.replicate 512 7)] := by
    decide +kernel
  obtain rfl := Option.some.inj ((congrArg (Option.map Prod.fst) hbytes).symm.trans hresults)
  exact ⟨n, d', hrun⟩

end DBolOS.Dev
