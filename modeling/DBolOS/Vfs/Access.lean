import DBolOS.Fat.Shortage
import DBolOS.Vfs.Modes

/-!
# Reading, writing and seeking

What the calls on the descriptor of a regular file return and leave.  `_lseek` looks at the offset asked for with
`SEEK_CUR` alone (`seeksRightly_iff`).  `_read` advances the offset by the error that `fat_read` returns, and `_write`
returns a positive code where `fat_write` fails (`reportsFaithfully_iff`).
-/

namespace DBolOS.Vfs

open Failing
open Fat (DirEntry Volume)
open Proc (Process FileDescriptor Manager MAX_LOCAL_FD)

namespace Kernel

variable {k k' : Kernel} {c fd g : Nat} {d : FileDescriptor} {x : GlobalFd}

/-! ### The descriptor of a regular file -/

/-- Descriptor `fd` of the running process `c` is that of the regular file of entry `g`. -/
structure OpenFile (k : Kernel) (c fd g : Nat) (d : FileDescriptor) (x : GlobalFd) : Prop where
  current : k.manager.currentProcess = some c
  slot : k.slotAt c fd = some d
  used : d.isUsed = true
  file : hasFlag d.flags O_DIRECTORY = false
  global : d.globalFd = some g
  entry : k.globalFdTable[g]? = some x
  read : x.read = some .fatFs

theorem OpenFile.globalOf (h : k.OpenFile c fd g d x) : k.globalOf d = .ok (g, x) := by
  have hglobal : k.global g = .ok x := Fault.of_eq_ok.2 h.entry
  unfold Kernel.globalOf
  rw [h.global]
  simp only [Fault.of, ok_bind, hglobal]

/-- `_read` on the descriptor. -/
private theorem OpenFile.sysRead (h : k.OpenFile c fd g d x) (count : UInt32) :
    (∀ under bytes, k.volume.fatRead x.file.fileEntry d.offset.toNat count.toNat = some (under, bytes) →
      ∃ k', k.sysRead fd count = .ok (some (under, bytes), k') ∧
        k'.slotAt c fd = some { d with offset := d.offset + UInt32.ofInt under }) ∧
    (k.volume.fatRead x.file.fileEntry d.offset.toNat count.toNat = none → k.sysRead fd count = .error .fileSystem) := by
  have hglobal : d.globalFd ≠ none := by
    rw [h.global]
    exact Option.some_ne_none g
  unfold Kernel.sysRead
  rw [usedSlot_eq h.current h.slot h.used (by simp)]
  simp only [ok_bind, h.file, hasFlag_rdonly, Bool.false_eq_true, if_false, if_neg hglobal, h.globalOf, h.read,
    Int.toNat_natCast]
  constructor
  · intro under bytes hcall
    obtain ⟨k', hk', hslot, -⟩ := setSlot_eq h.slot { d with offset := d.offset + UInt32.ofInt under }
    refine ⟨k', ?_, hslot⟩
    simp only [hcall, Fault.of, ok_bind, hk']
  · intro hcall
    simp only [hcall, Fault.of, error_bind]

/-- `_write` on the descriptor. -/
private theorem OpenFile.sysWrite (h : k.OpenFile c fd g d x) (hfd : 3 ≤ fd) (buf : List UInt8) :
    (∀ under e w, k.volume.fatWrite x.file.fileEntry x.file.parentEntry d.offset.toNat buf = some (under, e, w) →
      ∃ k', k.sysWrite fd buf = .ok (if under < 0 then EAGAIN else under, k') ∧ k'.volume = w ∧
        k'.slotAt c fd = some (if under < 0 then d else { d with offset := d.offset + UInt32.ofInt under })) ∧
    (k.volume.fatWrite x.file.fileEntry x.file.parentEntry d.offset.toNat buf = none →
      k.sysWrite fd buf = .error .fileSystem) := by
  have hone : ¬(k.manager.currentProcess ≠ none ∧ (fd : Int) = 1) := by omega
  have hrefused : (fd : Int) ∉ [(0 : Int), 2] := by
    simp only [List.mem_cons, List.not_mem_nil, or_false, not_or]
    omega
  unfold Kernel.sysWrite
  rw [if_neg hone, usedSlot_eq h.current h.slot h.used hrefused]
  simp only [ok_bind, h.file, hasFlag_rdonly, Bool.false_eq_true, if_false, h.globalOf, Int.toNat_natCast]
  constructor
  · intro under e w hcall
    have hg : g < MAX_FD := (Vector.getElem?_eq_some_iff.1 h.entry).1
    simp only [hcall, Fault.of, ok_bind, modifyGlobal_eq hg]
    split
    · exact ⟨_, rfl, rfl, h.slot⟩
    · generalize hset : k.globalFdTable.set g _ _ = table
      have hslot : ({ k with globalFdTable := table, volume := w } : Kernel).slotAt c fd = some d := h.slot
      obtain ⟨k', hk', hslot', -, -, hvolume, -⟩ := setSlot_eq hslot { d with offset := d.offset + UInt32.ofInt under }
      refine ⟨k', ?_, hvolume, hslot'⟩
      rw [hk', ok_bind]
  · intro hcall
    simp only [hcall, Fault.of, error_bind]

/-! ### Seeking -/

/-- The position that a seek asks for; `-1` for a `whence` that is not defined. -/
def position (d : FileDescriptor) (x : GlobalFd) (offset : Int) : Whence → Int
  | .set => offset
  | .cur => d.offset.toNat + offset
  | .end => x.file.fileEntry.fileSize.toNat + offset
  | .other => -1

/-- `new_offset` of `_lseek`. -/
def newOffset (d : FileDescriptor) (x : GlobalFd) (offset : Int) : Whence → Option UInt32
  | .set => some 0
  | .cur => some (d.offset + UInt32.ofInt offset)
  | .end => some x.file.fileEntry.fileSize
  | .other => none

theorem toInt_cases (n : UInt32) : toInt n < 0 ∧ 2 ^ 31 ≤ n.toNat ∨ toInt n = n.toNat ∧ n.toNat < 2 ^ 31 := by
  have hlt := n.toNat_lt
  unfold toInt
  rw [Int.bmod_def]
  norm_num at hlt ⊢
  omega

/-- `_lseek` on the descriptor. -/
private theorem OpenFile.sysLseek (h : k.OpenFile c fd g d x) (hfd : 3 ≤ fd) (offset : Int) (whence : Whence) :
    (∀ n, newOffset d x offset whence = some n → n.toNat < 2 ^ 31 → ∃ k', k.sysLseek fd offset whence = .ok (n.toNat, k') ∧
      k'.slotAt c fd = some { d with offset := n } ∧ Touches k k' c fd ∧ k'.globalFdTable = k.globalFdTable ∧
      k'.volume = k.volume ∧ k'.manager.currentProcess = k.manager.currentProcess) ∧
    ((∀ n, newOffset d x offset whence = some n → 2 ^ 31 ≤ n.toNat) → k.sysLseek fd offset whence = .ok (-EINVAL, k)) := by
  have hrefused : (fd : Int) ∉ [(0 : Int), 1, 2] := by
    simp only [List.mem_cons, List.not_mem_nil, or_false, not_or]
    omega
  -- what follows once the new offset is known
  obtain ⟨store, hcall, hnone, hneg, hpos⟩ : ∃ store : Option UInt32 → Except Fault (Int × Kernel),
      k.sysLseek fd offset whence = store (newOffset d x offset whence) ∧ store none = .ok (-EINVAL, k) ∧
      (∀ n, toInt n < 0 → store (some n) = .ok (-EINVAL, k)) ∧
      ∀ n, ¬toInt n < 0 → store (some n) = (do
        let k ← k.setSlot c fd { d with offset := n }
        .ok (toInt n, k)) := by
    unfold Kernel.sysLseek
    rw [usedSlot_eq h.current h.slot h.used hrefused, ok_bind]
    dsimp -zeta only
    extract_lets store
    refine ⟨store, ?_, rfl, ?_, ?_⟩
    · clear_value store
      cases whence with
      | «end» =>
        dsimp only
        rw [h.globalOf, ok_bind]
        dsimp only
        rw [ok_bind, newOffset]
      | _ =>
        dsimp only
        rw [ok_bind, newOffset]
    · intro n hn
      dsimp only [store]
      rw [if_pos hn]
    · intro n hn
      dsimp only [store]
      rw [if_neg hn, if_neg (by simp [h.file])]
      rfl
  constructor
  · intro n hn hlt
    obtain ⟨k', hk', hslot, hothers, htable, hvolume, hcurrent⟩ := setSlot_eq h.slot { d with offset := n }
    refine ⟨k', ?_, hslot, hothers, htable, hvolume, hcurrent⟩
    rcases toInt_cases n with ⟨-, hle⟩ | ⟨heq, -⟩
    · exact absurd hlt (not_lt.2 hle)
    · rw [hcall, hn, hpos n (by rw [heq]; exact not_lt.2 (Int.natCast_nonneg _)), hk', heq, ok_bind]
  · intro hall
    rw [hcall]
    cases hn : newOffset d x offset whence with
    | none => exact hnone
    | some n =>
      rcases toInt_cases n with ⟨hlt, -⟩ | ⟨-, hlt⟩
      · exact hneg n hlt
      · exact absurd (hall n hn) (not_le.2 hlt)

/-- What a call returns and the offset it leaves, where the call of the driver returned `under`: the bytes transferred,
or an error. -/
structure Reports (under ret : Int) (count offset offset' : Nat) : Prop where
  success : 0 ≤ under → 0 ≤ ret ∧ ret ≤ count ∧ (offset' : Int) = offset + ret
  failure : under < 0 → ret < 0 ∧ offset' = offset

/-- `_read` has a result and reports that of `fat_read`. -/
def ReportsRead (k : Kernel) (c fd : Nat) (d : FileDescriptor) (x : GlobalFd) (count : UInt32) : Prop :=
  ∃ under bytes ret stored k' d', k.volume.fatRead x.file.fileEntry d.offset.toNat count.toNat = some (under, bytes) ∧
    k.sysRead fd count = .ok (some (ret, stored), k') ∧ k'.slotAt c fd = some d' ∧
    Reports under ret count.toNat d.offset.toNat d'.offset.toNat

/-- `_write` has a result and reports that of `fat_write`. -/
def ReportsWrite (k : Kernel) (c fd : Nat) (d : FileDescriptor) (x : GlobalFd) (buf : List UInt8) : Prop :=
  ∃ under e w ret k' d', k.volume.fatWrite x.file.fileEntry x.file.parentEntry d.offset.toNat buf = some (under, e, w) ∧
    k.sysWrite fd buf = .ok (ret, k') ∧ k'.slotAt c fd = some d' ∧
    Reports under ret buf.length d.offset.toNat d'.offset.toNat

/-- The driver transfers `under` bytes, up to a position that 32 bits hold. -/
def Transfers (offset : Nat) (under : Int) : Prop := 0 ≤ under ∧ offset + under < 2 ^ 32

private theorem readLoop_length {v : Volume} {n cluster clusterOffset size : Nat} {buffer bytes : List UInt8}
    (h : v.readLoop n cluster clusterOffset size buffer = some bytes) : bytes.length ≤ size := by
  induction n generalizing cluster clusterOffset size buffer bytes with
  | zero =>
    rw [Fat.Volume.readLoop] at h
    split at h
    · cases h
      exact Nat.zero_le size
    · cases h
  | succ n ih =>
    rw [Fat.Volume.readLoop] at h
    split at h
    · cases h
      exact Nat.zero_le size
    simp only [Option.bind_eq_bind, Option.bind_eq_some_iff] at h
    obtain ⟨loaded, -, h⟩ := h
    split at h
    · rename_i hless
      simp only [Option.bind_eq_some_iff] at h
      obtain ⟨y, -, rest, hrest, h⟩ := h
      cases h
      have := ih hrest
      rw [List.length_append, List.length_take]
      omega
    · cases h
      rw [List.length_take]
      omega

private theorem bmod_le (n : Nat) : Int.bmod n (2 ^ 32) ≤ n := by
  rw [Int.bmod_def]
  split <;> omega

/-- `fat_read` returns no more bytes than it was asked for. -/
private theorem fatRead_le {v : Volume} {file : DirEntry} {offset size : Nat} {ret : Int} {bytes : List UInt8}
    (h : v.fatRead file offset size = some (ret, bytes)) : ret ≤ size := by
  unfold Fat.Volume.fatRead at h
  split at h
  · cases h
    omega
  split at h
  · cases h
    omega
  rename_i hoffset
  dsimp only at h
  generalize hcut : (if file.fileSize.toNat < (offset + size) % 2 ^ 32 then file.fileSize.toNat - offset else size) = cut
    at h
  have hle : cut ≤ size := by
    rw [← hcut]
    split
    · rename_i hlt
      have := Nat.mod_le (offset + size) (2 ^ 32)
      omega
    · exact le_rfl
  split at h
  · cases h
  simp only [Option.bind_eq_bind, Option.bind_eq_some_iff] at h
  obtain ⟨seek, -, h⟩ := h
  cases seek with
  | none =>
    cases h
    omega
  | some cluster =>
    simp only [Option.bind_eq_some_iff] at h
    obtain ⟨read, hread, h⟩ := h
    obtain ⟨rfl, -⟩ := Prod.mk.inj (Option.some.inj h)
    have hlength := readLoop_length hread
    have hbmod := bmod_le read.length
    omega

/-- `fat_write` fails or writes all bytes. -/
private theorem fatWrite_le {v w : Volume} {file parentDir e : DirEntry} {offset : Nat} {buf : List UInt8} {ret : Int}
    (h : v.fatWrite file parentDir offset buf = some (ret, e, w)) : -2 ^ 31 ≤ ret ∧ ret ≤ buf.length := by
  have hmin := @Int.le_bmod buf.length (2 ^ 32) (by decide)
  have hmax := bmod_le buf.length
  unfold Fat.Volume.fatWrite Fat.Volume.fatWriteWith at h
  split at h
  · cases h
    omega
  dsimp only at h
  split at h
  · cases h
  simp only [Option.bind_eq_bind, Option.bind_eq_some_iff] at h
  obtain ⟨⟨r, file', u⟩, -, h⟩ := h
  dsimp only at h
  split at h
  · cases h
    omega
  simp only [Option.bind_eq_some_iff] at h
  obtain ⟨seek, -, h⟩ := h
  cases seek with
  | none =>
    cases h
    omega
  | some cluster =>
    simp only [Option.bind_eq_some_iff] at h
    obtain ⟨u', -, h⟩ := h
    obtain ⟨rfl, -⟩ := Prod.mk.inj (Option.some.inj h)
    exact ⟨by omega, hmax⟩

/-- The offset after a transfer. -/
theorem toNat_add_ofInt (offset : UInt32) {under : Int} (hnonneg : 0 ≤ under) (hle : under < 2 ^ 32) :
    ((offset + UInt32.ofInt under).toNat : Int) = offset.toNat + under ↔ offset.toNat + under < 2 ^ 32 := by
  have hlt := offset.toNat_lt
  rw [UInt32.toNat_add, UInt32.ofInt, UInt32.toNat_ofNat']
  omega

/-- Descriptors 0 and 2 are refused by `_write` before it looks at the table. -/
private theorem OpenFile.sysWrite_refused (h : k.OpenFile c fd g d x) (hfd : fd = 0 ∨ fd = 2) (buf : List UInt8) :
    k.sysWrite fd buf = .ok (-EBADF, k) := by
  have hone : ¬(k.manager.currentProcess ≠ none ∧ (fd : Int) = 1) := by omega
  have hrefused : (fd : Int) ∈ ([0, 2] : List Int) := by
    rcases hfd with rfl | rfl <;> decide
  have hslot : k.usedSlot [0, 2] fd = .ok (.error (-EBADF)) := by
    simp only [usedSlot, h.current, hrefused, true_or, ↓reduceIte]
  rw [Kernel.sysWrite, if_neg hone, hslot]
  rfl

/-- `_read` reports what `fat_read` returned exactly when that is no error, and `_write` what `fat_write` returned, where
the offset does not wrap around; below descriptor 3 `_write` does not write to the file. -/
theorem reportsFaithfully_iff (h : k.OpenFile c fd g d x) :
    (∀ count, ReportsRead k c fd d x count ↔ ∃ under bytes,
      k.volume.fatRead x.file.fileEntry d.offset.toNat count.toNat = some (under, bytes) ∧
        Transfers d.offset.toNat under) ∧
    ∀ buf : List UInt8, (fd = 0 ∨ fd = 2 → k.sysWrite fd buf = .ok (-EBADF, k)) ∧
      (3 ≤ fd → buf.length < 2 ^ 32 → (ReportsWrite k c fd d x buf ↔ ∃ under e w,
        k.volume.fatWrite x.file.fileEntry x.file.parentEntry d.offset.toNat buf = some (under, e, w) ∧
          Transfers d.offset.toNat under)) := by
  constructor
  · intro count
    obtain ⟨hsome, -⟩ := h.sysRead count
    constructor
    · rintro ⟨under, bytes, ret, stored, k', d', hcall, hret, hslot', hreports⟩
      refine ⟨under, bytes, hcall, ?_⟩
      obtain ⟨k'', hret', hslot⟩ := hsome under bytes hcall
      rw [hret] at hret'
      obtain ⟨hvalue, rfl⟩ := Prod.mk.inj (Except.ok.inj hret')
      obtain ⟨rfl, -⟩ := Prod.mk.inj (Option.some.inj hvalue)
      rw [hslot] at hslot'
      obtain rfl := Option.some.inj hslot'
      obtain ⟨hmin, hmax⟩ := fatRead_ret hcall
      have hnonneg : 0 ≤ ret := by
        by_contra hneg
        -- the error is added to the offset
        have hsame := (hreports.failure (not_le.1 hneg)).2
        rw [UInt32.toNat_inj] at hsame
        exact toNat_ofInt_ne_zero hmin (not_le.1 hneg) (by simpa using hsame)
      refine ⟨hnonneg, (toNat_add_ofInt d.offset hnonneg (by omega)).1 (hreports.success hnonneg).2.2⟩
    · rintro ⟨under, bytes, hcall, hnonneg, hlt⟩
      obtain ⟨k', hret, hslot⟩ := hsome under bytes hcall
      refine ⟨under, bytes, under, bytes, k', _, hcall, hret, hslot, fun _ => ⟨hnonneg, fatRead_le hcall, ?_⟩,
        fun hneg => ?_⟩
      · exact (toNat_add_ofInt d.offset hnonneg (by omega)).2 hlt
      · exact absurd hnonneg (not_le.2 hneg)
  · intro buf
    refine ⟨fun hfd => h.sysWrite_refused hfd buf, fun hfd hbuf => ?_⟩
    obtain ⟨hsome, -⟩ := h.sysWrite hfd buf
    constructor
    · rintro ⟨under, e, w, ret, k', d', hcall, hret, hslot', hreports⟩
      refine ⟨under, e, w, hcall, ?_⟩
      obtain ⟨k'', hret', -, hslot⟩ := hsome under e w hcall
      rw [hret] at hret'
      obtain ⟨rfl, rfl⟩ := Prod.mk.inj (Except.ok.inj hret')
      rw [hslot] at hslot'
      obtain rfl := Option.some.inj hslot'
      have hnonneg : 0 ≤ under := by
        by_contra hneg
        -- the code of a failure is positive
        have hret := (hreports.failure (not_le.1 hneg)).1
        rw [if_pos (not_le.1 hneg)] at hret
        exact absurd hret (by decide)
      have hmax := (fatWrite_le hcall).2
      have hoffset := (hreports.success hnonneg).2.2
      rw [if_neg (not_lt.2 hnonneg), if_neg (not_lt.2 hnonneg)] at hoffset
      exact ⟨hnonneg, (toNat_add_ofInt d.offset hnonneg (by omega)).1 hoffset⟩
    · rintro ⟨under, e, w, hcall, hnonneg, hlt⟩
      obtain ⟨k', hret, -, hslot⟩ := hsome under e w hcall
      have hmax := (fatWrite_le hcall).2
      rw [if_neg (not_lt.2 hnonneg)] at hret hslot
      refine ⟨under, e, w, under, k', _, hcall, hret, hslot, fun _ => ⟨hnonneg, hmax, ?_⟩, fun hneg => ?_⟩
      · exact (toNat_add_ofInt d.offset hnonneg (by omega)).2 hlt
      · exact absurd hnonneg (not_le.2 hneg)

/-! ### A full disk -/

/-- The first process opens the file of four bytes on a disk without a free cluster. -/
private theorem open_smallFile : ∃ v k₀ k k' d x, boot v = .ok k₀ ∧ Machine.Run exec (fun _ _ => True) k₀ startup k ∧
    k.perform (.open (fun _ _ => 0) [Fat.slash, 0x61] O_RDWR) = .ok (some ((3 : Nat) : Int), k') ∧
    k'.OpenFile 10 3 6 d x ∧ d.offset = 0 ∧ x.file.fileEntry.fileSize = 4 ∧
    ((k'.volume.fatRead x.file.fileEntry 0 4).map Prod.fst = some 4) ∧
    (k'.volume.fatWrite x.file.fileEntry x.file.parentEntry 0 (List.replicate 600 1)).map Prod.fst = some (-1) := by
  have hrun : ((Fat.fatInit (some fun _ => 0) (Fat.filledDisk 0xFFF7)).bind fun mounted => mounted.bind fun v =>
      (startup.foldlM exec ⟨Manager.boot, Vector.ofFn fun g => bootEntry g, v⟩).bind fun k =>
        (k.perform (.open (fun _ _ => 0) [Fat.slash, 0x61] O_RDWR)).toOption.bind fun r =>
          (r.2.slotAt 10 3).bind fun d => r.2.globalFdTable[6]?.map fun x =>
            decide (r.1 = some 3 ∧ r.2.manager.currentProcess = some 10 ∧ d.isUsed = true ∧
              hasFlag d.flags O_DIRECTORY = false ∧ d.globalFd = some 6 ∧ x.read = some .fatFs ∧ d.offset = 0 ∧
              x.file.fileEntry.fileSize = 4 ∧
              (r.2.volume.fatRead x.file.fileEntry 0 4).map Prod.fst = some 4 ∧
              (r.2.volume.fatWrite x.file.fileEntry x.file.parentEntry 0 (List.replicate 600 1)).map Prod.fst =
                some (-1))) = some true := by
    decide +kernel
  simp only [Option.bind_eq_some_iff, Option.map_eq_some_iff, decide_eq_true_eq] at hrun
  obtain ⟨_, -, v, rfl, k, hk, ⟨r, k'⟩, hopen, d, hd, x, hx, rfl, hcurrent, hused, hfile, hglobal, hread, hoffset, hsize,
    hfour, hfull⟩ := hrun
  exact ⟨v, _, k, k', d, x, boot_eq v, Machine.run_iff_foldlM.2 hk, eq_ok_of_toOption hopen,
    ⟨hcurrent, hd, hused, hfile, hglobal, hx, hread⟩, hoffset, hsize, Option.map_eq_some_iff.2 hfour,
    Option.map_eq_some_iff.2 hfull⟩

/-- A write that finds no cluster returns 11. -/
theorem not_reportsFaithfully : ∃ v k₀ k k' d x, boot v = .ok k₀ ∧ Machine.Run exec (fun _ _ => True) k₀ startup k ∧
    k.perform (.open (fun _ _ => 0) [Fat.slash, 0x61] O_RDWR) = .ok (some ((3 : Nat) : Int), k') ∧
    k'.OpenFile 10 3 6 d x ∧
    (k'.volume.fatWrite x.file.fileEntry x.file.parentEntry d.offset.toNat (List.replicate 600 1)).map Prod.fst =
      some (-1) ∧
    (k'.sysWrite (3 : Nat) (List.replicate 600 1)).toOption.map Prod.fst = some 11 ∧
    ¬ReportsWrite k' 10 3 d x (List.replicate 600 1) := by
  obtain ⟨v, k₀, k, k', d, x, h₀, hrun, hopen, hfile, hoffset, -, -, hfull⟩ := open_smallFile
  rw [show (0 : Nat) = d.offset.toNat by rw [hoffset]; rfl] at hfull
  obtain ⟨⟨_, e, w⟩, hcall, rfl⟩ := Option.map_eq_some_iff.1 hfull
  obtain ⟨k₁, hret, -⟩ := (hfile.sysWrite le_rfl (List.replicate 600 1)).1 _ _ _ hcall
  refine ⟨v, k₀, k, k', d, x, h₀, hrun, hopen, hfile, hfull, ?_, ?_⟩
  · rw [hret]
    rfl
  · rintro ⟨under, e', w', ret, k₂, d', hcall', hret', -, hreports⟩
    rw [hcall] at hcall'
    obtain ⟨rfl, -⟩ := Prod.mk.inj (Option.some.inj hcall')
    rw [hret] at hret'
    obtain ⟨rfl, -⟩ := Prod.mk.inj (Except.ok.inj hret')
    exact absurd (hreports.failure (by decide)).1 (by decide)

/-- A read of the whole file. -/
theorem reportsRead_smallFile : ∃ v k₀ k k' d x, boot v = .ok k₀ ∧ Machine.Run exec (fun _ _ => True) k₀ startup k ∧
    k.perform (.open (fun _ _ => 0) [Fat.slash, 0x61] O_RDWR) = .ok (some ((3 : Nat) : Int), k') ∧
    k'.OpenFile 10 3 6 d x ∧ ReportsRead k' 10 3 d x 4 := by
  obtain ⟨v, k₀, k, k', d, x, h₀, hrun, hopen, hfile, hoffset, -, hfour, -⟩ := open_smallFile
  obtain ⟨⟨under, bytes⟩, hcall, hunder⟩ := Option.map_eq_some_iff.1 hfour
  refine ⟨v, k₀, k, k', d, x, h₀, hrun, hopen, hfile, ?_⟩
  refine ((reportsFaithfully_iff hfile).1 4).2 ⟨under, bytes, ?_, ?_⟩
  · rw [hoffset]
    exact hcall
  · dsimp only at hunder
    rw [hoffset, hunder, Transfers]
    decide

end Kernel

end DBolOS.Vfs
