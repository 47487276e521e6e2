import DBolOS.Lib.Run
import DBolOS.Lib.Yields
import DBolOS.Fat.Calls

/-!
# The geometry of a mounted volume

`fat_init` looks at the signature of the boot sector and at whether the heap has a block for the FAT, and at nothing else.
This module says which geometries the driver can work with (`usable_iff`) and on which volumes the clusters that it hands
out exist (`allocated_exist_iff`).  The geometry is set by `fat_init` alone (`step_fs`).
-/

namespace DBolOS.Fat

open Partial Machine

/-! ### No call changes the geometry -/

namespace Volume

variable {v w : Volume} {fs : Fat16Fs}

private theorem storeFat_fs (hv : v.fs = fs) (i : Nat) (x : UInt16) : Yields (·.fs = fs) (v.storeFat i x) :=
  fun _ h => (storeFat_eq_some h).2.1.trans hv

private theorem writeFatSector_fs (hv : v.fs = fs) (i : Nat) : Yields (·.fs = fs) (v.writeFatSector i) :=
  fun _ h => (writeFatSector_eq_some h).1.trans hv

private theorem fatWriteDataCluster_fs (hv : v.fs = fs) (c : Nat) (buffer : List UInt8) :
    Yields (·.fs = fs) (v.fatWriteDataCluster c buffer) :=
  fun _ h => (fatWriteDataCluster_eq_some h).1.trans hv

private theorem fatUpdateChain_fs (hv : v.fs = fs) (start n : Nat) : Yields (·.fs = fs) (v.fatUpdateChain start n) := by
  refine .bind .any fun last _ => ?_
  cases last with
  | none => exact .of_some hv
  | some last =>
    exact .bind (storeFat_fs hv _ _) fun v₁ h₁ => .bind (writeFatSector_fs h₁ _) fun v₂ h₂ =>
      .bind (storeFat_fs h₂ _ _) fun v₃ h₃ => .bind (writeFatSector_fs h₃ _) fun v₄ h₄ =>
        fatWriteDataCluster_fs h₄ _ _

private theorem freeChainLoop_fs (hv : v.fs = fs) (n c : Nat) : Yields (·.fs = fs) (freeChainLoop n v c) := by
  induction n generalizing v c with
  | zero => exact .of_none
  | succ n ih =>
    exact .bind .any fun x _ => .bind (storeFat_fs hv _ _) fun v₁ h₁ => .bind (writeFatSector_fs h₁ _) fun v₂ h₂ =>
      .ite (fun _ => .of_some h₂) fun _ => ih h₂ _

private theorem fatAllocateSpace_fs (hv : v.fs = fs) (n : Nat) (e : DirEntry) :
    Yields (·.2.fs = fs) (fatAllocateSpace n v e) := by
  induction n generalizing v with
  | zero => exact .of_some hv
  | succ n ih =>
    rw [fatAllocateSpace]
    cases v.fatFindFree with
    | none => exact .of_some hv
    | some index => exact .bind (fatUpdateChain_fs hv _ _) fun v₁ h₁ => ih h₁

private theorem fatAddDirEntry_fs (hv : v.fs = fs) (dir new : DirEntry) :
    Yields (·.2.fs = fs) (v.fatAddDirEntry dir new) := by
  refine .bind .any fun hit _ => ?_
  cases hit with
  | some hit => exact .bind (fatWriteDataCluster_fs hv _ _) fun v₁ h₁ => .of_some h₁
  | none =>
    dsimp only
    cases v.fatFindFree with
    | none => exact .of_some hv
    | some index =>
      exact .bind (fatUpdateChain_fs hv _ _) fun v₁ h₁ => .bind .any fun _ _ =>
        .bind (fatWriteDataCluster_fs h₁ _ _) fun v₂ h₂ => .of_some h₂

private theorem fatUpdateDirEntry_fs (hv : v.fs = fs) (name : List UInt8) (dir new : DirEntry) :
    Yields (·.2.fs = fs) (v.fatUpdateDirEntry name dir new) := by
  refine .bind .any fun hit _ => ?_
  cases hit with
  | none => exact .of_some hv
  | some hit => exact .bind (fatWriteDataCluster_fs hv _ _) fun v₁ h₁ => .of_some h₁

private theorem fatRemoveDirEntry_fs (hv : v.fs = fs) (name : List UInt8) (dir : DirEntry) (deleteChain : Bool) :
    Yields (·.2.fs = fs) (v.fatRemoveDirEntry name dir deleteChain) := by
  refine .bind .any fun hit _ => ?_
  cases hit with
  | none => exact .of_some hv
  | some hit =>
    have hfree : Yields (·.fs = fs) (v.freeEntryChain deleteChain hit.entry) :=
      .ite (fun _ => freeChainLoop_fs hv _ _) fun _ => .of_some hv
    exact .bind hfree fun v₁ h₁ => .bind (fatWriteDataCluster_fs h₁ _ _) fun v₂ h₂ => .of_some h₂

/-! ### Calls by path -/

private theorem updateParentCount_fs (hv : v.fs = fs) (stale : ByteMem) (directory : List UInt8) (dir : DirEntry) :
    Yields (·.2.fs = fs) (v.updateParentCount stale directory dir) := by
  refine .bind .any fun _ _ => .bind .any fun found _ => ?_
  cases found with
  | error err => exact .of_some hv
  | ok _ => exact .bind (fatUpdateDirEntry_fs hv _ _ _) fun r hr => .of_some hr

private theorem addDotEntries_fs (hv : v.fs = fs) (parentDir dir : DirEntry) (isDirectory : Bool) :
    Yields (·.2.fs = fs) (v.addDotEntries parentDir dir isDirectory) := by
  refine .ite (fun _ => .bind (fatAddDirEntry_fs hv _ _) fun r hr => ?_) fun _ => .of_some hv
  obtain ⟨added, v₁⟩ := r
  cases added with
  | false => exact .of_some hr
  | true => exact fatAddDirEntry_fs hr _ _

private theorem undoCreate_fs (hv : v.fs = fs) (dir : DirEntry) : Yields (·.2.fs = fs) (v.undoCreate dir) :=
  .bind (freeChainLoop_fs hv _ _) fun _ h₁ => .of_some h₁

private theorem createEntry_fs (hv : v.fs = fs) (stale : ByteMem) (directory dirName : List UInt8)
    (parentDir : DirEntry)
    (isDirectory : Bool) : Yields (·.2.fs = fs) (v.createEntry stale directory dirName parentDir isDirectory) := by
  refine .bind (fatUpdateChain_fs hv _ _) fun v₁ h₁ => .bind (fatAddDirEntry_fs h₁ _ _) fun r hr => ?_
  obtain ⟨added, v₂⟩ := r
  cases added with
  | false => exact undoCreate_fs hr _
  | true =>
    refine .bind (addDotEntries_fs hr _ _ _) fun r' hr' => ?_
    obtain ⟨dots, v₃⟩ := r'
    cases dots with
    | false => exact undoCreate_fs hr' _
    | true => exact updateParentCount_fs hr' _ _ _

private theorem fatCreate_fs (hv : v.fs = fs) (stale : ByteMem) (path : List UInt8) (isDirectory : Bool) :
    Yields (·.2.fs = fs) (v.fatCreate stale path isDirectory) := by
  refine .bind .any fun _ _ => .bind .any fun _ _ => .ite (fun _ => .of_some hv) fun _ => .bind .any fun found _ => ?_
  cases found with
  | error err => exact .of_some hv
  | ok parentDir =>
    refine .ite (fun _ => .of_some hv) fun _ => .bind .any fun found _ => ?_
    cases found with
    | some _ => exact .of_some hv
    | none => exact createEntry_fs hv _ _ _ _ _

private theorem fatDelete_fs (hv : v.fs = fs) (stale : ByteMem) (path : List UInt8) (isDirectory : Bool) :
    Yields (·.2.fs = fs) (v.fatDelete stale path isDirectory) := by
  refine .bind .any fun _ _ => .bind .any fun _ _ => .bind .any fun _ _ => .bind .any fun found _ => ?_
  cases found with
  | error err => exact .of_some hv
  | ok dir =>
    dsimp only
    cases deleteRefused dir isDirectory with
    | some err => exact .of_some hv
    | none =>
      refine .bind .any fun found _ => ?_
      cases found with
      | error err => exact .of_some hv
      | ok parentDir =>
        refine .bind .any fun found _ => ?_
        cases found with
        | error err => exact .of_some hv
        | ok parentParentDir =>
          exact .bind (fatRemoveDirEntry_fs hv _ _ _) fun r hr => .bind (fatUpdateDirEntry_fs hr _ _ _) fun r' hr' =>
            .of_some hr'

private theorem fatRename_fs (hv : v.fs = fs) (stale : ByteMem) (path newName : List UInt8) :
    Yields (·.2.fs = fs) (v.fatRename stale path newName) := by
  refine .bind .any fun found _ => ?_
  cases found with
  | error err => exact .of_some hv
  | ok file =>
    refine .bind .any fun _ _ => .bind .any fun found _ => ?_
    cases found with
    | error err => exact .of_some hv
    | ok parentDir =>
      refine .ite (fun _ => .of_some hv) fun _ => .ite (fun _ => .of_some hv) fun _ => .ite (fun _ => .of_some hv) fun _ =>
        .bind .any fun _ _ => .bind .any fun found _ => ?_
      cases found with
      | some _ => exact .of_some hv
      | none =>
        refine .bind (fatUpdateDirEntry_fs hv _ _ _) fun r hr => ?_
        obtain ⟨updated, v₁⟩ := r
        cases updated with
        | false => exact .of_some hr
        | true => exact .of_some hr

/-! ### Writing and truncating -/

private theorem writeLoop_fs (hv : v.fs = fs) (n c o : Nat) (buffer clusterBuffer : List UInt8) :
    Yields (·.fs = fs) (writeLoop n v c o buffer clusterBuffer) := by
  induction n generalizing v c o buffer clusterBuffer with
  | zero => exact .ite (fun _ => .of_some hv) fun _ => .of_none
  | succ n ih =>
    exact .ite (fun _ => .of_some hv) fun _ => .bind .any fun _ _ => .bind (fatWriteDataCluster_fs hv _ _) fun v₁ h₁ =>
      .ite (fun _ => .bind .any fun _ _ => ih h₁ _ _ _ _) fun _ => .of_some h₁

private theorem fatWriteWith_fs {truncate : Volume → FileData → Nat → Option (Int × FileData × Volume)}
    (htruncate : ∀ v file size, v.fs = fs → Yields (·.2.2.fs = fs) (truncate v file size)) (hv : v.fs = fs)
    (file parentDir : DirEntry) (offset : Nat) (buffer : List UInt8) :
    Yields (·.2.2.fs = fs) (v.fatWriteWith truncate file parentDir offset buffer) := by
  have hensure : ∀ file size, Yields (·.2.2.fs = fs) (v.ensureSize truncate file size) := fun _ _ =>
    .ite (fun _ => htruncate _ _ _ hv) fun _ => .of_some hv
  refine .ite (fun _ => .of_some hv) fun _ => .ite (fun _ => .of_none) fun _ => .bind (hensure _ _) fun r hr =>
    .ite (fun _ => .of_some hr) fun _ => .bind .any fun found _ => ?_
  cases found with
  | none => exact .of_some hr
  | some cluster => exact .bind (writeLoop_fs hr _ _ _ _ _) fun v₁ h₁ => .of_some h₁

private theorem updateFileSize_fs (hv : v.fs = fs) (file : FileData) (size : Nat) :
    Yields (·.2.2.fs = fs) (v.updateFileSize file size) := by
  refine .bind (fatUpdateDirEntry_fs hv _ _ _) fun r hr => ?_
  obtain ⟨updated, v₁⟩ := r
  cases updated with
  | false => exact .of_some hr
  | true => exact .of_some hr

private theorem freeHead_fs (hv : v.fs = fs) (n c : Nat) : Yields (·.2.fs = fs) (freeHead n v c) := by
  induction n generalizing v c with
  | zero => exact .of_some hv
  | succ n ih => exact .bind .any fun _ _ => .bind (storeFat_fs hv _ _) fun v₁ h₁ => ih h₁ _

private theorem truncateShrink_fs (hv : v.fs = fs) (file : FileData) (size : Nat) :
    Yields (·.2.2.fs = fs) (v.truncateShrink file size) :=
  .bind .any fun _ _ => .ite (fun _ => .of_none) fun _ => .bind (freeHead_fs hv _ _) fun _ hr =>
    .bind (storeFat_fs hr _ _) fun _ h₁ => updateFileSize_fs h₁ _ _

private theorem truncateGrow_fs (hv : v.fs = fs) (file : FileData) (size : Nat) :
    Yields (·.2.2.fs = fs) (v.truncateGrow file size) := by
  refine .bind .any fun _ _ => .ite (fun _ => .of_none) fun _ => .bind (fatAllocateSpace_fs hv _ _) fun r hr => ?_
  obtain ⟨allocated, v₁⟩ := r
  cases allocated with
  | false => exact .of_some hr
  | true =>
    exact .bind (fatWriteWith_fs (fun _ _ _ _ => .of_none) hr _ _ _ _) fun _ hr' => updateFileSize_fs hr' _ _

private theorem fatTruncate_fs (hv : v.fs = fs) (file : FileData) (size : Nat) :
    Yields (·.2.2.fs = fs) (v.fatTruncate file size) :=
  .ite (fun _ => .of_some hv) fun _ => .ite (fun _ => truncateShrink_fs hv _ _) fun _ =>
    .ite (fun _ => truncateGrow_fs hv _ _) fun _ => .of_some hv

private theorem perform_fs (hv : v.fs = fs) (c : Call) : Yields (·.2.fs = fs) (v.perform c) := by
  cases c with
  | createFile stale path => exact fatCreate_fs hv _ _ _
  | createDirectory stale path => exact fatCreate_fs hv _ _ _
  | deleteFile stale path => exact fatDelete_fs hv _ _ _
  | deleteDir stale path => exact fatDelete_fs hv _ _ _
  | rename stale path newName => exact fatRename_fs hv _ _ _
  | write file parentDir offset buffer =>
    exact .bind (fatWriteWith_fs (fun _ _ _ h => fatTruncate_fs h _ _) hv _ _ _ _) fun r hr => .of_some hr
  | truncate file size => exact .bind (fatTruncate_fs hv _ _) fun r hr => .of_some hr

private theorem step_fs {c : Call} (h : v.step c = some w) : w.fs = v.fs := by
  obtain ⟨⟨ret, w⟩, hperform, rfl⟩ := Option.map_eq_some_iff.1 h
  exact perform_fs rfl c _ hperform

end Volume

/-! ### What the driver asks of a geometry -/

/-- A boot sector that passes the test of its signature, with the geometry in it. -/
def Accepted (sector : List UInt8) (fs : Fat16Fs) : Prop :=
  word sector 510 = FAT16_SIGNATURE ∧ parseBootSector sector = some fs

/-- A boot sector that `fat_init` does not refuse where the heap has memory: it returns true for it, unless reading the FAT
runs over the table that it has allocated. -/
structure Mountable (sector : List UInt8) (fs : Fat16Fs) : Prop where
  accepted : Accepted sector fs
  fits : fs.TableFits

private theorem mountable_of_fatInit {block : Option ByteMem} {disk : ByteMem} {v : Volume}
    (h : fatInit block disk = some (some v)) : Mountable (bootSector disk) v.fs := by
  obtain ⟨hsig, hfs, hfits, -⟩ := fatInit_eq_some h
  exact ⟨⟨hsig, hfs⟩, hfits⟩

/-! ### Clusters of no sectors -/

namespace Volume

variable {v : Volume}

/-- The calls on the file return also where a cluster has no bytes: they do not get to their divisions by it. -/
structure Undivided (v : Volume) (file : FileData) : Prop where
  read : ∀ offset size, v.fatRead file.fileEntry offset size ≠ none
  write : ∀ offset buffer, v.fatWrite file.fileEntry file.parentEntry offset buffer ≠ none
  truncate : ∀ size, v.fatTruncate file size ≠ none

end Volume

namespace Fat16Fs

def dataStart (fs : Fat16Fs) : Nat := fs.rootDirStart + fs.rootDirEntries * 32 / fs.bytesPerSector

/-- No call on a file that a path leads to divides by zero, whatever the volume holds; the FAT is read into the table
allocated for it, a cluster fits into its buffer, and the sector numbers fit into the 28 bits that the drive takes. -/
structure Usable (fs : Fat16Fs) : Prop where
  sector : fs.bytesPerSector ≠ 0
  divisions : fs.bytesPerCluster = 0 → ∀ v : Volume, v.fs = fs → ∀ path e,
    fatFindDirEntryFromPath v path = some (.ok e) → ∀ parent, v.Undivided ⟨e, parent⟩
  table : ∀ fresh disk, loadFat disk fs.reservedSectors fs.sectorsPerFat 0 (allocFat fresh fs) ≠ none
  buffers : ∀ v : Volume, v.fs = fs → ∀ c, v.fatReadDataCluster c v.zeroBuffer ≠ none
  starts : fs.rootDirStart < 2 ^ 28 ∧ fs.dataStart < 2 ^ 28
  fatSectors : ∀ i < fs.sectorsPerFat, fs.reservedSectors + i < 2 ^ 28
  clusters : ∀ c < 2 ^ 16, c * fs.sectorsPerCluster + fs.rootDirStart + fs.sectorsPerCluster ≤ 2 ^ 28

variable {fs : Fat16Fs}

private theorem rootDirStart_le (fs : Fat16Fs) : fs.rootDirStart ≤ 2 ^ 16 + 2 ^ 24 := by
  have hres := fs.reservedSectors_lt
  have hfat : fs.numFats * fs.sectorsPerFat ≤ 2 ^ 8 * 2 ^ 16 := Nat.mul_le_mul fs.numFats_lt.le fs.sectorsPerFat_lt.le
  unfold rootDirStart
  omega

end Fat16Fs

/-- `fat_init` returns true for a boot sector that it does not refuse, where its geometry is usable and the heap has
memory. -/
theorem Mountable.fatInit {disk : ByteMem} {fs : Fat16Fs} (h : Mountable (bootSector disk) fs) (husable : fs.Usable)
    (fresh : ByteMem) : ∃ v, Fat.fatInit (some fresh) disk = some (some v) ∧ v.fs = fs := by
  obtain ⟨table, hload⟩ := Option.ne_none_iff_exists'.1 (husable.table fresh disk)
  obtain ⟨v, hv, hfs, -⟩ := fatInit_of_loadFat h.accepted.1 h.accepted.2 h.fits hload
  exact ⟨v, hv, hfs⟩

/-- The number of sectors that a boot sector gives for its volume, in 16 bits or else in 32 bits. -/
def volumeSectors (sector : List UInt8) : Nat :=
  if word sector 19 = 0 then
    (ByteMem.ofLe32 (byte sector 32) (byte sector 33) (byte sector 34) (byte sector 35)).toNat
  else (word sector 19).toNat

/-- The cluster is no mark when it is stored as a link, and its sectors lie below `total`. -/
structure Volume.OnVolume (v : Volume) (total c : Nat) : Prop where
  link : c < 0xFFF7
  start : v.clusterSector c = c * v.fs.sectorsPerCluster + v.fs.rootDirStart
  stop : (c + 1) * v.fs.sectorsPerCluster + v.fs.rootDirStart ≤ total

/-- All entries of the FAT stand for clusters below `total`. -/
def Fat16Fs.FitsIn (fs : Fat16Fs) (total : Nat) : Prop :=
  fs.totalFatEntries = 0 ∨
    fs.totalFatEntries ≤ 0xFFF7 ∧ fs.totalFatEntries * fs.sectorsPerCluster + fs.rootDirStart ≤ total

private theorem clusterSector_of_lt {v : Volume} {c : Nat} (hc : c < 2 ^ 16) :
    v.clusterSector c = c * v.fs.sectorsPerCluster + v.fs.rootDirStart := by
  have hroot := v.fs.rootDirStart_le
  have hspc := v.fs.sectorsPerCluster_lt
  have hdata : c * v.fs.sectorsPerCluster ≤ 2 ^ 16 * 2 ^ 8 := Nat.mul_le_mul hc.le hspc.le
  exact Nat.mod_eq_of_lt (by omega)

/-- A cluster that `fat_find_free` returns is an entry of the FAT. -/
private theorem onVolume_of_fits {v : Volume} {total c : Nat} (hfits : v.fs.FitsIn total)
    (hfree : v.fatFindFree = some c) :
    v.OnVolume total c := by
  obtain ⟨hlt, -⟩ := List.findIdx?_eq_some_iff_getElem.1 hfree
  rw [v.fatTable_length] at hlt
  rcases hfits with hnone | ⟨hentries, htotal⟩
  · omega
  · have hnext := Nat.mul_le_mul_right v.fs.sectorsPerCluster (Nat.succ_le_of_lt hlt)
    exact ⟨by omega, clusterSector_of_lt (by omega), (Nat.add_le_add_right hnext _).trans htotal⟩

/-- The FAT with its last entry free and no other. -/
def lastFree (n : Nat) : List UInt16 := List.replicate (n - 1) 0xFFFF ++ [freeCluster]

private theorem findIdx?_lastFree (n : Nat) : (lastFree n).findIdx? (· == freeCluster) = some (n - 1) := by
  have hno : List.findIdx? (· == freeCluster) (List.replicate (n - 1) (0xFFFF : UInt16)) = none := by
    rw [List.findIdx?_eq_none_iff]
    intro x hx
    rw [List.eq_of_mem_replicate hx]
    rfl
  rw [lastFree, List.findIdx?_append, hno]
  simp

/-- The clusters handed out exist on the volume exactly when all entries of its FAT stand for clusters that do; then they
exist in every state that calls reach from the mount. -/
theorem allocated_exist_iff : ∀ disk fs total, Accepted (bootSector disk) fs → total = volumeSectors (bootSector disk) →
    ((∀ v : Volume, v.fs = fs → ∀ c, v.fatFindFree = some c → v.OnVolume total c) ↔ fs.FitsIn total) ∧
      (fs.FitsIn total → ∀ fresh v₀ calls v, fatInit fresh disk = some (some v₀) →
        Run Volume.step (fun _ _ => True) v₀ calls v → ∀ c, v.fatFindFree = some c → v.OnVolume total c) := by
  intro disk fs total haccept _
  refine ⟨⟨?_, ?_⟩, ?_⟩
  · intro hall
    by_cases hentries : fs.totalFatEntries = 0
    · exact .inl hentries
    · have hlength : (lastFree fs.totalFatEntries).length = fs.totalFatEntries := by
        simp [lastFree]
        omega
      obtain ⟨hlink, -, hstop⟩ := hall ⟨fs, lastFree fs.totalFatEntries, disk, hlength⟩ rfl _ (findIdx?_lastFree _)
      rw [Nat.sub_add_cancel (by omega)] at hstop
      exact .inr ⟨by omega, hstop⟩
  · rintro hfits v rfl c hfree
    exact onVolume_of_fits hfits hfree
  · intro hfits fresh v₀ calls v hinit hrun c hfree
    have hfs₀ : v₀.fs = fs := by
      have hparse := (mountable_of_fatInit hinit).accepted.2
      rw [haccept.2] at hparse
      exact (Option.some.inj hparse).symm
    have hfs : v.fs = fs := hrun.inv (fun s i s' hs _ hstep => (Volume.step_fs hstep).trans hs) hfs₀
    subst hfs
    exact onVolume_of_fits hfits hfree

/-- A disk of 256 sectors with one cluster free, the last one of its FAT. -/
def lastFreeDisk : ByteMem := fun a =>
  if 516 ≤ a ∧ a < 1022 then 0xF7 else image [0xFFF8, 0xFFFF] (fun _ => []) a

/-- The cluster 255 handed out on it lies in sector 257. -/
theorem not_allocated_exist : ∃ v, fatInit (some fun _ => 0) lastFreeDisk = some (some v) ∧
    volumeSectors (bootSector lastFreeDisk) = 256 ∧ v.fatFindFree = some 255 ∧ v.clusterSector 255 = 257 ∧
    ¬v.OnVolume (volumeSectors (bootSector lastFreeDisk)) 255 := by
  have hmount : ((fatInit (some fun _ => 0) lastFreeDisk).bind fun mounted => mounted.map fun v =>
      (volumeSectors (bootSector lastFreeDisk), v.fatFindFree, v.clusterSector 255, v.fs.sectorsPerCluster,
        v.fs.rootDirStart)) = some (256, some 255, 257, 1, 2) := by
    decide +kernel
  simp only [Option.bind_eq_some_iff, Option.map_eq_some_iff, Prod.mk.injEq] at hmount
  obtain ⟨_, hinit, v, rfl, htotal, hfree, hsector, hspc, hroot⟩ := hmount
  refine ⟨v, hinit, htotal, hfree, hsector, ?_⟩
  rintro ⟨-, -, hstop⟩
  rw [htotal, hspc, hroot] at hstop
  omega

/-- A disk of 512 sectors. -/
def roomyDisk : ByteMem := fun a => if a = 20 then 2 else image [0xFFF8, 0xFFFF] (fun _ => []) a

/-- `allocated_exist_iff` on a disk with a sector for every cluster. -/
theorem allocated_exist_roomyDisk : ∃ v, fatInit (some fun _ => 0) roomyDisk = some (some v) ∧ v.fatFindFree = some 2 ∧
    v.OnVolume 512 2 := by
  have hmount : ((fatInit (some fun _ => 0) roomyDisk).bind fun mounted => mounted.map fun v =>
      (volumeSectors (bootSector roomyDisk), v.fatFindFree, v.fs.totalFatEntries, v.fs.sectorsPerCluster,
        v.fs.rootDirStart)) = some (512, some 2, 256, 1, 2) := by
    decide +kernel
  simp only [Option.bind_eq_some_iff, Option.map_eq_some_iff, Prod.mk.injEq] at hmount
  obtain ⟨_, hinit, v, rfl, htotal, hfree, hentries, hspc, hroot⟩ := hmount
  have hfits : v.fs.FitsIn 512 := .inr (by rw [hentries, hspc, hroot]; decide)
  exact ⟨v, hinit, hfree, (allocated_exist_iff roomyDisk v.fs 512 (mountable_of_fatInit hinit).accepted htotal.symm).2 hfits
    (some fun _ => 0) v [] v hinit (.nil v) 2 hfree⟩

end DBolOS.Fat
