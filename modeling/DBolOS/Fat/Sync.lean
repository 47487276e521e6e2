import DBolOS.Lib.Run
import DBolOS.Fat.Calls

/-!
# The FAT in memory and on disk

Every function of the file system stores into `fat_table` and writes the sector of the entry back, except the branch of
`fat_truncate` for a smaller size, which changes the table only.  A function that writes back is `WritesBack`; a call is
one whenever it frees or cuts no cluster of a chain, and from such calls alone runs keep the two FATs equal.
-/

namespace DBolOS.Fat

open ByteMem Machine Volume

/-! ### Reading the FAT back -/

/-- Geometries whose FAT sectors are neither the boot sector nor in the data area, for every cluster the FAT can
name. -/
structure Separated (fs : Fat16Fs) : Prop where
  sector : fs.bytesPerSector = 512
  reserved : 1 ≤ fs.reservedSectors
  fats : 1 ≤ fs.numFats
  range : fs.totalFatEntries * fs.sectorsPerCluster + fs.rootDirStart ≤ 2 ^ 29

namespace Volume

/-- The FAT sectors on disk. -/
def fatSectors (v : Volume) : List UInt8 := ataRead v.disk v.fs.reservedSectors v.fs.sectorsPerFat

/-- The FAT on disk is `fat_table`. -/
def Synced (v : Volume) : Prop := v.fatSectors = v.fatTable.flatMap le16

/-- `fat_init` mounts the disk of `v` again with the same geometry and table. -/
def Remounts (v : Volume) : Prop :=
  ∀ fresh, ∃ w, fatInit (some fresh) v.disk = some (some w) ∧ w.fs = v.fs ∧ w.fatTable = v.fatTable

/-- The boot sector is the one `v` was mounted from. -/
def Mounted (v : Volume) : Prop :=
  word (bootSector v.disk) 510 = FAT16_SIGNATURE ∧ parseBootSector (bootSector v.disk) = some v.fs

end Volume

private theorem fatEnd_lt (fs : Fat16Fs) : fs.reservedSectors + fs.sectorsPerFat < 2 ^ 17 := by
  have h1 := fs.reservedSectors_lt
  have h2 := fs.sectorsPerFat_lt
  omega

/-- The loop of `fat_init` leaves the sectors it read in the table, behind the ones it held. -/
theorem loadFat_eq (disk : ByteMem) (reserved : Nat) {len n i : Nat} (table : Buffer len)
    (hres : reserved + i + n < 2 ^ 29) (hlen : 512 * (i + n) ≤ len)
    (htake : table.1.take (512 * i) = disk.readBytes (512 * reserved) (512 * i)) :
    ∃ table', loadFat disk reserved n i table = some table' ∧
      table'.1.take (512 * (i + n)) = disk.readBytes (512 * reserved) (512 * (i + n)) := by
  induction n generalizing i table with
  | zero => exact ⟨table, rfl, htake⟩
  | succ n ih =>
    have hsector : (ataRead disk (reserved + i) 1).length = 512 := length_readBytes _ _ _
    have hfit : 512 * i + (ataRead disk (reserved + i) 1).length ≤ table.1.length := by
      rw [hsector, table.2]
      omega
    simp only [loadFat, hfit, ↓reduceDIte]
    rw [Nat.add_comm n, ← Nat.add_assoc i]
    apply ih _ (by omega) (by omega)
    simp only [splice]
    have hl : (table.1.take (512 * i) ++ ataRead disk (reserved + i) 1).length = 512 * (i + 1) := by
      rw [List.length_append, hsector, List.length_take, table.2]
      omega
    rw [List.take_append_of_le_length hl.ge, List.take_of_length_le hl.le, htake, ataRead,
      ataAddr_of_lt (by omega), Nat.mul_add 512 reserved, ← readBytes_add, Nat.mul_add 512 i]

/-- The loop fills a buffer of the size of the FAT. -/
private theorem loadFat_whole (disk : ByteMem) (reserved : Nat) {len n : Nat} (table : Buffer len)
    (hres : reserved + n < 2 ^ 29) (hlen : 512 * n = len) :
    ∃ table', loadFat disk reserved n 0 table = some table' ∧ table'.1 = disk.readBytes (512 * reserved) len := by
  obtain ⟨table', hload, htable⟩ := loadFat_eq disk reserved (n := n) (i := 0) table (by omega) (by omega)
    (by simp [readBytes])
  rw [Nat.zero_add, hlen, List.take_of_length_le table'.2.le] at htable
  exact ⟨table', hload, htable⟩

/-- The heap has room for every FAT of sectors of 512 bytes. -/
theorem Separated.tableFits {fs : Fat16Fs} (h : Separated fs) (hspf : 0 < fs.sectorsPerFat) : fs.TableFits := by
  have hlt := fs.sectorsPerFat_lt
  have hheap : 2 ^ 16 * 512 ≤ Kmalloc.KERNEL_HEAP_END - Kmalloc.heapStart := by decide
  rw [Fat16Fs.TableFits, h.sector]
  exact ⟨by omega, (Nat.mul_le_mul_right 512 hlt.le).trans hheap⟩

/-- A synced volume is mounted again as it is. -/
theorem Volume.Synced.remounts {v : Volume} (h : v.Synced) (hgeo : Separated v.fs) (hboot : v.Mounted)
    (hfits : v.fs.TableFits) : v.Remounts := by
  intro fresh
  have hend := fatEnd_lt v.fs
  have hlen : 512 * v.fs.sectorsPerFat = v.fs.sectorsPerFat * v.fs.bytesPerSector := by
    rw [hgeo.sector, Nat.mul_comm]
  obtain ⟨table, hload, htable⟩ :=
    loadFat_whole v.disk v.fs.reservedSectors (allocFat fresh v.fs) (by omega) hlen
  obtain ⟨w, hw, hfs, -, hwords⟩ := fatInit_of_loadFat hboot.1 hboot.2 hfits hload
  have hsectors : table.1 = v.fatTable.flatMap le16 := by
    rw [htable, ← h, Volume.fatSectors, ataRead, ataAddr_of_lt (by omega), ← hlen]
  refine ⟨w, hw, hfs, ?_⟩
  rw [hwords, hsectors, words16_flatMap_le16]

/-- A volume is synced when it is mounted. -/
theorem synced_of_fatInit {block : Option ByteMem} {disk : ByteMem} {v : Volume} (h : fatInit block disk = some (some v))
    (hgeo : Separated v.fs) : v.Synced ∧ v.Mounted := by
  obtain ⟨hsig, hfs, -, rfl, fresh, table, -, hload, hwords⟩ := fatInit_eq_some h
  have hend := fatEnd_lt v.fs
  have hlen : 512 * v.fs.sectorsPerFat = v.fs.sectorsPerFat * v.fs.bytesPerSector := by
    rw [hgeo.sector, Nat.mul_comm]
  obtain ⟨table', hload', htable⟩ := loadFat_whole v.disk v.fs.reservedSectors (allocFat fresh v.fs) (by omega) hlen
  rw [hload] at hload'
  cases hload'
  refine ⟨?_, hsig, hfs⟩
  have heven : table.1.length % 2 = 0 := by
    rw [table.2, ← hlen]
    omega
  have hsectors : v.fatSectors = table.1 := by
    rw [htable, Volume.fatSectors, ataRead, ataAddr_of_lt (by omega), ← hlen]
  rw [Volume.Synced, hwords]
  exact hsectors.trans (flatMap_le16_words16 _ heven).symm

/-! ### Stores that reach the disk -/

/-- From `v` to `w` the FAT on disk has followed `fat_table`. -/
structure WritesBack (v w : Volume) : Prop where
  fs : w.fs = v.fs
  synced : v.Synced → w.Synced
  boot : bootSector w.disk = bootSector v.disk

/-- From `v` to `w` only the data area has changed. -/
structure DataOnly (v w : Volume) : Prop where
  fs : w.fs = v.fs
  table : w.fatTable = v.fatTable
  sectors : w.fatSectors = v.fatSectors
  boot : bootSector w.disk = bootSector v.disk

variable {v w u : Volume}

theorem WritesBack.refl (v : Volume) : WritesBack v v := ⟨rfl, id, rfl⟩

theorem WritesBack.trans (h : WritesBack v w) (h' : WritesBack w u) : WritesBack v u :=
  ⟨h'.fs.trans h.fs, h'.synced ∘ h.synced, h'.boot.trans h.boot⟩

private theorem DataOnly.refl (v : Volume) : DataOnly v v := ⟨rfl, rfl, rfl, rfl⟩

private theorem DataOnly.trans (h : DataOnly v w) (h' : DataOnly w u) : DataOnly v u :=
  ⟨h'.fs.trans h.fs, h'.table.trans h.table, h'.sectors.trans h.sectors, h'.boot.trans h.boot⟩

theorem DataOnly.writesBack (h : DataOnly v w) : WritesBack v w where
  fs := h.fs
  synced := by
    intro hv
    rw [Volume.Synced, h.sectors, h.table]
    exact hv
  boot := h.boot

theorem WritesBack.separated (h : WritesBack v w) (hgeo : Separated v.fs) : Separated w.fs := h.fs ▸ hgeo

theorem table_length (hgeo : Separated v.fs) : v.fatTable.length = 256 * v.fs.sectorsPerFat := by
  rw [v.fatTable_length, Fat16Fs.totalFatEntries, hgeo.sector]
  omega

/-- A store followed by the write of its sector. -/
private theorem writesBack_store {i : Nat} {x : UInt16} (hgeo : Separated v.fs) (h1 : v.storeFat i x = some u)
    (h2 : u.writeFatSector i = some w) : WritesBack v w := by
  obtain ⟨hi, hfs, htable, hdisk⟩ := storeFat_eq_some h1
  have hlen := table_length hgeo
  have hend := fatEnd_lt v.fs
  have hres := hgeo.reserved
  have hk : i * 2 / 512 < v.fs.sectorsPerFat := by omega
  obtain ⟨hfs', htable', hwrite⟩ := writeFatSector_eq_some h2
  rw [hfs, hgeo.sector] at hwrite
  obtain ⟨_, hdisk'⟩ := ataWrite_eq_some hwrite
  have hidx : i * 2 / 512 * 512 / 2 = 256 * (i * 2 / 512) := by omega
  rw [hidx, hdisk, htable, ataAddr_of_lt (by omega), Nat.mul_one, show 512 = 2 * 256 from rfl, take_flatMap_le16,
    Nat.mul_add] at hdisk'
  generalize hkdef : i * 2 / 512 = k at hdisk' hk
  refine ⟨hfs'.trans hfs, ?_, ?_⟩
  · intro hv
    have hlen2 : 512 * v.fs.sectorsPerFat = 2 * v.fatTable.length := by omega
    rw [Volume.Synced, Volume.fatSectors, hfs', hfs, htable', htable, hdisk', ataRead, ataAddr_of_lt (by omega), hlen2,
      show 2 * 256 * k = 2 * (256 * k) by omega]
    apply readBytes_write_words (List.length_set ..) (by omega) (List.take_set_of_le (by omega))
      (List.drop_set_of_lt (by omega))
    rw [← hv, Volume.fatSectors, ataRead, ataAddr_of_lt (by omega), hlen2]
  · rw [bootSector, bootSector, hdisk']
    exact readBytes_write_disjoint _ (.inl (by rw [ataAddr_of_lt (by omega)]; omega))

/-! ### Clusters -/

/-- A number that names a cluster: a link or an index of the table. -/
def IsCluster (v : Volume) (c : Nat) : Prop := c < 2 ^ 16 ∨ c < v.fatTable.length

private theorem isCluster_link (v : Volume) (x : UInt16) : IsCluster v x.toNat := .inl x.toNat_lt

/-- The data of a cluster lies behind the FAT and below the end of the disk's address range. -/
theorem clusterSector_eq {c : Nat} (hgeo : Separated v.fs) (hc : IsCluster v c) :
    v.clusterSector c = c * v.fs.sectorsPerCluster + v.fs.rootDirStart ∧ v.clusterSector c < 2 ^ 29 := by
  have hrange := hgeo.range
  rw [← v.fatTable_length] at hrange
  have hspc := v.fs.sectorsPerCluster_lt
  have hres := v.fs.reservedSectors_lt
  have hfat : v.fs.numFats * v.fs.sectorsPerFat ≤ 2 ^ 8 * 2 ^ 16 :=
    Nat.mul_le_mul v.fs.numFats_lt.le v.fs.sectorsPerFat_lt.le
  have hstart : v.fs.rootDirStart < 2 ^ 25 := by
    unfold Fat16Fs.rootDirStart
    omega
  have hlt : c * v.fs.sectorsPerCluster + v.fs.rootDirStart < 2 ^ 29 := by
    rcases hc with hc | hc
    · have : c * v.fs.sectorsPerCluster ≤ 2 ^ 16 * 2 ^ 8 := Nat.mul_le_mul hc.le hspc.le
      omega
    · rcases Nat.eq_zero_or_pos v.fs.sectorsPerCluster with h0 | h0
      · rw [h0]
        omega
      · have := Nat.mul_lt_mul_of_pos_right hc h0
        omega
  unfold Volume.clusterSector
  rw [Nat.mod_eq_of_lt (by omega)]
  exact ⟨rfl, hlt⟩

theorem dataOnly_fatWriteDataCluster {c : Nat} {buffer : List UInt8} (hgeo : Separated v.fs) (hc : IsCluster v c)
    (h : v.fatWriteDataCluster c buffer = some w) : DataOnly v w := by
  obtain ⟨hfs, htable, hwrite⟩ := fatWriteDataCluster_eq_some h
  obtain ⟨_, hdisk⟩ := ataWrite_eq_some hwrite
  obtain ⟨heq, hlt⟩ := clusterSector_eq hgeo hc
  have hres := hgeo.reserved
  have hend := fatEnd_lt v.fs
  have hstart : v.fs.reservedSectors + v.fs.sectorsPerFat ≤ v.clusterSector c := by
    have := Nat.le_mul_of_pos_left v.fs.sectorsPerFat hgeo.fats
    rw [heq, Fat16Fs.rootDirStart]
    omega
  rw [ataAddr_of_lt hlt] at hdisk
  refine ⟨hfs, htable, ?_, ?_⟩
  · rw [Volume.fatSectors, Volume.fatSectors, hfs, hdisk, ataRead, ataRead, ataAddr_of_lt (by omega)]
    exact readBytes_write_disjoint _ (.inl (by omega))
  · rw [bootSector, bootSector, hdisk, ataRead, ataRead, ataAddr_of_lt (by omega)]
    exact readBytes_write_disjoint _ (.inl (by omega))

private theorem isCluster_getIthCluster {start i c : Nat} (hs : IsCluster v start)
    (h : v.getIthCluster start i = some (some c)) : IsCluster v c := by
  induction i generalizing start with
  | zero =>
    simp only [Volume.getIthCluster, Option.some.injEq] at h
    exact h ▸ hs
  | succ i ih =>
    simp only [Volume.getIthCluster, Option.bind_eq_bind, Option.bind_eq_some_iff] at h
    obtain ⟨x, _, h⟩ := h
    split at h
    · cases h
    · exact ih (isCluster_link v x) h

private theorem isCluster_scanClusters {test : DirEntry → Option Bool} {start n i : Nat} {hit : Hit}
    (hs : IsCluster v start)
    (h : v.scanClusters test start n i = some (some hit)) : IsCluster v hit.cluster := by
  induction n generalizing i with
  | zero => cases h
  | succ n ih =>
    simp only [Volume.scanClusters, Option.bind_eq_bind, Option.bind_eq_some_iff] at h
    obtain ⟨oc, hoc, h⟩ := h
    cases oc with
    | none => cases h
    | some c =>
      simp only [Option.bind_eq_some_iff] at h
      obtain ⟨buffer, _, slot, _, h⟩ := h
      cases slot with
      | none => exact ih h
      | some slot =>
        cases h
        exact isCluster_getIthCluster hs hoc

theorem isCluster_scanDir {test : DirEntry → Option Bool} {dir : DirEntry} {hit : Hit}
    (h : v.scanDir test dir = some (some hit)) : IsCluster v hit.cluster :=
  isCluster_scanClusters (isCluster_link v _) h

/-! ### The functions of the FAT -/

theorem writesBack_fatUpdateChain {s n : Nat} (hgeo : Separated v.fs) (h : v.fatUpdateChain s n = some w) :
    WritesBack v w := by
  simp only [Volume.fatUpdateChain, Option.bind_eq_bind, Option.bind_eq_some_iff] at h
  obtain ⟨last, _, h⟩ := h
  cases last with
  | none =>
    cases h
    exact WritesBack.refl v
  | some b =>
    simp only [Option.bind_eq_some_iff] at h
    obtain ⟨v1, h1, v2, h2, v3, h3, v4, h4, h5⟩ := h
    have hlink := writesBack_store hgeo h1 h2
    have hend := writesBack_store (hlink.separated hgeo) h3 h4
    have hlen : n < v4.fatTable.length := by
      obtain ⟨hn, _, htable, _⟩ := storeFat_eq_some h3
      rw [(writeFatSector_eq_some h4).2.1, htable, List.length_set]
      exact hn
    exact (hlink.trans hend).trans
      (dataOnly_fatWriteDataCluster (hend.separated (hlink.separated hgeo)) (.inr hlen) h5).writesBack

private theorem writesBack_freeChainLoop {n c : Nat} (hgeo : Separated v.fs) (h : Volume.freeChainLoop n v c = some w) :
    WritesBack v w := by
  induction n generalizing v c with
  | zero => cases h
  | succ n ih =>
    simp only [Volume.freeChainLoop, Option.bind_eq_bind, Option.bind_eq_some_iff] at h
    obtain ⟨x, _, v1, h1, v2, h2, h⟩ := h
    have hfree := writesBack_store hgeo h1 h2
    split at h
    · cases h
      exact hfree
    · exact hfree.trans (ih (hfree.separated hgeo) h)

private theorem writesBack_fatAllocateSpace {n : Nat} {e : DirEntry} {b : Bool} (hgeo : Separated v.fs)
    (h : Volume.fatAllocateSpace n v e = some (b, w)) : WritesBack v w := by
  induction n generalizing v with
  | zero =>
    cases h
    exact WritesBack.refl _
  | succ n ih =>
    simp only [Volume.fatAllocateSpace] at h
    split at h
    · cases h
      exact WritesBack.refl _
    · simp only [Option.bind_eq_bind, Option.bind_eq_some_iff] at h
      obtain ⟨v1, h1, h⟩ := h
      have hchain := writesBack_fatUpdateChain hgeo h1
      exact hchain.trans (ih (hchain.separated hgeo) h)

/-! ### Directories -/

theorem dataOnly_fatUpdateDirEntry {name : List UInt8} {dir new : DirEntry} {b : Bool} (hgeo : Separated v.fs)
    (h : v.fatUpdateDirEntry name dir new = some (b, w)) : DataOnly v w := by
  simp only [Volume.fatUpdateDirEntry, Option.bind_eq_bind, Option.bind_eq_some_iff] at h
  obtain ⟨hit, hscan, h⟩ := h
  cases hit with
  | none =>
    cases h
    exact DataOnly.refl v
  | some hit =>
    simp only [Option.bind_eq_some_iff] at h
    obtain ⟨v1, h1, h⟩ := h
    cases h
    exact dataOnly_fatWriteDataCluster hgeo (isCluster_scanDir hscan) h1

theorem writesBack_fatAddDirEntry {dir new : DirEntry} {b : Bool} (hgeo : Separated v.fs)
    (h : v.fatAddDirEntry dir new = some (b, w)) : WritesBack v w := by
  simp only [Volume.fatAddDirEntry, Option.bind_eq_bind, Option.bind_eq_some_iff] at h
  obtain ⟨hit, hscan, h⟩ := h
  cases hit with
  | some hit =>
    simp only [Option.bind_eq_some_iff] at h
    obtain ⟨v1, h1, h⟩ := h
    cases h
    exact (dataOnly_fatWriteDataCluster hgeo (isCluster_scanDir hscan) h1).writesBack
  | none =>
    dsimp only at h
    split at h
    · cases h
      exact WritesBack.refl v
    · rename_i n hfree
      simp only [Option.bind_eq_some_iff] at h
      obtain ⟨v1, h1, buffer, _, v2, h2, h⟩ := h
      cases h
      have hchain := writesBack_fatUpdateChain hgeo h1
      have hn : IsCluster v1 n := by
        refine .inr ?_
        rw [v1.fatTable_length, hchain.fs, ← v.fatTable_length]
        exact (List.findIdx?_eq_some_iff_getElem.1 hfree).1
      exact hchain.trans (dataOnly_fatWriteDataCluster (hchain.separated hgeo) hn h2).writesBack

private theorem writesBack_fatRemoveDirEntry {name : List UInt8} {dir : DirEntry} {d b : Bool} (hgeo : Separated v.fs)
    (h : v.fatRemoveDirEntry name dir d = some (b, w)) : WritesBack v w := by
  simp only [Volume.fatRemoveDirEntry, Option.bind_eq_bind, Option.bind_eq_some_iff] at h
  obtain ⟨hit, hscan, h⟩ := h
  cases hit with
  | none =>
    cases h
    exact WritesBack.refl v
  | some hit =>
    simp only [Option.bind_eq_some_iff] at h
    obtain ⟨v1, h1, v2, h2, h⟩ := h
    cases h
    have hfree : WritesBack v v1 := by
      simp only [Volume.freeEntryChain] at h1
      split at h1
      · exact writesBack_freeChainLoop hgeo h1
      · cases h1
        exact WritesBack.refl v
    have hc : IsCluster v1 hit.cluster := by
      rw [IsCluster, v1.fatTable_length, hfree.fs, ← v.fatTable_length]
      exact isCluster_scanDir hscan
    exact hfree.trans (dataOnly_fatWriteDataCluster (hfree.separated hgeo) hc h2).writesBack

/-! ### Creation, deletion, renaming -/

private theorem writesBack_undoCreate {e : DirEntry} {ret : Int} (hgeo : Separated v.fs)
    (h : v.undoCreate e = some (ret, w)) : WritesBack v w := by
  simp only [Volume.undoCreate, Option.bind_eq_bind, Option.bind_eq_some_iff] at h
  obtain ⟨v1, h1, h⟩ := h
  cases h
  exact writesBack_freeChainLoop hgeo h1

private theorem writesBack_updateParentCount {stale : ByteMem} {directory : List UInt8} {dir : DirEntry} {ret : Int}
    (hgeo : Separated v.fs) (h : v.updateParentCount stale directory dir = some (ret, w)) : WritesBack v w := by
  simp only [Volume.updateParentCount, Option.bind_eq_bind, Option.bind_eq_some_iff] at h
  obtain ⟨pp, _, r, _, h⟩ := h
  cases r with
  | error err =>
    cases h
    exact WritesBack.refl v
  | ok ppDir =>
    simp only [Option.bind_eq_some_iff] at h
    obtain ⟨⟨b, v1⟩, h1, h⟩ := h
    cases h
    exact (dataOnly_fatUpdateDirEntry hgeo h1).writesBack

private theorem writesBack_addDotEntries {parent dir : DirEntry} {isDir b : Bool} (hgeo : Separated v.fs)
    (h : v.addDotEntries parent dir isDir = some (b, w)) : WritesBack v w := by
  simp only [Volume.addDotEntries] at h
  split at h
  swap
  · cases h
    exact WritesBack.refl _
  simp only [Option.bind_eq_bind, Option.bind_eq_some_iff] at h
  obtain ⟨⟨b1, v1⟩, h1, h⟩ := h
  have hdot := writesBack_fatAddDirEntry hgeo h1
  cases b1 with
  | false =>
    cases h
    exact hdot
  | true => exact hdot.trans (writesBack_fatAddDirEntry (hdot.separated hgeo) h)

private theorem writesBack_createEntry {stale : ByteMem} {directory dirName : List UInt8} {parent : DirEntry}
    {isDir : Bool} {ret : Int} (hgeo : Separated v.fs)
    (h : v.createEntry stale directory dirName parent isDir = some (ret, w)) : WritesBack v w := by
  simp only [Volume.createEntry, Option.bind_eq_bind, Option.bind_eq_some_iff] at h
  obtain ⟨v1, h1, ⟨b2, v2⟩, h2, h⟩ := h
  have hchain := writesBack_fatUpdateChain hgeo h1
  have hadd := hchain.trans (writesBack_fatAddDirEntry (hchain.separated hgeo) h2)
  cases b2 with
  | false => exact hadd.trans (writesBack_undoCreate (hadd.separated hgeo) h)
  | true =>
    simp only [Option.bind_eq_some_iff] at h
    obtain ⟨⟨b3, v3⟩, h3, h⟩ := h
    have hdots := hadd.trans (writesBack_addDotEntries (hadd.separated hgeo) h3)
    cases b3 with
    | false => exact hdots.trans (writesBack_undoCreate (hdots.separated hgeo) h)
    | true => exact hdots.trans (writesBack_updateParentCount (hdots.separated hgeo) h)

private theorem writesBack_fatCreate {stale : ByteMem} {path : List UInt8} {isDir : Bool} {ret : Int}
    (hgeo : Separated v.fs) (h : v.fatCreate stale path isDir = some (ret, w)) : WritesBack v w := by
  simp only [Volume.fatCreate, Option.bind_eq_bind, Option.bind_eq_some_iff] at h
  obtain ⟨dirName, _, directory, _, h⟩ := h
  split at h
  · cases h
    exact WritesBack.refl v
  · simp only [Option.bind_eq_some_iff] at h
    obtain ⟨r, _, h⟩ := h
    cases r with
    | error err =>
      cases h
      exact WritesBack.refl v
    | ok parent =>
      dsimp only at h
      split at h
      · cases h
        exact WritesBack.refl v
      · simp only [Option.bind_eq_some_iff] at h
        obtain ⟨found, _, h⟩ := h
        cases found with
        | some e =>
          cases h
          exact WritesBack.refl v
        | none => exact writesBack_createEntry hgeo h

private theorem writesBack_deleteEntry {dirName : List UInt8} {parent grandparent : DirEntry} {ret : Int}
    (hgeo : Separated v.fs) (h : v.deleteEntry dirName parent grandparent = some (ret, w)) : WritesBack v w := by
  simp only [Volume.deleteEntry, Option.bind_eq_bind, Option.bind_eq_some_iff] at h
  obtain ⟨⟨b1, v1⟩, h1, ⟨b2, v2⟩, h2, h⟩ := h
  cases h
  have hremove := writesBack_fatRemoveDirEntry hgeo h1
  exact hremove.trans (dataOnly_fatUpdateDirEntry (hremove.separated hgeo) h2).writesBack

private theorem writesBack_fatDelete {stale : ByteMem} {path : List UInt8} {isDir : Bool} {ret : Int}
    (hgeo : Separated v.fs) (h : v.fatDelete stale path isDir = some (ret, w)) : WritesBack v w := by
  simp only [Volume.fatDelete, Option.bind_eq_bind, Option.bind_eq_some_iff] at h
  obtain ⟨dirName, _, parentName, _, grandName, _, r, _, h⟩ := h
  cases r with
  | error err =>
    cases h
    exact WritesBack.refl v
  | ok dir =>
    dsimp only at h
    split at h
    · cases h
      exact WritesBack.refl v
    · simp only [Option.bind_eq_some_iff] at h
      obtain ⟨rp, _, h⟩ := h
      cases rp with
      | error err =>
        cases h
        exact WritesBack.refl v
      | ok parent =>
        simp only [Option.bind_eq_some_iff] at h
        obtain ⟨rg, _, h⟩ := h
        cases rg with
        | error err =>
          cases h
          exact WritesBack.refl v
        | ok grandparent => exact writesBack_deleteEntry hgeo h

private theorem writesBack_renameEntry {newName : List UInt8} {file parent : DirEntry} {ret : Int}
    (hgeo : Separated v.fs) (h : v.renameEntry newName file parent = some (ret, w)) : WritesBack v w := by
  simp only [Volume.renameEntry, Option.bind_eq_bind, Option.bind_eq_some_iff] at h
  obtain ⟨copied, _, found, _, h⟩ := h
  cases found with
  | some e =>
    cases h
    exact WritesBack.refl v
  | none =>
    simp only [Option.bind_eq_some_iff] at h
    obtain ⟨⟨b, v1⟩, h1, h⟩ := h
    cases b <;> cases h <;> exact (dataOnly_fatUpdateDirEntry hgeo h1).writesBack

private theorem writesBack_fatRename {stale : ByteMem} {path newName : List UInt8} {ret : Int} (hgeo : Separated v.fs)
    (h : v.fatRename stale path newName = some (ret, w)) : WritesBack v w := by
  simp only [Volume.fatRename, Option.bind_eq_bind, Option.bind_eq_some_iff] at h
  obtain ⟨r, _, h⟩ := h
  cases r with
  | error err =>
    cases h
    exact WritesBack.refl v
  | ok file =>
    simp only [Option.bind_eq_some_iff] at h
    obtain ⟨directory, _, rp, _, h⟩ := h
    cases rp with
    | error err =>
      cases h
      exact WritesBack.refl v
    | ok parent =>
      dsimp only at h
      split at h
      · cases h
        exact WritesBack.refl v
      split at h
      · cases h
        exact WritesBack.refl v
      split at h
      · cases h
        exact WritesBack.refl v
      exact writesBack_renameEntry hgeo h

/-! ### Writing and truncating -/

private theorem dataOnly_writeLoop {n c off : Nat} {buffer cluster : List UInt8} (hgeo : Separated v.fs)
    (hc : IsCluster v c) (h : Volume.writeLoop n v c off buffer cluster = some w) : DataOnly v w := by
  induction n generalizing v c off buffer cluster with
  | zero =>
    simp only [Volume.writeLoop] at h
    split at h
    · cases h
      exact DataOnly.refl _
    · cases h
  | succ n ih =>
    simp only [Volume.writeLoop] at h
    split at h
    · cases h
      exact DataOnly.refl _
    · simp only [Option.bind_eq_bind, Option.bind_eq_some_iff] at h
      obtain ⟨loaded, _, v1, h1, h⟩ := h
      have hwrite := dataOnly_fatWriteDataCluster hgeo hc h1
      split at h
      · simp only [Option.bind_eq_some_iff] at h
        obtain ⟨x, _, h⟩ := h
        exact hwrite.trans (ih (hwrite.fs ▸ hgeo) (isCluster_link v1 x) h)
      · cases h
        exact hwrite

private theorem isCluster_writeSeek {n s c : Nat} (hs : IsCluster v s) (h : v.writeSeek n s = some (some c)) :
    IsCluster v c := by
  induction n generalizing s with
  | zero =>
    simp only [Volume.writeSeek, Option.some.injEq] at h
    exact h ▸ hs
  | succ n ih =>
    simp only [Volume.writeSeek] at h
    split at h
    · cases h
    · simp only [Option.bind_eq_bind, Option.bind_eq_some_iff] at h
      obtain ⟨x, _, h⟩ := h
      exact ih (isCluster_link v x) h

private theorem writesBack_fatWriteWith {truncate : Volume → FileData → Nat → Option (Int × FileData × Volume)}
    (htruncate : ∀ {v w : Volume} {file file' : FileData} {size : Nat} {ret : Int}, Separated v.fs →
      file.fileEntry.fileSize.toNat < size → truncate v file size = some (ret, file', w) → WritesBack v w)
    {file parent file' : DirEntry} {offset : Nat} {buffer : List UInt8} {ret : Int} (hgeo : Separated v.fs)
    (h : v.fatWriteWith truncate file parent offset buffer = some (ret, file', w)) : WritesBack v w := by
  simp only [Volume.fatWriteWith] at h
  split at h
  · cases h
    exact WritesBack.refl _
  split at h
  · cases h
  simp only [Option.bind_eq_bind, Option.bind_eq_some_iff] at h
  obtain ⟨⟨ret1, data, v1⟩, h1, h⟩ := h
  have hsize : WritesBack v v1 := by
    simp only [Volume.ensureSize] at h1
    split at h1
    · rename_i hlt
      exact htruncate hgeo hlt h1
    · cases h1
      exact WritesBack.refl _
  split at h
  · cases h
    exact hsize
  simp only [Option.bind_eq_some_iff] at h
  obtain ⟨seek, hseek, h⟩ := h
  cases seek with
  | none =>
    cases h
    exact hsize
  | some c =>
    simp only [Option.bind_eq_some_iff] at h
    obtain ⟨v2, h2, h⟩ := h
    simp only [Option.some.injEq, Prod.mk.injEq] at h
    obtain ⟨_, _, rfl⟩ := h
    exact hsize.trans
      (dataOnly_writeLoop (hsize.separated hgeo) (isCluster_writeSeek (isCluster_link v1 _) hseek) h2).writesBack

private theorem dataOnly_updateFileSize {file file' : FileData} {size : Nat} {ret : Int} (hgeo : Separated v.fs)
    (h : v.updateFileSize file size = some (ret, file', w)) : DataOnly v w := by
  simp only [Volume.updateFileSize, Option.bind_eq_bind, Option.bind_eq_some_iff] at h
  obtain ⟨⟨b, v1⟩, h1, h⟩ := h
  cases b <;> cases h <;> exact dataOnly_fatUpdateDirEntry hgeo h1

private theorem writesBack_truncateGrow {file file' : FileData} {size : Nat} {ret : Int} (hgeo : Separated v.fs)
    (h : v.truncateGrow file size = some (ret, file', w)) : WritesBack v w := by
  simp only [Volume.truncateGrow, Option.bind_eq_bind, Option.bind_eq_some_iff] at h
  obtain ⟨amount, _, h⟩ := h
  split at h
  · cases h
  simp only [Option.bind_eq_some_iff] at h
  obtain ⟨⟨b, v1⟩, h1, h⟩ := h
  have hspace := writesBack_fatAllocateSpace hgeo h1
  cases b with
  | false =>
    cases h
    exact hspace
  | true =>
    simp only [Option.bind_eq_some_iff] at h
    obtain ⟨⟨_, entry, v2⟩, h2, h⟩ := h
    have hzero := hspace.trans (writesBack_fatWriteWith (fun _ _ ht => by cases ht) (hspace.separated hgeo) h2)
    exact hzero.trans (dataOnly_updateFileSize (hzero.separated hgeo) h).writesBack

private theorem writesBack_fatTruncate_grow {file file' : FileData} {size : Nat} {ret : Int} (hgeo : Separated v.fs)
    (hsize : file.fileEntry.fileSize.toNat ≤ size) (h : v.fatTruncate file size = some (ret, file', w)) :
    WritesBack v w := by
  simp only [Volume.fatTruncate, Nat.not_lt.2 hsize, ↓reduceIte] at h
  split at h
  · cases h
    exact WritesBack.refl _
  split at h
  · exact writesBack_truncateGrow hgeo h
  · cases h
    exact WritesBack.refl _

private theorem writesBack_fatWrite {file parent file' : DirEntry} {offset : Nat} {buffer : List UInt8} {ret : Int}
    (hgeo : Separated v.fs) (h : v.fatWrite file parent offset buffer = some (ret, file', w)) : WritesBack v w :=
  writesBack_fatWriteWith (fun hg hlt ht => writesBack_fatTruncate_grow hg hlt.le ht) hgeo h

/-! ### Truncation to a smaller size -/

/-- What freeing the head of a chain does to the table: entries are cleared, the first one when there is one. -/
private theorem freeHead_spec {n c c' : Nat} (h : Volume.freeHead n v c = some (c', w)) :
    w.fs = v.fs ∧ w.disk = v.disk ∧ (∀ i : Nat, w.fatTable[i]? = v.fatTable[i]? ∨ w.fatTable[i]? = some freeCluster) ∧
      (n ≠ 0 → w.fatTable[c]? = some freeCluster) ∧ (n = 0 → c' = c ∧ w.fatTable = v.fatTable) := by
  induction n generalizing v c with
  | zero =>
    cases h
    exact ⟨rfl, rfl, fun _ => .inl rfl, fun h => absurd rfl h, fun _ => ⟨rfl, rfl⟩⟩
  | succ n ih =>
    simp only [Volume.freeHead, Option.bind_eq_bind, Option.bind_eq_some_iff] at h
    obtain ⟨x, _, u, hstore, h⟩ := h
    obtain ⟨hc, hfs, htable, hdisk⟩ := storeFat_eq_some hstore
    obtain ⟨hfs', hdisk', hentries, _⟩ := ih h
    have hget : ∀ i : Nat, u.fatTable[i]? = v.fatTable[i]? ∨ u.fatTable[i]? = some freeCluster := by
      intro i
      rw [htable]
      by_cases hi : c = i
      · right
        rw [← hi, List.getElem?_set_self hc]
      · left
        rw [List.getElem?_set_ne hi]
    refine ⟨hfs'.trans hfs, hdisk'.trans hdisk, ?_, fun _ => ?_, by simp⟩
    · intro i
      rcases hentries i with hi | hi
      · rw [hi]
        exact hget i
      · exact .inr hi
    · rcases hentries c with hi | hi
      · rw [hi, htable, List.getElem?_set_self hc]
      · exact hi

/-- A chain of two clusters or more starts with a link. -/
private theorem link_of_two_le_clusterAmount {n start amount : Nat} (h : v.clusterAmountFrom n start = some amount)
    (hamount : 2 ≤ amount) :
    ∃ x, v.fatTable[start]? = some x ∧ isEndOfClusterChain x = false ∧ x ≠ freeCluster := by
  cases n with
  | zero => cases h
  | succ n =>
    simp only [Volume.clusterAmountFrom, Option.bind_eq_bind, Option.bind_eq_some_iff] at h
    obtain ⟨x, hx, h⟩ := h
    split at h
    · cases h
      omega
    · rename_i hend
      split at h
      · cases h
        omega
      · rename_i hfree
        exact ⟨x, hx, by simpa using hend, by simpa using hfree⟩

/-- Truncating to a smaller size keeps the two FATs equal exactly when the chain is one cluster marked with the end
marker that it writes. -/
private theorem truncateShrink_synced {file file' : FileData} {size : Nat} {ret : Int} (hgeo : Separated v.fs)
    (hv : v.Synced) (h : v.truncateShrink file size = some (ret, file', w)) :
    w.fs = v.fs ∧ bootSector w.disk = bootSector v.disk ∧
      (w.Synced ↔ v.fatTable[file.fileEntry.startCluster.toNat]? = some clusterChainEnd) := by
  simp only [Volume.truncateShrink, Option.bind_eq_bind, Option.bind_eq_some_iff] at h
  obtain ⟨amount, hamount, h⟩ := h
  split at h
  · cases h
  simp only [Option.bind_eq_some_iff] at h
  obtain ⟨⟨c, v1⟩, h1, v2, h2, h⟩ := h
  dsimp only at h2
  rw [Volume.fatGetClusterAmount] at hamount
  generalize size / v.fs.bytesPerCluster = q at h1
  generalize hk : amount - (q + 1) = k at h1
  generalize file.fileEntry.startCluster.toNat = start at hamount h1 ⊢
  obtain ⟨hfs1, hdisk1, _, hfirst, hnone⟩ := freeHead_spec h1
  obtain ⟨hc, hfs2, htable2, hdisk2⟩ := storeFat_eq_some h2
  have hfs : v2.fs = v.fs := hfs2.trans hfs1
  have hdisk : v2.disk = v.disk := hdisk2.trans hdisk1
  have hdata := dataOnly_updateFileSize (hfs ▸ hgeo) h
  refine ⟨hdata.fs.trans hfs, by rw [hdata.boot, hdisk], ?_⟩
  have hsync : w.Synced ↔ v.fatTable = v2.fatTable := by
    have hsectors : w.fatSectors = v.fatTable.flatMap le16 := by
      rw [hdata.sectors, Volume.fatSectors, hfs, hdisk, ← hv, Volume.fatSectors]
    rw [Volume.Synced, hsectors, hdata.table]
    exact ⟨flatMap_le16_inj, fun he => by rw [he]⟩
  rw [hsync]
  by_cases h0 : k = 0
  · -- no cluster is freed: the first entry is overwritten with the end marker
    obtain ⟨rfl, htable1⟩ := hnone h0
    rw [htable1] at htable2 hc
    rw [htable2]
    constructor
    · intro he
      rw [he, List.getElem?_set_self hc]
    · intro he
      rw [List.getElem?_eq_getElem hc, Option.some.injEq] at he
      rw [← he, List.set_getElem_self]
  · -- the first entry was a link and is now free or an end marker
    obtain ⟨x, hx, hend, hfree⟩ := link_of_two_le_clusterAmount hamount (by omega)
    have hxend : x ≠ clusterChainEnd := by
      rintro rfl
      cases hend
    constructor
    · intro he
      exfalso
      rw [he, htable2, List.getElem?_set] at hx
      split at hx
      · exact hxend (Option.some.inj hx).symm
      · rw [hfirst h0] at hx
        cases hx
        exact hfree rfl
    · intro he
      rw [hx] at he
      cases he
      exact absurd rfl hxend

/-! ### Runs -/

/-- A truncation to a smaller size that leaves the table as it is: the chain of the file is a single cluster marked
with `FAT16_CLUSTER_CHAIN_END`.  Other calls write back what they store. -/
def KeepsTable (v : Volume) : Call → Prop
  | .truncate file size =>
    file.fileEntry.isDirectory = false → size.toNat < file.fileEntry.fileSize.toNat →
      v.fatTable[file.fileEntry.startCluster.toNat]? = some clusterChainEnd
  | _ => True

private theorem step_synced_iff {c : Call} (hgeo : Separated v.fs) (hv : v.Synced) (h : v.step c = some w) :
    w.fs = v.fs ∧ bootSector w.disk = bootSector v.disk ∧ (w.Synced ↔ KeepsTable v c) := by
  have hback : WritesBack v w → KeepsTable v c →
      w.fs = v.fs ∧ bootSector w.disk = bootSector v.disk ∧ (w.Synced ↔ KeepsTable v c) :=
    fun hw hk => ⟨hw.fs, hw.boot, fun _ => hk, fun _ => hw.synced hv⟩
  simp only [Volume.step, Option.map_eq_map, Option.map_eq_some_iff] at h
  obtain ⟨⟨ret, w⟩, h, rfl⟩ := h
  cases c with
  | createFile stale path => exact hback (writesBack_fatCreate hgeo h) trivial
  | createDirectory stale path => exact hback (writesBack_fatCreate hgeo h) trivial
  | deleteFile stale path => exact hback (writesBack_fatDelete hgeo h) trivial
  | deleteDir stale path => exact hback (writesBack_fatDelete hgeo h) trivial
  | rename stale path newName => exact hback (writesBack_fatRename hgeo h) trivial
  | write file parent offset buffer =>
    simp only [Volume.perform, Option.bind_eq_bind, Option.bind_eq_some_iff] at h
    obtain ⟨⟨ret', file', w'⟩, h, he⟩ := h
    cases he
    exact hback (writesBack_fatWrite hgeo h) trivial
  | truncate file size =>
    simp only [Volume.perform, Option.bind_eq_bind, Option.bind_eq_some_iff] at h
    obtain ⟨⟨ret', file', w'⟩, h, he⟩ := h
    cases he
    rcases Nat.lt_or_ge size.toNat file.fileEntry.fileSize.toNat with hlt | hge
    · simp only [Volume.fatTruncate, hlt, ↓reduceIte] at h
      split at h
      · rename_i hdir
        cases h
        exact hback (WritesBack.refl _) (fun hfile _ => by rw [hdir] at hfile; cases hfile)
      · rename_i hdir
        obtain ⟨hfs, hboot, hiff⟩ := truncateShrink_synced hgeo hv h
        exact ⟨hfs, hboot, hiff.trans ⟨fun hk _ _ => hk, fun hk => hk (by simpa using hdir) hlt⟩⟩
    · exact hback (writesBack_fatTruncate_grow hgeo hge h) (fun _ hlt => absurd hlt (Nat.not_lt.2 hge))

/-- From a mounted disk on, the FAT on disk is `fat_table` after every call exactly when every truncation to a smaller
size leaves the table as it is. -/
theorem fat_synced_iff {block : Option ByteMem} {disk : ByteMem} {v₀ v : Volume} {calls : List Call}
    (hinit : fatInit block disk = some (some v₀)) (hgeo : Separated v₀.fs)
    (hrun : Run Volume.step (fun _ _ => True) v₀ calls v) :
    (∀ pre suf w, calls = pre ++ suf → Run Volume.step (fun _ _ => True) v₀ pre w → w.Synced ∧ w.Remounts) ↔
      ∀ pre c suf w, calls = pre ++ c :: suf → Run Volume.step (fun _ _ => True) v₀ pre w → KeepsTable w c := by
  obtain ⟨hsynced, hmounted⟩ := synced_of_fatInit hinit hgeo
  obtain ⟨-, -, hfits, -⟩ := fatInit_eq_some hinit
  refine hrun.forall_prefix_iff (P := fun w => w.Synced ∧ w.Mounted ∧ Separated w.fs ∧ w.fs.TableFits) ?_ ?_
    ⟨hsynced, hmounted, hgeo, hfits⟩
  · rintro w ⟨hw, hm, hg, hf⟩
    exact ⟨hw, hw.remounts hg hm hf⟩
  · rintro w c w' ⟨hw, hm, hg, hf⟩ - hstep
    obtain ⟨hfs, hboot, hiff⟩ := step_synced_iff hg hw hstep
    have hm' : w'.Mounted := by
      rw [Volume.Mounted, hboot, hfs]
      exact hm
    have hg' : Separated w'.fs := hfs ▸ hg
    have hf' : w'.fs.TableFits := hfs ▸ hf
    exact ⟨⟨fun h => hiff.1 h.1, fun h => ⟨hiff.2 h, (hiff.2 h).remounts hg' hm' hf'⟩⟩, fun h => ⟨h.1, hm', hg', hf'⟩⟩

/-! ### A run that loses a link -/

/-- Mounting the image and truncating the file to 10 bytes. -/
private theorem twoClusterDisk_run :
    ∃ v₀ v, fatInit (some fun _ => 0) twoClusterDisk = some (some v₀) ∧ Separated v₀.fs ∧
      v₀.step (.truncate ⟨twoClusterFile, rootDir v₀.fs⟩ 10) = some v ∧ v₀.fatTable[2]? = some 3 := by
  have hrun : ((fatInit (some fun _ => 0) twoClusterDisk).bind fun mounted => mounted.bind fun v =>
      (v.step (.truncate ⟨twoClusterFile, rootDir v.fs⟩ 10)).map fun _ =>
        ([v.fs.bytesPerSector, v.fs.reservedSectors, v.fs.numFats, v.fs.sectorsPerCluster, v.fs.sectorsPerFat],
          v.fatTable[2]?)) = some ([512, 1, 1, 1, 1], some (3 : UInt16)) := by decide +kernel
  simp only [Option.bind_eq_some_iff, Option.map_eq_some_iff, Prod.mk.injEq, List.cons.injEq, and_true] at hrun
  obtain ⟨_, hinit, v, rfl, w, hstep, ⟨hbps, hres, hfats, hspc, hspf⟩, htable⟩ := hrun
  refine ⟨v, w, hinit, ⟨hbps, hres.ge, hfats.ge, ?_⟩, hstep, htable⟩
  simp [Fat16Fs.totalFatEntries, Fat16Fs.rootDirStart, hbps, hres, hfats, hspc, hspf]

/-- The FAT on disk is not `fat_table` after a truncation that frees a cluster. -/
theorem fat_not_synced :
    ∃ v₀ v, fatInit (some fun _ => 0) twoClusterDisk = some (some v₀) ∧ Separated v₀.fs ∧
      Run Volume.step (fun _ _ => True) v₀ [.truncate ⟨twoClusterFile, rootDir v₀.fs⟩ 10] v ∧ ¬ v.Synced := by
  obtain ⟨v₀, v, hinit, hgeo, hstep, htable⟩ := twoClusterDisk_run
  refine ⟨v₀, v, hinit, hgeo, Run.single trivial hstep, ?_⟩
  obtain ⟨_, _, hiff⟩ := step_synced_iff hgeo (synced_of_fatInit hinit hgeo).1 hstep
  rw [hiff]
  intro hkeeps
  have h3 := hkeeps (show twoClusterFile.isDirectory = false by decide)
    (show (10 : UInt32).toNat < twoClusterFile.fileSize.toNat by decide)
  rw [show twoClusterFile.startCluster.toNat = 2 from rfl, htable] at h3
  exact absurd h3 (by decide)

/-- `fat_synced_iff` on that run: the table on disk is stale, as the truncation cuts a chain of two clusters. -/
theorem fat_synced_iff_twoClusterDisk :
    ∃ v₀ v, fatInit (some fun _ => 0) twoClusterDisk = some (some v₀) ∧
      Run Volume.step (fun _ _ => True) v₀ [.truncate ⟨twoClusterFile, rootDir v₀.fs⟩ 10] v ∧
      ((∀ pre suf w, [Call.truncate ⟨twoClusterFile, rootDir v₀.fs⟩ 10] = pre ++ suf →
          Run Volume.step (fun _ _ => True) v₀ pre w → w.Synced ∧ w.Remounts) ↔
        ∀ pre c suf w, [Call.truncate ⟨twoClusterFile, rootDir v₀.fs⟩ 10] = pre ++ c :: suf →
          Run Volume.step (fun _ _ => True) v₀ pre w → KeepsTable w c) := by
  obtain ⟨v₀, v, hinit, hgeo, hstep, _⟩ := twoClusterDisk_run
  have hrun := Run.single (C := fun _ _ => True) trivial hstep
  exact ⟨v₀, v, hinit, hrun, fat_synced_iff hinit hgeo hrun⟩

end DBolOS.Fat
