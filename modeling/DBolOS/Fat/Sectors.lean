import DBolOS.Fat.Write
import DBolOS.Fat.Sync

/-!
# The FAT sectors that are written

The functions that change `fat_table` write the sector of every entry they change, and no other sector of the FAT.
`Rewrites` states this for the list of the changed entries; the lists of consecutive steps are appended.
-/

namespace DBolOS.Fat

open ByteMem

/-- Lists are equal when their blocks are. -/
theorem eq_of_blocks {α : Type*} {l l' : List α} {m n : Nat} (hm : 0 < m) (hl : l.length = m * n)
    (hl' : l'.length = m * n) (h : ∀ k < n, (l.drop (m * k)).take m = (l'.drop (m * k)).take m) : l = l' := by
  apply List.ext_getElem?
  intro i
  have hi : m * (i / m) + i % m = i := Nat.div_add_mod i m
  by_cases hin : i < m * n
  · have hblock := congrArg (·[i % m]?) (h (i / m) (Nat.div_lt_of_lt_mul hin))
    simp only [List.getElem?_take, Nat.mod_lt i hm, ↓reduceIte, List.getElem?_drop, hi] at hblock
    exact hblock
  · rw [List.getElem?_eq_none (by omega), List.getElem?_eq_none (by omega)]

namespace Volume

variable {v w u : Volume}

/-- Sector `k` of the FAT on disk. -/
def diskSector (v : Volume) (k : Nat) : List UInt8 := ataRead v.disk (v.fs.reservedSectors + k) 1

/-- What sector `k` of the FAT holds in memory. -/
def tableSector (v : Volume) (k : Nat) : List UInt8 := ((v.fatTable.drop (256 * k)).take 256).flatMap le16

/-- From `v` to `w` no entries but those of `is` have changed, and exactly their sectors of the FAT were written. -/
structure Rewrites (v w : Volume) (is : List Nat) : Prop where
  fs : w.fs = v.fs
  other : ∀ i, i ∉ is → w.fatTable[i]? = v.fatTable[i]?
  written : ∀ k < v.fs.sectorsPerFat, (∃ i ∈ is, i / 256 = k) → w.diskSector k = w.tableSector k
  kept : ∀ k < v.fs.sectorsPerFat, (¬ ∃ i ∈ is, i / 256 = k) → w.diskSector k = v.diskSector k

theorem Rewrites.refl (v : Volume) : Rewrites v v [] where
  fs := rfl
  other := fun _ _ => rfl
  written := by
    intro k _ hex
    obtain ⟨i, hi, _⟩ := hex
    cases hi
  kept := fun _ _ _ => rfl

/-- Sectors without a changed entry hold the same words. -/
private theorem Rewrites.tableSector {is : List Nat} {k : Nat} (h : Rewrites v w is) (hk : ¬ ∃ i ∈ is, i / 256 = k) :
    w.tableSector k = v.tableSector k := by
  have hwords : (w.fatTable.drop (256 * k)).take 256 = (v.fatTable.drop (256 * k)).take 256 := by
    apply List.ext_getElem?
    intro j
    simp only [List.getElem?_take, List.getElem?_drop]
    split
    · rename_i hj
      apply h.other
      intro hmem
      exact hk ⟨_, hmem, by omega⟩
    · rfl
  rw [Volume.tableSector, Volume.tableSector, hwords]

theorem Rewrites.trans {is js : List Nat} (h : Rewrites v w is) (h' : Rewrites w u js) :
    Rewrites v u (is ++ js) where
  fs := h'.fs.trans h.fs
  other := by
    intro i hi
    rw [List.mem_append, not_or] at hi
    rw [h'.other i hi.2, h.other i hi.1]
  written := by
    intro k hk hex
    by_cases hjs : ∃ i ∈ js, i / 256 = k
    · exact h'.written k (h.fs ▸ hk) hjs
    · obtain ⟨i, hi, hik⟩ := hex
      have his : i ∈ is := by
        rcases List.mem_append.1 hi with hi | hi
        · exact hi
        · exact absurd ⟨i, hi, hik⟩ hjs
      rw [h'.kept k (h.fs ▸ hk) hjs, h.written k hk ⟨i, his, hik⟩, h'.tableSector hjs]
  kept := by
    intro k hk hnone
    rw [h'.kept k (h.fs ▸ hk), h.kept k hk]
    · intro hex
      obtain ⟨i, hi, hik⟩ := hex
      exact hnone ⟨i, List.mem_append_left _ hi, hik⟩
    · intro hex
      obtain ⟨i, hi, hik⟩ := hex
      exact hnone ⟨i, List.mem_append_right _ hi, hik⟩

/-- The order and the repetitions of the changed entries do not matter. -/
theorem Rewrites.congr {is js : List Nat} (h : Rewrites v w is) (hmem : ∀ i, i ∈ is ↔ i ∈ js) : Rewrites v w js where
  fs := h.fs
  other := fun i hi => h.other i (mt (hmem i).1 hi)
  written := by
    intro k hk hex
    obtain ⟨i, hi, hik⟩ := hex
    exact h.written k hk ⟨i, (hmem i).2 hi, hik⟩
  kept := by
    intro k hk hnone
    apply h.kept k hk
    intro hex
    obtain ⟨i, hi, hik⟩ := hex
    exact hnone ⟨i, (hmem i).1 hi, hik⟩

/-! ### The primitives -/

private theorem length_table_of_sector (hsector : v.fs.bytesPerSector = 512) :
    v.fatTable.length = 256 * v.fs.sectorsPerFat := by
  rw [v.fatTable_length, Fat16Fs.totalFatEntries, hsector]
  omega

private theorem ataAddr_fatSector {k : Nat} (hk : k < v.fs.sectorsPerFat) :
    ataAddr (v.fs.reservedSectors + k) = 512 * (v.fs.reservedSectors + k) := by
  have hres := v.fs.reservedSectors_lt
  have hspf := v.fs.sectorsPerFat_lt
  exact ataAddr_of_lt (by omega)

/-- A store into an entry, and the write of its sector. -/
theorem rewrites_store {i : Nat} (x : UInt16) (hsector : v.fs.bytesPerSector = 512) (hi : i < v.fatTable.length) :
    ∃ u w, v.storeFat i x = some u ∧ u.writeFatSector i = some w ∧ w.fatTable = v.fatTable.set i x ∧
      Rewrites v w [i] := by
  have hlen := length_table_of_sector hsector
  obtain ⟨u, hu⟩ : ∃ u, v.storeFat i x = some u := ⟨_, if_pos hi⟩
  obtain ⟨_, hfs, htable, hdisk⟩ := storeFat_eq_some hu
  have hk : i / 256 < v.fs.sectorsPerFat := by omega
  have hsec : i * 2 / 512 = i / 256 := by omega
  have hidx : i / 256 * 512 / 2 = 256 * (i / 256) := by omega
  have hfit : 512 * 1 ≤ ((u.fatTable.drop (256 * (i / 256))).flatMap le16).length := by
    rw [length_flatMap_le16, List.length_drop, htable, List.length_set]
    omega
  have hwords : ((u.fatTable.drop (256 * (i / 256))).flatMap le16).take (512 * 1) = u.tableSector (i / 256) := by
    rw [tableSector, show 512 * 1 = 2 * 256 from rfl, take_flatMap_le16]
  have hwrite : u.writeFatSector i =
      some { u with disk := u.disk.writeBytes (ataAddr (v.fs.reservedSectors + i / 256)) (u.tableSector (i / 256)) } := by
    simp only [writeFatSector, hfs, hsector, hsec, hidx, ataWrite]
    rw [if_pos hfit, hwords]
    rfl
  have hsize : (u.tableSector (i / 256)).length = 512 * 1 := by
    rw [← hwords, List.length_take]
    omega
  refine ⟨u, _, hu, hwrite, htable, hfs, ?_, ?_, ?_⟩
  · intro j hj
    rw [List.mem_singleton] at hj
    exact (congrArg (·[j]?) htable).trans (List.getElem?_set_ne (Ne.symm hj))
  · intro k _ hex
    obtain ⟨j, hj, hjk⟩ := hex
    rw [List.mem_singleton] at hj
    subst hj hjk
    simp only [diskSector, ataRead, hfs]
    rw [← hsize]
    exact readBytes_write_self _ _ _
  · intro k hk' hnone
    have hne : i / 256 ≠ k := fun h => hnone ⟨i, List.mem_singleton_self i, h⟩
    simp only [diskSector, ataRead, hfs, hdisk]
    apply readBytes_write_disjoint
    rw [hsize, ataAddr_fatSector hk, ataAddr_fatSector hk']
    omega

/-- The data area lies behind the FAT. -/
theorem rewrites_fatWriteDataCluster {c : Nat} {buffer : List UInt8} (hs : v.fs.Sound) (hc : c < v.fatTable.length)
    (h : v.fatWriteDataCluster c buffer = some w) : Rewrites v w [] := by
  obtain ⟨hfs, htable, hwrite⟩ := fatWriteDataCluster_eq_some h
  obtain ⟨_, hdisk⟩ := ataWrite_eq_some hwrite
  obtain ⟨hsec, hlt, hbehind⟩ := clusterSector_sound hs hc
  refine ⟨hfs, fun i _ => by rw [htable], ?_, ?_⟩
  · intro k _ hex
    obtain ⟨i, hi, _⟩ := hex
    cases hi
  · intro k hk _
    simp only [diskSector, ataRead, hfs, hdisk]
    apply readBytes_write_disjoint
    rw [ataAddr_fatSector hk, ataAddr_of_lt hlt]
    omega

/-! ### The FAT on disk -/

theorem diskSector_eq {k : Nat} (hk : k < v.fs.sectorsPerFat) :
    v.diskSector k = (v.fatSectors.drop (512 * k)).take 512 := by
  have hres := v.fs.reservedSectors_lt
  have hspf := v.fs.sectorsPerFat_lt
  rw [diskSector, fatSectors, ataRead, ataRead, drop_readBytes, take_readBytes, ataAddr_fatSector hk,
    ataAddr_of_lt (by omega), Nat.mul_add, Nat.min_eq_left (by omega)]

private theorem tableSector_eq (v : Volume) (k : Nat) :
    v.tableSector k = ((v.fatTable.flatMap le16).drop (512 * k)).take 512 := by
  rw [tableSector, ← take_flatMap_le16, ← drop_flatMap_le16, ← Nat.mul_assoc]

/-- The FAT on disk is `fat_table` when each of its sectors is. -/
private theorem synced_iff (hsector : v.fs.bytesPerSector = 512) :
    v.Synced ↔ ∀ k < v.fs.sectorsPerFat, v.diskSector k = v.tableSector k := by
  have hlen := length_table_of_sector hsector
  constructor
  · intro h k hk
    rw [diskSector_eq hk, tableSector_eq, h]
  · intro h
    apply eq_of_blocks (m := 512) (n := v.fs.sectorsPerFat) (by omega)
    · exact length_readBytes _ _ _
    · rw [length_flatMap_le16, hlen]
      omega
    · intro k hk
      rw [← diskSector_eq hk, ← tableSector_eq, h k hk]

/-- A FAT that was `fat_table` on disk is so again. -/
theorem Rewrites.synced {is : List Nat} (h : Rewrites v w is) (hsector : v.fs.bytesPerSector = 512) (hv : v.Synced) :
    w.Synced := by
  have hsectors := (synced_iff hsector).1 hv
  rw [synced_iff (h.fs ▸ hsector)]
  intro k hk
  rw [h.fs] at hk
  by_cases hex : ∃ i ∈ is, i / 256 = k
  · exact h.written k hk hex
  · rw [h.kept k hk hex, hsectors k hk, h.tableSector hex]

end Volume

end DBolOS.Fat
