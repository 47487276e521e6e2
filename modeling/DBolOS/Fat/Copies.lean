import DBolOS.Fat.Load
import DBolOS.Fat.Shortage

/-!
# The FATs on an image that the loader has written

The loader's `fat_write` sets every entry it changes in each of the FATs on disk, but its `fat_create` is the kernel's and
writes the first FAT only.  The copies agree again when `fat_write` has patched all the entries of the creation, that is
when the root did not grow and the cluster of the file was linked to a second one (`allSynced_load_iff`).
-/

namespace DBolOS.Fat

open ByteMem

namespace Volume

/-- FAT `j` on disk. -/
def fatCopy (v : Volume) (j : Nat) : List UInt8 :=
  ataRead v.disk (v.fs.reservedSectors + j * v.fs.sectorsPerFat) v.fs.sectorsPerFat

/-- Its entries. -/
def copyWords (v : Volume) (j : Nat) : List UInt16 := words16 (v.fatCopy j)

/-- Every FAT on disk is `fat_table`. -/
def AllSynced (v : Volume) : Prop := ∀ j < v.fs.numFats, v.fatCopy j = v.fatTable.flatMap le16

end Volume

open Volume

variable {v w u : Volume}

/-! ### Addresses -/

private theorem copy_le {j : Nat} (hj : j < v.fs.numFats) :
    j * v.fs.sectorsPerFat + v.fs.sectorsPerFat ≤ v.fs.numFats * v.fs.sectorsPerFat ∧
      v.fs.reservedSectors + v.fs.numFats * v.fs.sectorsPerFat < 2 ^ 29 := by
  have hmul : (j + 1) * v.fs.sectorsPerFat ≤ v.fs.numFats * v.fs.sectorsPerFat := Nat.mul_le_mul_right _ hj
  rw [Nat.succ_mul] at hmul
  have hfats : v.fs.numFats * v.fs.sectorsPerFat ≤ 2 ^ 8 * 2 ^ 16 :=
    Nat.mul_le_mul v.fs.numFats_lt.le v.fs.sectorsPerFat_lt.le
  have hres := v.fs.reservedSectors_lt
  exact ⟨hmul, by omega⟩

private theorem copy_base_lt {j : Nat} (hj : j < v.fs.numFats) :
    v.fs.reservedSectors + j * v.fs.sectorsPerFat < 2 ^ 29 := by
  obtain ⟨hle, hlt⟩ := copy_le (v := v) hj
  omega

private theorem fatCopy_eq {j : Nat} (hj : j < v.fs.numFats) :
    v.fatCopy j =
      v.disk.readBytes (512 * (v.fs.reservedSectors + j * v.fs.sectorsPerFat)) (512 * v.fs.sectorsPerFat) := by
  rw [fatCopy, ataRead, ataAddr_of_lt (copy_base_lt hj)]

private theorem fatCopy_zero (v : Volume) : v.fatCopy 0 = v.fatSectors := by
  rw [fatCopy, fatSectors, Nat.zero_mul, Nat.add_zero]

private theorem length_copyWords (hgeo : Separated v.fs) (j : Nat) : (v.copyWords j).length = v.fatTable.length := by
  have hlen := table_length hgeo
  rw [copyWords, length_words16, fatCopy, ataRead, length_readBytes]
  omega

private theorem fatCopy_eq_iff (j : Nat) : v.fatCopy j = v.fatTable.flatMap le16 ↔ v.copyWords j = v.fatTable := by
  have heven : (v.fatCopy j).length % 2 = 0 := by
    rw [fatCopy, ataRead, length_readBytes]
    omega
  constructor
  · intro h
    rw [copyWords, h, words16_flatMap_le16]
  · intro h
    rw [← h, copyWords, flatMap_le16_words16 _ heven]

private theorem allSynced_iff : v.AllSynced ↔ ∀ j < v.fs.numFats, v.copyWords j = v.fatTable := by
  constructor
  · intro h j hj
    exact (fatCopy_eq_iff j).1 (h j hj)
  · intro h j hj
    exact (fatCopy_eq_iff j).2 (h j hj)

private theorem fatCopy_write {a j : Nat} {bs : List UInt8} (hj : j < v.fs.numFats) (hfs : w.fs = v.fs)
    (hdisk : w.disk = v.disk.writeBytes a bs)
    (hout : 512 * (v.fs.reservedSectors + j * v.fs.sectorsPerFat + v.fs.sectorsPerFat) ≤ a ∨
      a + bs.length ≤ 512 * (v.fs.reservedSectors + j * v.fs.sectorsPerFat)) :
    w.fatCopy j = v.fatCopy j := by
  rw [fatCopy_eq hj, fatCopy_eq (by rwa [hfs]), hfs, hdisk]
  apply readBytes_write_disjoint
  rw [Nat.mul_add] at hout
  omega

/-! ### Calls that write the first FAT -/

/-- From `v` to `w` the FATs behind the first one have not changed. -/
structure KeepsCopies (v w : Volume) : Prop where
  fs : w.fs = v.fs
  copies : ∀ j, 0 < j → j < v.fs.numFats → w.fatCopy j = v.fatCopy j

private theorem KeepsCopies.refl (v : Volume) : KeepsCopies v v := ⟨rfl, fun _ _ _ => rfl⟩

private theorem KeepsCopies.trans (h : KeepsCopies v w) (h' : KeepsCopies w u) : KeepsCopies v u where
  fs := h'.fs.trans h.fs
  copies := by
    intro j hpos hj
    rw [h'.copies j hpos (by rwa [h.fs]), h.copies j hpos hj]

private theorem keepsCopies_store {i : Nat} {x : UInt16} (hgeo : Separated v.fs) (h1 : v.storeFat i x = some u)
    (h2 : u.writeFatSector i = some w) : KeepsCopies v w := by
  obtain ⟨hi, hfs, htable, hdisk⟩ := storeFat_eq_some h1
  obtain ⟨hfs', _, hwrite⟩ := writeFatSector_eq_some h2
  obtain ⟨hlen, hdisk'⟩ := ataWrite_eq_some hwrite
  have hsize := table_length hgeo
  refine ⟨hfs'.trans hfs, ?_⟩
  intro j hpos hj
  have hspf : v.fs.sectorsPerFat ≤ j * v.fs.sectorsPerFat := Nat.le_mul_of_pos_left _ hpos
  have hbase := copy_base_lt (v := v) hj
  rw [hfs, hgeo.sector] at hdisk' hlen
  rw [ataAddr_of_lt (by omega), hdisk] at hdisk'
  apply fatCopy_write hj (hfs'.trans hfs) hdisk'
  right
  rw [List.length_take]
  omega

private theorem fatCopy_fatWriteDataCluster {c j : Nat} {buffer : List UInt8} (hgeo : Separated v.fs)
    (hc : IsCluster v c)
    (hj : j < v.fs.numFats) (h : v.fatWriteDataCluster c buffer = some w) : w.fatCopy j = v.fatCopy j := by
  obtain ⟨hfs, _, hwrite⟩ := fatWriteDataCluster_eq_some h
  obtain ⟨_, hdisk⟩ := ataWrite_eq_some hwrite
  obtain ⟨heq, hlt⟩ := clusterSector_eq hgeo hc
  obtain ⟨hle, _⟩ := copy_le (v := v) hj
  rw [ataAddr_of_lt hlt] at hdisk
  apply fatCopy_write hj hfs hdisk
  left
  rw [heq, Fat16Fs.rootDirStart]
  omega

private theorem fatCopy_fatUpdateDirEntry {name : List UInt8} {dir new : DirEntry} {b : Bool} {j : Nat}
    (hgeo : Separated v.fs)
    (hj : j < v.fs.numFats) (h : v.fatUpdateDirEntry name dir new = some (b, w)) : w.fatCopy j = v.fatCopy j := by
  simp only [Volume.fatUpdateDirEntry, Option.bind_eq_bind, Option.bind_eq_some_iff] at h
  obtain ⟨hit, hscan, h⟩ := h
  cases hit with
  | none =>
    cases h
    rfl
  | some hit =>
    simp only [Option.bind_eq_some_iff] at h
    obtain ⟨v1, h1, h⟩ := h
    cases h
    exact fatCopy_fatWriteDataCluster hgeo (isCluster_scanDir hscan) hj h1

private theorem keepsCopies_fatWriteDataCluster {c : Nat} {buffer : List UInt8} (hgeo : Separated v.fs)
    (hc : IsCluster v c) (h : v.fatWriteDataCluster c buffer = some w) : KeepsCopies v w :=
  ⟨(fatWriteDataCluster_eq_some h).1, fun _ _ hj => fatCopy_fatWriteDataCluster hgeo hc hj h⟩

private theorem keepsCopies_fatUpdateChain {s n : Nat} (hgeo : Separated v.fs) (h : v.fatUpdateChain s n = some w) :
    KeepsCopies v w := by
  simp only [Volume.fatUpdateChain, Option.bind_eq_bind, Option.bind_eq_some_iff] at h
  obtain ⟨last, _, h⟩ := h
  cases last with
  | none =>
    cases h
    exact KeepsCopies.refl v
  | some b =>
    simp only [Option.bind_eq_some_iff] at h
    obtain ⟨v1, h1, v2, h2, v3, h3, v4, h4, h5⟩ := h
    have hlink := keepsCopies_store hgeo h1 h2
    have hend := keepsCopies_store (hlink.fs ▸ hgeo) h3 h4
    have hlen : n < v4.fatTable.length := by
      obtain ⟨hn, _, htable, _⟩ := storeFat_eq_some h3
      rw [(writeFatSector_eq_some h4).2.1, htable, List.length_set]
      exact hn
    have hboth := hlink.trans hend
    exact hboth.trans (keepsCopies_fatWriteDataCluster (hboth.fs ▸ hgeo) (.inr hlen) h5)

private theorem keepsCopies_fatAddDirEntry {dir new : DirEntry} {b : Bool} (hgeo : Separated v.fs)
    (h : v.fatAddDirEntry dir new = some (b, w)) : KeepsCopies v w := by
  simp only [Volume.fatAddDirEntry, Option.bind_eq_bind, Option.bind_eq_some_iff] at h
  obtain ⟨hit, hscan, h⟩ := h
  cases hit with
  | some hit =>
    simp only [Option.bind_eq_some_iff] at h
    obtain ⟨v1, h1, h⟩ := h
    cases h
    exact keepsCopies_fatWriteDataCluster hgeo (isCluster_scanDir hscan) h1
  | none =>
    dsimp only at h
    split at h
    · cases h
      exact KeepsCopies.refl v
    · rename_i n hfree
      simp only [Option.bind_eq_some_iff] at h
      obtain ⟨v1, h1, buffer, _, v2, h2, h⟩ := h
      cases h
      have hchain := keepsCopies_fatUpdateChain hgeo h1
      have hn : IsCluster v1 n := by
        refine .inr ?_
        rw [v1.fatTable_length, hchain.fs, ← v.fatTable_length]
        exact (fatFindFree_eq_some hfree).2
      exact hchain.trans (keepsCopies_fatWriteDataCluster (hchain.fs ▸ hgeo) hn h2)

private theorem keepsCopies_fatUpdateDirEntry {name : List UInt8} {dir new : DirEntry} {b : Bool}
    (hgeo : Separated v.fs) (h : v.fatUpdateDirEntry name dir new = some (b, w)) : KeepsCopies v w :=
  ⟨(dataOnly_fatUpdateDirEntry hgeo h).fs, fun _ _ hj => fatCopy_fatUpdateDirEntry hgeo hj h⟩

/-! ### Calls that patch every FAT -/

namespace Loader

/-- From `v` to `w` no entries but those of `is` have changed, and these were set in every FAT on disk. -/
structure Patched (v w : Volume) (is : List Nat) : Prop where
  fs : w.fs = v.fs
  other : ∀ i, i ∉ is → w.fatTable[i]? = v.fatTable[i]?
  copies : ∀ j < v.fs.numFats, ∀ i, (w.copyWords j)[i]? = if i ∈ is then w.fatTable[i]? else (v.copyWords j)[i]?

private theorem Patched.refl (v : Volume) : Patched v v [] := ⟨rfl, fun _ _ => rfl, fun _ _ _ => by simp⟩

private theorem Patched.trans {is js : List Nat} (h : Patched v w is) (h' : Patched w u js) :
    Patched v u (is ++ js) where
  fs := h'.fs.trans h.fs
  other := by
    intro i hi
    rw [List.mem_append, not_or] at hi
    rw [h'.other i hi.2, h.other i hi.1]
  copies := by
    intro j hj i
    rw [h'.copies j (by rwa [h.fs]) i, h.copies j hj i]
    by_cases hjs : i ∈ js
    · simp [hjs]
    · by_cases his : i ∈ is
      · simp [hjs, his, h'.other i hjs]
      · simp [hjs, his]

/-- Only the entries that were not patched can differ. -/
private theorem Patched.allSynced_iff {is : List Nat} (h : Patched v w is) :
    w.AllSynced ↔ ∀ j < v.fs.numFats, ∀ i, i ∉ is → (v.copyWords j)[i]? = v.fatTable[i]? := by
  rw [DBolOS.Fat.allSynced_iff, h.fs]
  constructor
  · intro hall j hj i hi
    have hcopy := h.copies j hj i
    rw [hall j hj, if_neg hi] at hcopy
    rw [← hcopy, h.other i hi]
  · intro hall j hj
    apply List.ext_getElem?
    intro i
    rw [h.copies j hj i]
    by_cases hi : i ∈ is
    · rw [if_pos hi]
    · rw [if_neg hi, hall j hj i hi, h.other i hi]

private theorem patched_fatWriteDataCluster {c : Nat} {buffer : List UInt8} (hgeo : Separated v.fs) (hc : IsCluster v c)
    (h : v.fatWriteDataCluster c buffer = some w) : Patched v w [] := by
  obtain ⟨hfs, htable, _⟩ := fatWriteDataCluster_eq_some h
  refine ⟨hfs, fun i _ => by rw [htable], ?_⟩
  intro j hj i
  rw [copyWords, fatCopy_fatWriteDataCluster hgeo hc hj h]
  simp [copyWords]

private theorem patched_fatUpdateDirEntry {name : List UInt8} {dir new : DirEntry} {b : Bool} (hgeo : Separated v.fs)
    (h : v.fatUpdateDirEntry name dir new = some (b, w)) : Patched v w [] := by
  have hdata := dataOnly_fatUpdateDirEntry hgeo h
  refine ⟨hdata.fs, fun i _ => by rw [hdata.table], ?_⟩
  intro j hj i
  rw [copyWords, fatCopy_fatUpdateDirEntry hgeo hj h]
  simp [copyWords]

private theorem copyWords_patchFat {i fat j : Nat} {x : UInt16} (hgeo : Separated v.fs) (hi : i < v.fatTable.length)
    (hfat : fat < v.fs.numFats) (hj : j < v.fs.numFats) (h : patchFat v i x fat = some w) :
    w.copyWords j = if j = fat then (v.copyWords j).set i x else v.copyWords j := by
  obtain ⟨w', hw', hfs, _, hdisk⟩ := patchFat_disk (x := x) hgeo hi hfat
  rw [h] at hw'
  cases hw'
  have hlen := table_length hgeo
  by_cases hjf : j = fat
  · subst hjf
    rw [if_pos rfl]
    have hwords := length_copyWords hgeo j
    have hbytes : 512 * v.fs.sectorsPerFat = 2 * (v.copyWords j).length := by omega
    have hword : (((v.copyWords j).set i x).drop i).take 1 = [x] := by
      rw [List.take_one, List.head?_drop, List.getElem?_set_self (by omega)]
      rfl
    have heven : (v.fatCopy j).length % 2 = 0 := by
      rw [fatCopy, ataRead, length_readBytes]
      omega
    have hold : v.disk.readBytes (512 * (v.fs.reservedSectors + j * v.fs.sectorsPerFat)) (2 * (v.copyWords j).length) =
        (v.copyWords j).flatMap le16 := by
      rw [← hbytes, ← fatCopy_eq hj, copyWords, flatMap_le16_words16 _ heven]
    have hnew := @readBytes_write_words v.disk _ i 1 (v.copyWords j) ((v.copyWords j).set i x) (List.length_set ..)
      (by omega) (List.take_set_of_le (le_refl i)) (List.drop_set_of_lt (Nat.lt_succ_self i)) hold
    rw [hword, List.flatMap_singleton, ← hdisk, ← hbytes] at hnew
    have hj' : j < w.fs.numFats := by rwa [hfs]
    rw [copyWords, fatCopy_eq hj', hfs, hnew, words16_flatMap_le16]
  · have hsame : w.fatCopy j = v.fatCopy j := by
      apply fatCopy_write hj hfs hdisk
      rw [length_le16]
      rcases Nat.lt_or_gt_of_ne hjf with hlt | hgt
      · have hmul : (j + 1) * v.fs.sectorsPerFat ≤ fat * v.fs.sectorsPerFat := Nat.mul_le_mul_right _ hlt
        rw [Nat.succ_mul] at hmul
        left
        omega
      · have hmul : (fat + 1) * v.fs.sectorsPerFat ≤ j * v.fs.sectorsPerFat := Nat.mul_le_mul_right _ hgt
        rw [Nat.succ_mul] at hmul
        right
        omega
    rw [if_neg hjf, copyWords, copyWords, hsame]

/-- The new links are set in the FATs `fats`. -/
private theorem copyWords_patchLinks {last f : Nat} {fats : List Nat} (hgeo : Separated v.fs)
    (hl : last < v.fatTable.length) (hf : f < v.fatTable.length) (hnodup : fats.Nodup)
    (hfats : ∀ k ∈ fats, k < v.fs.numFats) (h : fats.foldlM (patchLink last f) v = some w) :
    w.fs = v.fs ∧ w.fatTable = v.fatTable ∧ ∀ j < v.fs.numFats, w.copyWords j =
      if j ∈ fats then ((v.copyWords j).set last (UInt16.ofNat f)).set f clusterChainEnd else v.copyWords j := by
  induction fats generalizing v with
  | nil =>
    cases h
    exact ⟨rfl, rfl, fun j _ => by simp⟩
  | cons k fats ih =>
    rw [List.nodup_cons] at hnodup
    have hk := hfats k List.mem_cons_self
    simp only [List.foldlM_cons, patchLink, Option.bind_eq_bind, Option.bind_eq_some_iff] at h
    obtain ⟨v2, ⟨v1, h1, h2⟩, h⟩ := h
    obtain ⟨v1', h1', hfs1, htable1, _⟩ := patchFat_disk (x := UInt16.ofNat f) hgeo hl hk
    rw [h1] at h1'
    cases h1'
    have hgeo1 : Separated v1.fs := hfs1 ▸ hgeo
    have hk1 : k < v1.fs.numFats := by rwa [hfs1]
    have hf1 : f < v1.fatTable.length := by rwa [htable1]
    obtain ⟨v2', h2', hfs2, htable2, _⟩ := patchFat_disk (x := clusterChainEnd) hgeo1 hf1 hk1
    rw [h2] at h2'
    cases h2'
    have hfs : v2.fs = v.fs := hfs2.trans hfs1
    have htable : v2.fatTable = v.fatTable := htable2.trans htable1
    obtain ⟨hfsw, htablew, hwords⟩ := ih (hfs ▸ hgeo) (by rwa [htable]) (by rwa [htable]) hnodup.2
      (fun j hj => by rw [hfs]; exact hfats j (List.mem_cons_of_mem _ hj)) h
    refine ⟨hfsw.trans hfs, htablew.trans htable, ?_⟩
    intro j hj
    have hj1 : j < v1.fs.numFats := by rwa [hfs1]
    rw [hwords j (by rwa [hfs]), copyWords_patchFat hgeo1 hf1 hk1 hj1 h2, copyWords_patchFat hgeo hl hk hj h1]
    by_cases hjk : j = k
    · subst hjk
      simp [hnodup.1]
    · simp [hjk]

/-- The links of a new cluster are set in memory and in every FAT. -/
private theorem appendCluster_patched {last f : Nat} (hgeo : Separated v.fs) (hl : last < v.fatTable.length)
    (hfree : v.fatFindFree = some f) (h : appendCluster v last = some (some f, w)) : Patched v w [last, f] := by
  have hf := (fatFindFree_eq_some hfree).2
  simp only [appendCluster, hfree, Option.bind_eq_bind, Option.bind_eq_some_iff] at h
  obtain ⟨u1, hu1, u2, hu2, w', hfold, hw⟩ := h
  simp only [Option.some.injEq, Prod.mk.injEq, true_and] at hw
  subst hw
  obtain ⟨_, hfs1, htable1, hdisk1⟩ := storeFat_eq_some hu1
  obtain ⟨_, hfs2, htable2, hdisk2⟩ := storeFat_eq_some hu2
  have hfs : u2.fs = v.fs := hfs2.trans hfs1
  have htable : u2.fatTable = (v.fatTable.set last (UInt16.ofNat f)).set f clusterChainEnd := by rw [htable2, htable1]
  have hlen : u2.fatTable.length = v.fatTable.length := by rw [htable, List.length_set, List.length_set]
  have hcopies : ∀ j, u2.copyWords j = v.copyWords j := by
    intro j
    rw [copyWords, copyWords, fatCopy, fatCopy, hfs, hdisk2, hdisk1]
  obtain ⟨hfsw, htablew, hwords⟩ := @copyWords_patchLinks u2 w' last f (List.range u2.fs.numFats) (hfs ▸ hgeo)
    (by rwa [hlen]) (by rwa [hlen]) List.nodup_range (fun k hk => List.mem_range.1 hk) hfold
  refine ⟨hfsw.trans hfs, ?_, ?_⟩
  · intro i hi
    simp only [List.mem_cons, List.not_mem_nil, or_false, not_or] at hi
    rw [htablew, htable, List.getElem?_set_ne (Ne.symm hi.2), List.getElem?_set_ne (Ne.symm hi.1)]
  · intro j hj i
    rw [← hfs] at hj
    have hwlen := length_copyWords hgeo j
    rw [hwords j hj, if_pos (List.mem_range.2 hj), hcopies, htablew, htable]
    simp only [List.mem_cons, List.not_mem_nil, or_false]
    by_cases hif : i = f
    · subst hif
      rw [List.getElem?_set_self (by rw [List.length_set]; omega), List.getElem?_set_self (by rw [List.length_set]; omega)]
      simp
    · rw [List.getElem?_set_ne (Ne.symm hif), List.getElem?_set_ne (Ne.symm hif)]
      by_cases hil : i = last
      · subst hil
        rw [List.getElem?_set_self (by omega), List.getElem?_set_self (by omega)]
        simp
      · rw [List.getElem?_set_ne (Ne.symm hil), if_neg (by simp [hil, hif])]

/-- The loop of `fat_write` from the last cluster `cur` of a chain on patches every entry that it changes: that of `cur`
when the bytes do not fit into it and a cluster is free, and entries that were free. -/
private theorem writeLoop_patched {n cur : Nat} {bs buffer : List UInt8} (hs : v.fs.Sound) (hgeo : Separated v.fs)
    (hcur : cur < v.fatTable.length) (hlast : v.view.IsLast cur) (hbuf : buffer.length = 512 * v.fs.sectorsPerCluster)
    (hn : bs.length ≤ n * v.fs.bytesPerCluster) :
    ∃ k w is, writeLoop n v cur 0 bs buffer = some (k, w) ∧ Patched v w is ∧
      (∀ i ∈ is, i = cur ∨ v.fatTable[i]? = some freeCluster) ∧
      (cur ∈ is ↔ v.fs.bytesPerCluster < bs.length ∧ v.fatFindFree ≠ none) := by
  have hdone : bs = [] → ∃ k w is, writeLoop n v cur 0 bs buffer = some (k, w) ∧ Patched v w is ∧
      (∀ i ∈ is, i = cur ∨ v.fatTable[i]? = some freeCluster) ∧
      (cur ∈ is ↔ v.fs.bytesPerCluster < bs.length ∧ v.fatFindFree ≠ none) := by
    intro hbs
    refine ⟨0, v, [], ?_, Patched.refl v, ?_, ?_⟩
    · cases n with
      | zero => simp [writeLoop, hbs]
      | succ n => simp [writeLoop, hbs]
    · intro i hi
      cases hi
    · simp [hbs]
  induction n generalizing v cur bs buffer with
  | zero =>
    apply hdone
    exact List.length_eq_zero_iff.1 (by omega)
  | succ n ih =>
    by_cases hbs : bs = []
    · exact hdone hbs
    have hpos : 0 < v.fs.bytesPerCluster := View.bytesPerCluster_pos (view_sized hs)
    obtain ⟨b, hload, hblen, _⟩ := loadCluster_spec bs hs hcur hbuf hpos
    have hmin : bs.take (min v.fs.bytesPerCluster bs.length) = bs.take v.fs.bytesPerCluster :=
      List.take_eq_take_iff.2 (by omega)
    have hnew : (splice b 0 (bs.take v.fs.bytesPerCluster)).length = 512 * v.fs.sectorsPerCluster := by
      rw [length_splice, hblen]
      rw [List.length_take, hblen, ← bytesPerCluster_eq hs]
      omega
    obtain ⟨u, hu, hview⟩ := fatWriteDataCluster_spec hs hcur hnew
    have hfs : u.fs = v.fs := congrArg View.fs hview
    have htable : u.fatTable = v.fatTable := congrArg View.fat hview
    have hfind : u.fatFindFree = v.fatFindFree := by rw [fatFindFree, fatFindFree, htable]
    have hdata := patched_fatWriteDataCluster hgeo (.inr hcur) hu
    obtain ⟨x, hx, hend⟩ := hlast
    rw [view_fat] at hx
    rw [writeLoop, if_neg hbs, hload]
    simp only [Nat.sub_zero, Option.bind_eq_bind, Option.bind_some, hmin, hu]
    by_cases hspan : v.fs.bytesPerCluster < bs.length
    · rw [Nat.min_eq_left hspan.le, if_pos hspan, htable, hx, Option.bind_some, if_pos hend]
      cases hfree : v.fatFindFree with
      | none =>
        refine ⟨v.fs.bytesPerCluster, u, [], by simp [appendCluster, hfind, hfree], hdata, ?_, by simp⟩
        intro i hi
        cases hi
      | some f =>
        obtain ⟨hfvalue, hf⟩ := fatFindFree_eq_some hfree
        have hsu : u.fs.Sound := hfs ▸ hs
        have hcuru : cur < u.fatTable.length := by rwa [htable]
        have hfreeu := hfind.trans hfree
        obtain ⟨t, ht, _, hviewt⟩ := appendCluster_spec hsu (hfs ▸ hgeo) hcuru hfreeu
        have hpatch := appendCluster_patched (hfs ▸ hgeo) hcuru hfreeu ht
        have hfst : t.fs = v.fs := hpatch.fs.trans hfs
        have htablet : t.fatTable = (v.fatTable.set cur (UInt16.ofNat f)).set f clusterChainEnd := by
          have hfat := congrArg View.fat hviewt
          rw [View.link, View.setFat_fat, View.setFat_fat, view_fat, view_fat, htable] at hfat
          exact hfat
        have hft : t.fatTable[f]? = some clusterChainEnd := by
          rw [htablet, List.getElem?_set_self (by rwa [List.length_set])]
        have hmul : (n + 1) * v.fs.bytesPerCluster = n * v.fs.bytesPerCluster + v.fs.bytesPerCluster := Nat.succ_mul ..
        have hrest : (bs.drop v.fs.bytesPerCluster).length ≤ n * t.fs.bytesPerCluster := by
          rw [hfst, List.length_drop]
          omega
        have hne : bs.drop v.fs.bytesPerCluster ≠ [] := by
          intro hnil
          have := congrArg List.length hnil
          rw [List.length_drop, List.length_nil] at this
          omega
        obtain ⟨k, w, is, hw, hpatched, hold, _⟩ := @ih t f (bs.drop v.fs.bytesPerCluster)
          (splice b 0 (bs.take v.fs.bytesPerCluster)) (hfst ▸ hs) (hfst ▸ hgeo)
          (List.getElem?_eq_some_iff.1 hft).1 ⟨_, hft, by decide⟩ (by rwa [hfst]) hrest (fun hnil => absurd hnil hne)
        refine ⟨v.fs.bytesPerCluster + k, w, [cur, f] ++ is, by simp [ht, hw], (hdata.trans hpatch).trans hpatched, ?_,
          by simp [hspan]⟩
        intro i hi
        rcases List.mem_append.1 hi with hi | hi
        · rcases List.mem_cons.1 hi with hic | hif
          · exact .inl hic
          · rw [List.mem_singleton] at hif
            exact .inr (hif ▸ hfvalue)
        · -- an entry that is free behind the new cluster was free before
          rcases hold i hi with hif | hifree
          · exact .inr (hif ▸ hfvalue)
          · by_cases hic : i = cur
            · exact .inl hic
            · right
              have hif : i ≠ f := by
                intro heq
                rw [heq, hft] at hifree
                exact absurd hifree (by decide)
              rwa [htablet, List.getElem?_set_ne (Ne.symm hif), List.getElem?_set_ne (Ne.symm hic)] at hifree
    · have hle := Nat.not_lt.1 hspan
      rw [Nat.min_eq_right hle, if_neg (Nat.lt_irrefl _)]
      refine ⟨bs.length, u, [], rfl, hdata, ?_, by simp [hspan]⟩
      intro i hi
      cases hi

/-! ### The new file -/

/-- Among the slots of `cs` the record `e` alone has its name. -/
def OnlyNamed (v : Volume) (cs : List Nat) (e : DirEntry) : Prop :=
  ∃ l ∈ v.view.locs cs, v.view.slot l = e ∧ ∀ l' ∈ v.view.locs cs, (v.view.slot l').nameStr = e.nameStr → l' = l

/-- A record stored in a slot of another name, under another name. -/
private theorem OnlyNamed.putSlot {cs : List Nat} {e r : DirEntry} {l : Loc} (h : OnlyNamed v cs e) (hs : v.fs.Sound)
    (hcs : ∀ c ∈ cs, c < v.fatTable.length) (hl : l ∈ v.view.locs cs) (hold : (v.view.slot l).nameStr ≠ e.nameStr)
    (hnew : r.nameStr ≠ e.nameStr) (hview : w.view = v.view.putSlot l r) : OnlyNamed w cs e := by
  obtain ⟨hc, hi⟩ := View.mem_locs.1 hl
  have hlocs : w.view.locs cs = v.view.locs cs := View.locs_congr (congrArg View.fs hview) cs
  have hself : w.view.slot l = r := by
    rw [hview]
    exact View.slot_putSlot_self (view_sized hs) r (hcs _ hc) hi
  have hother : ∀ l', l' ≠ l → w.view.slot l' = v.view.slot l' := by
    intro l' hne
    rw [hview]
    exact View.slot_putSlot_of_ne (view_sized hs) r (hcs _ hc) hi hne
  obtain ⟨l₀, hl₀, he, hunique⟩ := h
  have hne : l₀ ≠ l := by
    intro heq
    rw [← heq, he] at hold
    exact hold rfl
  refine ⟨l₀, hlocs ▸ hl₀, (hother l₀ hne).trans he, ?_⟩
  intro l' hl' hname
  by_cases hll : l' = l
  · rw [hll, hself] at hname
    exact absurd hname hnew
  · rw [hother l' hll] at hname
    exact hunique l' (hlocs ▸ hl') hname

/-- A record stored in an unused slot or in a new cluster of zeroes. -/
private theorem fatAddDirEntry_onlyNamed {cs : List Nat} {dir e : DirEntry} (hs : v.fs.Sound)
    (h : v.view.Chain dir.startCluster.toNat cs) (he : e.nameStr ≠ [])
    (hnone : ∀ l ∈ v.view.locs cs, (v.view.slot l).nameStr ≠ e.nameStr)
    (hadd : v.fatAddDirEntry dir e = some (true, w)) :
    ((∃ l ∈ v.view.locs cs, (v.view.slot l).unused) ∧ w.fatTable = v.fatTable ∧ OnlyNamed w cs e) ∨
      (¬ ∃ l ∈ v.view.locs cs, (v.view.slot l).unused) ∧ ∃ last g, cs.getLast? = some last ∧ v.fatFindFree = some g ∧
        w.view.fat = (v.view.extend last g).fat ∧ OnlyNamed w (cs ++ [g]) e := by
  obtain ⟨last, hlast⟩ := Option.ne_none_iff_exists'.1 fun h0 => h.ne_nil (List.getLast?_eq_none_iff.1 h0)
  have hspec := @fatAddDirEntry_spec v dir e cs last hs h hlast
  have hlt : ∀ c ∈ cs, c < v.fatTable.length := fun c hc => View.Chain.lt_length h hc
  cases hslot : v.firstSlot cs DirEntry.unused with
  | some l =>
    rw [hslot] at hspec
    obtain ⟨w', hw', hview⟩ := hspec
    rw [hadd, Option.some.injEq, Prod.mk.injEq] at hw'
    obtain ⟨_, rfl⟩ := hw'
    obtain ⟨hc, hi, hunused⟩ := firstSlot_eq_some hslot
    have hl : l ∈ v.view.locs cs := View.mem_locs.2 ⟨hc, hi⟩
    have hlocs : w.view.locs cs = v.view.locs cs := View.locs_congr (congrArg View.fs hview) cs
    refine .inl ⟨⟨l, hl, hunused⟩, congrArg View.fat hview, l, hlocs ▸ hl, ?_, ?_⟩
    · rw [hview]
      exact View.slot_putSlot_self (view_sized hs) e (hlt _ hc) hi
    · intro l' hl' hname
      by_contra hne
      rw [hview, View.slot_putSlot_of_ne (view_sized hs) e (hlt _ hc) hi hne] at hname
      exact hnone l' (hlocs ▸ hl') hname
  | none =>
    rw [hslot] at hspec
    have hfull : ¬ ∃ l ∈ v.view.locs cs, (v.view.slot l).unused := by
      intro hex
      obtain ⟨l, hl, hunused⟩ := hex
      exact List.find?_eq_none.1 hslot l hl hunused
    cases hfree : v.fatFindFree with
    | none =>
      rw [hfree] at hspec
      rw [hadd] at hspec
      cases hspec
    | some g =>
      rw [hfree] at hspec
      obtain ⟨w', hw', hview⟩ := hspec
      rw [hadd, Option.some.injEq, Prod.mk.injEq] at hw'
      obtain ⟨_, rfl⟩ := hw'
      obtain ⟨hg, hglt⟩ := fatFindFree_eq_some hfree
      have hgcs : g ∉ cs := View.Chain.not_mem_of_free h hg
      have hsized : (v.view.extend last g).Sized := (view_sized hs).extend last g
      have hlen : (v.view.extend last g).fat.length = v.fatTable.length := by
        show ((v.fatTable.set last _).set g _).length = _
        rw [List.length_set, List.length_set]
      have hzero : 0 < v.fs.slotsPerCluster := by
        have hone := hs.cluster
        rw [View.slotsPerCluster_eq hs]
        omega
      have hlocs : w.view.locs (cs ++ [g]) = v.view.locs (cs ++ [g]) := View.locs_congr (congrArg View.fs hview) _
      have hother : ∀ l', l' ≠ (g, 0) → w.view.slot l' = (v.view.extend last g).slot l' := by
        intro l' hne
        rw [hview]
        exact View.slot_putSlot_of_ne hsized e (by rw [hlen]; exact hglt) hzero hne
      refine .inr ⟨hfull, last, g, hlast, rfl, by rw [hview, View.putSlot_fat], (g, 0), ?_, ?_, ?_⟩
      · rw [hlocs, View.mem_locs]
        exact ⟨List.mem_append_right _ (List.mem_singleton_self g), hzero⟩
      · rw [hview]
        exact View.slot_putSlot_self hsized e (by rw [hlen]; exact hglt) hzero
      · intro l' hl' hname
        by_contra hne
        rw [hother l' hne] at hname
        rw [hlocs, View.locs_append, List.mem_append] at hl'
        rcases hl' with hl' | hl'
        · -- a slot of an old cluster
          have hlg : l'.1 ≠ g := by
            intro heq
            exact hgcs (heq ▸ (View.mem_locs.1 hl').1)
          have hdata : (v.view.extend last g).slot l' = v.view.slot l' := by
            rw [View.slot, View.slot]
            exact congrArg (fun d => slotAt d l'.2) (Function.update_of_ne hlg _ _)
          rw [hdata] at hname
          exact hnone l' hl' hname
        · -- a slot of the new cluster
          have hlg : l'.1 = g := List.mem_singleton.1 (View.mem_locs.1 hl').1
          have hdata : (v.view.extend last g).slot l' = DirEntry.zero := by
            rw [View.slot, hlg]
            refine (congrArg (fun d => slotAt d l'.2) (Function.update_self g _ _)).trans ?_
            exact View.slotAt_replicate _ _
          rw [hdata] at hname
          exact he (hname.symm.trans (by decide))

private theorem updateParentCount_onlyNamed {cs : List Nat} {p e : DirEntry} (hs : v.fs.Sound) (hgeo : Separated v.fs)
    (h : v.view.Owns none cs) (hp : p.name = (rootDir v.fs).name) (he : e.nameStr ≠ [tilde]) (honly : OnlyNamed v cs e)
    (hupdate : updateParentCount v [slash] p = some (.SUCCESS, w)) :
    DataOnly v w ∧ KeepsCopies v w ∧ OnlyNamed w cs e := by
  obtain ⟨r, b, x, hname, hstore, hcount, hview⟩ := updateParentCount_spec hs h hp
  rw [hcount] at hupdate
  cases hupdate
  refine ⟨dataOnly_fatUpdateDirEntry hgeo hstore, keepsCopies_fatUpdateDirEntry hgeo hstore, ?_⟩
  cases hfirst : v.firstSlot cs r.sameString with
  | none =>
    rw [hfirst] at hview
    obtain rfl : w = v := hview
    exact honly
  | some l =>
    rw [hfirst] at hview
    obtain ⟨hc, hi, hsame⟩ := firstSlot_eq_some hfirst
    have hslotname : (v.view.slot l).nameStr = [tilde] := by rw [DirEntry.nameStr_of_sameString hsame, hname]
    refine honly.putSlot hs (fun c hc => View.Chain.lt_length h hc) (View.mem_locs.2 ⟨hc, hi⟩) ?_ ?_ hview
    · rw [hslotname]
      exact Ne.symm he
    · rw [hname]
      exact Ne.symm he

/-- What a creation in the root leaves: the cluster `f` is the chain of the new file, and the root has the clusters `cs'`.
The first FAT has followed the table, and the others are as they were. -/
structure CreatedIn (v w : Volume) (cs cs' : List Nat) (f : Nat) (name : List UInt8) : Prop where
  free : v.fatFindFree = some f
  back : WritesBack v w
  copies : KeepsCopies v w
  root : w.view.Owns none cs'
  apart : f ∉ cs'
  data : fatGetFileData w (slash :: name) = some ⟨newEntry (subName name) (UInt16.ofNat f) false, rootDir w.fs⟩
  entry : w.fatTable[f]? = some clusterChainEnd
  inside : (∃ l ∈ v.view.locs cs, (v.view.slot l).unused) → w.fatTable = v.fatTable.set f clusterChainEnd
  grown : (¬ ∃ l ∈ v.view.locs cs, (v.view.slot l).unused) →
    ∃ g, g ≠ f ∧ v.fatTable[g]? = some freeCluster ∧ w.fatTable[g]? = some clusterChainEnd

private theorem fatCreateFile_createdIn {cs : List Nat} {name : List UInt8} (hs : v.fs.Sound) (hgeo : Separated v.fs)
    (h : v.view.Owns none cs) (hname : checkFileName name) (hlen : name.length ≤ filenameSize)
    (hcreate : fatCreateFile v (slash :: name) = some (.SUCCESS, w)) : ∃ f cs', CreatedIn v w cs cs' f name := by
  obtain ⟨_, _, hne, _, _, hnt⟩ := checkFileName_spec hname
  obtain ⟨f, u, x, hfree, hu, hadd, hcreate, hfresh⟩ := fatCreateFile_success hs h hname hlen hcreate
  obtain ⟨hf, hflt⟩ := fatFindFree_eq_some hfree
  obtain ⟨hstr, _⟩ := newEntry_spec (f := UInt16.ofNat f) hname hlen
  obtain ⟨u', hu', hviewu⟩ := fatUpdateChain_claim hs hf
  rw [hu] at hu'
  cases hu'
  have hfcs : f ∉ cs := View.Chain.not_mem_of_free h hf
  have hfsu : u.fs = v.fs := congrArg View.fs hviewu
  have htableu : u.fatTable = v.fatTable.set f clusterChainEnd := congrArg View.fat hviewu
  have hsu : u.fs.Sound := hfsu ▸ hs
  have hrootu : u.view.Chain (rootDir v.fs).startCluster.toNat cs := by
    rw [hviewu]
    exact View.Chain.claim h hf
  have hlocs : u.view.locs cs = v.view.locs cs := View.locs_congr hfsu cs
  have hslots : ∀ l ∈ v.view.locs cs, u.view.slot l = v.view.slot l := by
    intro l hl
    rw [hviewu]
    apply View.slot_claim_of_ne
    intro heq
    exact hfcs (heq ▸ (View.mem_locs.1 hl).1)
  have hunused : (∃ l ∈ u.view.locs cs, (u.view.slot l).unused) ↔ ∃ l ∈ v.view.locs cs, (v.view.slot l).unused := by
    rw [hlocs]
    constructor
    · intro hex
      obtain ⟨l, hl, hl'⟩ := hex
      exact ⟨l, hl, hslots l hl ▸ hl'⟩
    · intro hex
      obtain ⟨l, hl, hl'⟩ := hex
      exact ⟨l, hl, (hslots l hl).symm ▸ hl'⟩
  have hgeou : Separated u.fs := hfsu ▸ hgeo
  have hback := (writesBack_fatUpdateChain hgeo hu).trans (writesBack_fatAddDirEntry hgeou hadd)
  have hkeeps := (keepsCopies_fatUpdateChain hgeo hu).trans (keepsCopies_fatAddDirEntry hgeou hadd)
  obtain ⟨e, he⟩ : ∃ e, e = newEntry (subName name) (UInt16.ofNat f) false := ⟨_, rfl⟩
  rw [← he] at hadd hstr
  have hnew : ∀ l ∈ u.view.locs cs, (u.view.slot l).nameStr ≠ e.nameStr := by
    intro l hl hl'
    rw [hlocs] at hl
    rw [hslots l hl, hstr] at hl'
    exact hfresh l hl hl'
  have hfsx : x.fs = v.fs := hback.fs
  -- the count of the root is stored in the same way in both cases
  have hcount : ∀ cs', x.view.Owns none cs' → OnlyNamed x cs' e → DataOnly x w ∧ KeepsCopies x w ∧
      w.view.Owns none cs' ∧ fatGetFileData w (slash :: name) = some ⟨e, rootDir w.fs⟩ := by
    intro cs' hroot honly
    obtain ⟨hdata, hcopies, hname'⟩ := updateParentCount_onlyNamed (hfsx ▸ hs) (hfsx ▸ hgeo) hroot
      (by rw [hfsx]) (by rw [hstr]; exact hnt) honly hcreate
    have hrootw : w.view.Owns none cs' := View.Chain.congr hroot fun c _ => by rw [view_fat, view_fat, hdata.table]
    have hsw : w.fs.Sound := hdata.fs ▸ hfsx ▸ hs
    obtain ⟨l, hl, hslot, hunique⟩ := hname'
    refine ⟨hdata, hcopies, hrootw, ?_⟩
    have hattr : e.attr = 0 := by rw [he]; rfl
    refine fatGetFileData_root hsw hrootw hname hlen hl hslot hstr (by rw [DirEntry.isDirectory, hattr]; decide) ?_
    rw [← hstr]
    exact hunique
  have hfuse : u.fatTable[f]? = some clusterChainEnd := by rw [htableu, List.getElem?_set_self hflt]
  rcases fatAddDirEntry_onlyNamed hsu hrootu (by rw [hstr]; exact hne) hnew hadd with
    ⟨hex, htablex, honly⟩ | ⟨hfull, last, g, hlast, hfreeg, hfatx, honly⟩
  · have hrootx : x.view.Owns none cs := View.Chain.congr hrootu fun c _ => by rw [view_fat, view_fat, htablex]
    obtain ⟨hdata, hcopies, hrootw, hget⟩ := hcount cs hrootx honly
    refine ⟨f, cs, hfree, hback.trans hdata.writesBack, hkeeps.trans hcopies, hrootw, hfcs, he ▸ hget, ?_, ?_, ?_⟩
    · rw [hdata.table, htablex, hfuse]
    · intro _
      rw [hdata.table, htablex, htableu]
    · intro hfull
      exact absurd (hunused.1 hex) hfull
  · obtain ⟨hg, hglt⟩ := fatFindFree_eq_some hfreeg
    have hgf : g ≠ f := by
      intro heq
      rw [heq, hfuse] at hg
      exact absurd hg (by decide)
    have hgcs : g ∉ cs := View.Chain.not_mem_of_free hrootu hg
    have hgpos : 0 < g := Nat.pos_of_ne_zero fun h0 => hgcs (h0 ▸ hrootu.mem_head)
    have hlastmem := List.mem_of_getLast? hlast
    have hlastf : last ≠ f := by
      intro heq
      exact hfcs (heq ▸ hlastmem)
    have hlastg : last ≠ g := by
      intro heq
      exact hgcs (heq ▸ hlastmem)
    obtain ⟨hend, _, hkeep⟩ := View.getElem?_extend (s := u.view) hlastg (View.Chain.lt_length hrootu hlastmem) hglt
    have htablex : ∀ i : Nat, x.fatTable[i]? = (u.view.extend last g).fat[i]? := fun i => congrArg (·[i]?) hfatx
    have hrootx : x.view.Owns none (cs ++ [g]) :=
      View.Chain.congr (View.Chain.extend hrootu hlast hg hgpos (fatFindFree_lt hsu hfreeg)) fun c _ => htablex c
    obtain ⟨hdata, hcopies, hrootw, hget⟩ := hcount (cs ++ [g]) hrootx honly
    refine ⟨f, cs ++ [g], hfree, hback.trans hdata.writesBack, hkeeps.trans hcopies, hrootw, ?_, he ▸ hget, ?_, ?_, ?_⟩
    · rw [List.mem_append, List.mem_singleton, not_or]
      exact ⟨hfcs, Ne.symm hgf⟩
    · rw [hdata.table, htablex, hkeep f (Ne.symm hlastf) (Ne.symm hgf), view_fat, hfuse]
    · intro hex
      exact absurd (hunused.2 hex) hfull
    · intro _
      refine ⟨g, hgf, ?_, ?_⟩
      · rwa [htableu, List.getElem?_set_ne (Ne.symm hgf)] at hg
      · rw [hdata.table, htablex, hend]

/-- The loader's `fat_write` at offset 0 of a file whose chain is the cluster `f` alone. -/
private theorem fatWrite_patched {f : Nat} {cs : List Nat} {e p : DirEntry} (bs : List UInt8) (hs : v.fs.Sound)
    (hgeo : Separated v.fs) (hroot : v.view.Chain p.startCluster.toNat cs) (hf : f ∉ cs) (hpos : 0 < f)
    (hentry : v.fatTable[f]? = some clusterChainEnd) (hstart : e.startCluster.toNat = f) (hattr : e.attr = 0) :
    ∃ ret e' w is, fatWrite v e p 0 bs = some (ret, e', w) ∧ Patched v w is ∧
      (∀ i ∈ is, i = f ∨ v.fatTable[i]? = some freeCluster) ∧
      (f ∈ is ↔ v.fs.bytesPerCluster < bs.length ∧ v.fatFindFree ≠ none) := by
  have hfile : e.isDirectory = false := by
    rw [DirEntry.isDirectory, hattr]
    decide
  have hbpc : 0 < v.fs.bytesPerCluster := View.bytesPerCluster_pos (view_sized hs)
  have hne : e.startCluster ≠ 0 := by
    intro h0
    rw [h0] at hstart
    exact hpos.ne hstart
  have hfuel : bs.length ≤ (bs.length / v.fs.bytesPerCluster + 2) * v.fs.bytesPerCluster := by
    have := offset_fuel hbpc 0 bs.length
    omega
  obtain ⟨k, u, is, hloop, hpatch, htouched, hlinked⟩ := writeLoop_patched hs hgeo
    (List.getElem?_eq_some_iff.1 hentry).1 ⟨_, hentry, by decide⟩ (length_zeroBuffer hs) hfuel
  simp only [fatWrite, hfile, Bool.false_eq_true, ↓reduceIte, hbpc.ne', firstCluster, hne, ne_eq, not_false_eq_true,
    Nat.zero_div, writeSeek, hstart, Nat.zero_mod, Option.bind_eq_bind, Option.bind_some, hloop, Nat.zero_add]
  split
  · obtain ⟨r, hr⟩ : ∃ r : DirEntry, r = { e with fileSize := UInt32.ofNat (k % 2 ^ 32) } := ⟨_, rfl⟩
    rw [← hr]
    have hrootu : u.view.Chain p.startCluster.toNat cs := by
      apply View.Chain.congr hroot
      intro c hc
      rw [view_fat, view_fat, hpatch.other]
      intro hmem
      rcases htouched c hmem with hcf | hcfree
      · exact hf (hcf ▸ hc)
      · exact View.Chain.not_mem_of_free hroot hcfree hc
    have hzero : 0 ∈ r.toBytes := by
      obtain ⟨t, ht⟩ := (DirEntry.toBytes_eq_append_iff (e := r) r.noNul_nameStr r.length_nameStr_le).2
        ⟨rfl, fun _ => by rw [hr]; exact hattr⟩
      rw [ht]
      simp
    have hspec := @fatUpdateDirEntry_spec u r.toBytes p r cs r.sameString (hpatch.fs ▸ hs) hrootu fun l _ =>
      nameEquals_toBytes (by
        by_cases heq : u.view.slot l = r
        · exact .inr (heq ▸ hzero)
        · exact .inl heq)
    obtain ⟨b, w, hw⟩ : ∃ b w, u.fatUpdateDirEntry r.toBytes p r = some (b, w) := by
      cases hfirst : u.firstSlot cs r.sameString with
      | none =>
        rw [hfirst] at hspec
        exact ⟨_, _, hspec⟩
      | some l =>
        rw [hfirst] at hspec
        obtain ⟨w, hw, _⟩ := hspec
        exact ⟨_, _, hw⟩
    have hboth := hpatch.trans (patched_fatUpdateDirEntry (hpatch.fs ▸ hgeo) hw)
    rw [List.append_nil] at hboth
    exact ⟨_, r, w, is, by rw [hw]; rfl, hboth, htouched, hlinked⟩
  · exact ⟨_, e, u, is, rfl, hpatch, htouched, hlinked⟩

end Loader

/-- After the loader has created `/name` and written `bytes` to it, every FAT on the image is its `fat_table` exactly when
there is one FAT only, or when the root had an unused slot for the record and a second cluster was linked to the first
one. -/
theorem allSynced_load_iff {fresh disk : ByteMem} {v v₁ : Volume} {cs : List Nat} {name : List UInt8}
    (bytes : List UInt8) (hinit : Loader.fatInit fresh disk = some (some v)) (hgeo : Loadable v.fs)
    (hequal : ∀ j < v.fs.numFats, v.fatCopy j = v.fatCopy 0) (hroot : v.view.Owns none cs)
    (hname : checkFileName name) (hlen : name.length ≤ filenameSize)
    (hcreate : Loader.fatCreateFile v (slash :: name) = some (.SUCCESS, v₁)) :
    ∃ d ret e v₂, Loader.fatGetFileData v₁ (slash :: name) = some d ∧
      Loader.fatWrite v₁ d.fileEntry d.parentEntry 0 bytes = some (ret, e, v₂) ∧
      (v₂.AllSynced ↔ v.fs.numFats = 1 ∨ (∃ l ∈ v.view.locs cs, (v.view.slot l).unused) ∧
        v.fs.bytesPerCluster < bytes.length ∧ 2 ≤ v.view.freeCount) := by
  obtain ⟨hs, hsep⟩ := hgeo.sound
  obtain ⟨_, hsynced, _⟩ := Loader.fatInit_spec hinit hsep
  obtain ⟨f, cs', hcreated⟩ := Loader.fatCreateFile_createdIn hs hsep hroot hname hlen hcreate
  obtain ⟨hf, hflt⟩ := fatFindFree_eq_some hcreated.free
  have hfs : v₁.fs = v.fs := hcreated.back.fs
  have hfpos : 0 < f := by
    apply Nat.pos_of_ne_zero
    intro h0
    exact hcreated.apart (h0 ▸ hcreated.root.mem_head)
  have hroot₁ : v₁.view.Chain (rootDir v₁.fs).startCluster.toNat cs' := hcreated.root
  obtain ⟨ret, e, v₂, is, hwrite, hpatch, htouched, hlinked⟩ := Loader.fatWrite_patched bytes (hfs ▸ hs) (hfs ▸ hsep)
    hroot₁ hcreated.apart hfpos hcreated.entry (e := Loader.newEntry (subName name) (UInt16.ofNat f) false)
    (toNat_ofNat_of_free hs hcreated.free) rfl
  refine ⟨_, ret, e, v₂, hcreated.data, hwrite, ?_⟩
  -- before the write, the first FAT is the new table and the others are the old one
  have hfirst : v₁.copyWords 0 = v₁.fatTable := by
    rw [← fatCopy_eq_iff, fatCopy_zero]
    exact hcreated.back.synced hsynced
  have hbehind : ∀ j, 0 < j → j < v.fs.numFats → v₁.copyWords j = v.fatTable := by
    intro j hpos hj
    rw [copyWords, hcreated.copies.copies j hpos hj, ← copyWords, ← fatCopy_eq_iff, hequal j hj, fatCopy_zero]
    exact hsynced
  have hagree : v₂.AllSynced ↔ v.fs.numFats = 1 ∨ ∀ i, i ∉ is → v.fatTable[i]? = v₁.fatTable[i]? := by
    rw [hpatch.allSynced_iff, hfs]
    constructor
    · intro hall
      by_cases hone : v.fs.numFats = 1
      · exact .inl hone
      · right
        intro i hi
        have hfats := hs.fats
        rw [← hbehind 1 (by omega) (by omega)]
        exact hall 1 (by omega) i hi
    · intro hcond j hj i hi
      by_cases hj0 : j = 0
      · rw [hj0, hfirst]
      · rcases hcond with hone | hsame
        · omega
        · rw [hbehind j (Nat.pos_of_ne_zero hj0) hj]
          exact hsame i hi
  rw [hagree]
  apply or_congr_right
  have hfne : v.fatTable[f]? ≠ v₁.fatTable[f]? := by
    rw [hf, hcreated.entry]
    decide
  by_cases hslot : ∃ l ∈ v.view.locs cs, (v.view.slot l).unused
  · have htable := hcreated.inside hslot
    have hcount : v₁.view.freeCount + 1 = v.view.freeCount := by
      obtain ⟨_, hget⟩ := List.getElem?_eq_some_iff.1 hf
      have hpos : 0 < v.fatTable.count freeCluster := List.count_pos_iff.2 (hget ▸ List.getElem_mem hflt)
      have hend : clusterChainEnd ≠ freeCluster := by decide
      show v₁.fatTable.count freeCluster + 1 = v.fatTable.count freeCluster
      rw [htable, List.count_set hflt, hget]
      simp only [beq_self_eq_true, ↓reduceIte, beq_iff_eq, hend]
      omega
    have hfree : v₁.fatFindFree ≠ none ↔ 2 ≤ v.view.freeCount := by
      rw [ne_eq, fatFindFree_eq_none_iff]
      omega
    rw [hfs, hfree] at hlinked
    rw [← hlinked]
    constructor
    · intro hsame
      refine ⟨hslot, ?_⟩
      by_contra hmem
      exact hfne (hsame f hmem)
    · intro hcond i hi
      have hif : f ≠ i := by
        intro heq
        exact hi (heq ▸ hcond.2)
      rw [htable, List.getElem?_set_ne hif]
  · constructor
    · intro hsame
      -- the new cluster of the root was never patched
      obtain ⟨g, hgf, hg, hg₁⟩ := hcreated.grown hslot
      have hmem : g ∉ is := by
        intro hmem
        rcases htouched g hmem with heq | hfree
        · exact hgf heq
        · rw [hg₁] at hfree
          exact absurd hfree (by decide)
      have := hsame g hmem
      rw [hg, hg₁] at this
      exact absurd this (by decide)
    · intro hcond
      exact absurd hcond.1 hslot

/-! ### An image with two FATs -/

/-- A disk as `image`, with two FATs of one sector and an empty root. -/
def twoFatsDisk : ByteMem := fun a =>
  if a < 512 then
    if a < 510 then [0, 2, 1, 1, 0, 2, 16, 0, 0, 1, 0, 1, 0].getD (a - 11) 0 else if a = 510 then 0x55 else 0xAA
  else if a < 1536 then (([0xFFF8, 0xFFFF] : List UInt16).flatMap le16).getD (a % 512) 0
  else 0

/-- A file of one byte: its entry is set in the first FAT and free in the second one. -/
theorem not_allSynced_load : ∃ v v₁ v₂ d e, Loader.fatInit (fun _ => 0) twoFatsDisk = some (some v) ∧ Loadable v.fs ∧
    v.fatCopy 1 = v.fatCopy 0 ∧ v.view.WellFormed ∧ Loader.fatCreateFile v [slash, 0x61] = some (.SUCCESS, v₁) ∧
    Loader.fatGetFileData v₁ [slash, 0x61] = some d ∧
    Loader.fatWrite v₁ d.fileEntry d.parentEntry 0 [1] = some (1, e, v₂) ∧ v₂.fs.numFats = 2 ∧ ¬ v₂.AllSynced := by
  have hrun : ((fatInit (some fun _ => 0) twoFatsDisk).bind fun mounted => mounted.bind fun v =>
      (Loader.fatCreateFile v [slash, 0x61]).bind fun r₁ => (Loader.fatGetFileData r₁.2 [slash, 0x61]).bind fun d =>
      (Loader.fatWrite r₁.2 d.fileEntry d.parentEntry 0 [1]).map fun r₂ =>
        (([v.fs.bytesPerSector, v.fs.sectorsPerCluster, v.fs.reservedSectors, v.fs.numFats, v.fs.sectorsPerFat],
          v.view.isTree [(none, [0])] && decide (v.fatCopy 1 = v.fatCopy 0)), (r₁.1, r₂.1),
          ([r₂.2.2.fs.numFats, r₂.2.2.fs.reservedSectors, r₂.2.2.fs.sectorsPerFat],
            decide (r₂.2.2.disk 1028 = 0 ∧ r₂.2.2.fatTable[2]? = some 0xFFF8)))) =
      some (([512, 1, 1, 2, 1], true), (.SUCCESS, 1), ([2, 1, 1], true)) := by decide +kernel
  simp only [Option.bind_eq_some_iff, Option.map_eq_some_iff, Prod.mk.injEq, List.cons.injEq, and_true,
    Bool.and_eq_true, decide_eq_true_eq] at hrun
  obtain ⟨_, hinit, v, rfl, ⟨_, v₁⟩, hcreate, d, hdata, ⟨_, e, v₂⟩, hwrite,
    ⟨⟨hsector, hspc, hres, hfats, hspf⟩, htree, hequal⟩, ⟨rfl, rfl⟩, ⟨hfats₂, hres₂, hspf₂⟩, hbyte, hentry⟩ := hrun
  have hgeo : Loadable v.fs := ⟨hsector, hspc.ge, hres.ge, by rw [hfats]; decide, by rw [hspf]; decide⟩
  refine ⟨v, v₁, v₂, d, e, Loader.fatInit_of_kernel hinit hgeo.sound.2 hgeo.fat, hgeo, hequal,
    (View.wellFormed_of_isTree htree).1, hcreate, hdata, hwrite, hfats₂, ?_⟩
  intro hall
  have hcopy := hall 1 (by rw [hfats₂]; decide)
  rw [fatCopy_eq (by rw [hfats₂]; decide), hres₂, hspf₂] at hcopy
  obtain ⟨hlt, hget⟩ := List.getElem?_eq_some_iff.1 hentry
  have hhead := congrArg (fun l => (l.drop (2 * 2)).head?) hcopy
  simp only [drop_flatMap_le16, List.head?_drop] at hhead
  rw [List.drop_eq_getElem_cons hlt, hget, getElem?_readBytes _ _ (by decide)] at hhead
  have hvalue : v₂.disk 1028 = 0xF8 := Option.some.inj hhead
  rw [hbyte] at hvalue
  exact absurd hvalue (by decide)

/-- `allSynced_load_iff` on an image with two FATs and a file of two clusters. -/
theorem allSynced_load_iff_twoFatsDisk : ∃ v v₁ v₂ d ret e, Loader.fatInit (fun _ => 0) twoFatsDisk = some (some v) ∧
    v.fs.numFats = 2 ∧ Loader.fatCreateFile v [slash, 0x61] = some (.SUCCESS, v₁) ∧
    Loader.fatGetFileData v₁ [slash, 0x61] = some d ∧
    Loader.fatWrite v₁ d.fileEntry d.parentEntry 0 (List.replicate 600 7) = some (ret, e, v₂) ∧ v₂.AllSynced := by
  have hrun : ((fatInit (some fun _ => 0) twoFatsDisk).bind fun mounted => mounted.bind fun v =>
      (Loader.fatCreateFile v [slash, 0x61]).map fun r₁ =>
        ([v.fs.bytesPerSector, v.fs.sectorsPerCluster, v.fs.reservedSectors, v.fs.numFats, v.fs.sectorsPerFat],
          v.view.isChain 0 [0] && decide (v.fatCopy 1 = v.fatCopy 0), r₁.1,
          (v.view.locs [0]).any (fun l => (v.view.slot l).unused) && decide (2 ≤ v.view.freeCount))) =
      some ([512, 1, 1, 2, 1], true, .SUCCESS, true) := by decide +kernel
  simp only [Option.bind_eq_some_iff, Option.map_eq_some_iff, Prod.mk.injEq, List.cons.injEq, and_true,
    Bool.and_eq_true, List.any_eq_true, decide_eq_true_eq] at hrun
  obtain ⟨_, hinit, v, rfl, ⟨_, v₁⟩, hcreate, ⟨hsector, hspc, hres, hfats, hspf⟩, ⟨hchain, hequal⟩, rfl,
    hslot, hfree⟩ := hrun
  have hgeo : Loadable v.fs := ⟨hsector, hspc.ge, hres.ge, by rw [hfats]; decide, by rw [hspf]; decide⟩
  have hmounted : Loader.fatInit (fun _ => 0) twoFatsDisk = some (some v) :=
    Loader.fatInit_of_kernel hinit hgeo.sound.2 hgeo.fat
  have hcopies : ∀ j < v.fs.numFats, v.fatCopy j = v.fatCopy 0 := by
    intro j hj
    rw [hfats] at hj
    obtain rfl | rfl : j = 0 ∨ j = 1 := by omega
    · rfl
    · exact hequal
  have hlong : v.fs.bytesPerCluster < (List.replicate 600 (7 : UInt8)).length := by
    rw [Fat16Fs.bytesPerCluster, hsector, hspc, List.length_replicate]
    decide
  obtain ⟨d, ret, e, v₂, hdata, hwrite, hiff⟩ := allSynced_load_iff (List.replicate 600 7) hmounted hgeo hcopies
    (View.chain_of_isChain hchain) (by decide) (by decide) hcreate
  exact ⟨v, v₁, v₂, d, ret, e, hmounted, hfats, hcreate, hdata, hwrite, hiff.2 (.inr ⟨hslot, hlong, hfree⟩)⟩

end DBolOS.Fat
