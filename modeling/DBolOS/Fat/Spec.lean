import DBolOS.Fat.View

/-!
# The faithful model acts on the view

One lemma for each primitive and each loop of the model: on a sound geometry it succeeds, and the view of the volume
changes by the store or write that the function is about.
-/

namespace DBolOS.Fat

open ByteMem

namespace Volume

/-- The contents of a data cluster. -/
def data (v : Volume) (c : Nat) : List UInt8 := ataRead v.disk (v.clusterSector c) v.fs.sectorsPerCluster

def view (v : Volume) : View := ⟨v.fs, v.fatTable, fun c => if c < v.fatTable.length then v.data c else []⟩

variable {v w : Volume}

@[simp] theorem view_fs (v : Volume) : v.view.fs = v.fs := rfl

@[simp] theorem view_fat (v : Volume) : v.view.fat = v.fatTable := rfl

theorem view_data {c : Nat} (hc : c < v.fatTable.length) : v.view.data c = v.data c := if_pos hc

theorem view_eq {s : View} (hfs : w.fs = s.fs) (hfat : w.fatTable = s.fat)
    (hdata : ∀ c, c < s.fat.length → w.data c = s.data c) (hout : ∀ c, s.fat.length ≤ c → s.data c = []) :
    w.view = s := by
  obtain ⟨fs, fat, d⟩ := s
  simp only at hfs hfat hdata hout
  subst hfs hfat
  simp only [view, View.mk.injEq, true_and]
  funext c
  split
  · rename_i hc
    exact hdata c hc
  · rename_i hc
    exact (hout c (Nat.not_lt.1 hc)).symm

/-! ### Transfers -/

private theorem length_table (hs : v.fs.Sound) : v.fatTable.length = 256 * v.fs.sectorsPerFat := by
  rw [v.fatTable_length, Fat16Fs.totalFatEntries, hs.sector]
  omega

theorem bytesPerCluster_eq (hs : v.fs.Sound) : v.fs.bytesPerCluster = 512 * v.fs.sectorsPerCluster := by
  rw [Fat16Fs.bytesPerCluster, hs.sector]

/-- The sectors of a cluster lie behind the FATs and in the range of the driver. -/
theorem clusterSector_sound {c : Nat} (hs : v.fs.Sound) (hc : c < v.fatTable.length) :
    v.clusterSector c = c * v.fs.sectorsPerCluster + v.fs.rootDirStart ∧ v.clusterSector c < 2 ^ 29 ∧
      v.fs.reservedSectors + v.fs.sectorsPerFat ≤ v.fs.rootDirStart := by
  have hN := hs.entries
  rw [← v.fatTable_length] at hN
  have hspc := v.fs.sectorsPerCluster_lt
  have hres := v.fs.reservedSectors_lt
  have hfat : v.fs.numFats * v.fs.sectorsPerFat ≤ 2 ^ 8 * 2 ^ 16 :=
    Nat.mul_le_mul v.fs.numFats_lt.le v.fs.sectorsPerFat_lt.le
  have hdata : c * v.fs.sectorsPerCluster ≤ 2 ^ 16 * 2 ^ 8 := Nat.mul_le_mul (by omega) hspc.le
  have hone := Nat.le_mul_of_pos_left v.fs.sectorsPerFat hs.fats
  have hlt : c * v.fs.sectorsPerCluster + v.fs.rootDirStart < 2 ^ 29 := by
    unfold Fat16Fs.rootDirStart
    omega
  unfold clusterSector
  rw [Nat.mod_eq_of_lt (by omega)]
  refine ⟨rfl, hlt, ?_⟩
  unfold Fat16Fs.rootDirStart
  omega

theorem length_data (v : Volume) (c : Nat) : (v.data c).length = 512 * v.fs.sectorsPerCluster := by
  simp [data, ataRead]

/-- Ranges of `k` at different multiples of `k` are apart. -/
theorem mul_apart {a b : Nat} (k : Nat) (hne : a ≠ b) : a * k + k ≤ b * k ∨ b * k + k ≤ a * k := by
  rcases Nat.lt_or_gt_of_ne hne with h | h
  · left
    rw [← Nat.succ_mul]
    exact Nat.mul_le_mul_right k h
  · right
    rw [← Nat.succ_mul]
    exact Nat.mul_le_mul_right k h

theorem fatReadDataCluster_spec {c : Nat} {buffer : List UInt8} (hc : c < v.fatTable.length)
    (hlen : buffer.length = 512 * v.fs.sectorsPerCluster) :
    v.fatReadDataCluster c buffer = some (v.view.data c) := by
  have hdata : (ataRead v.disk (v.clusterSector c) v.fs.sectorsPerCluster).length = 512 * v.fs.sectorsPerCluster :=
    v.length_data c
  simp only [fatReadDataCluster, view_data hc, data, hdata, hlen, le_refl, ↓reduceIte, splice, List.take_zero,
    List.nil_append]
  rw [List.drop_eq_nil_of_le (by omega), List.append_nil]

theorem fatWriteDataCluster_spec {c : Nat} {buffer : List UInt8} (hs : v.fs.Sound) (hc : c < v.fatTable.length)
    (hlen : buffer.length = 512 * v.fs.sectorsPerCluster) :
    ∃ w, v.fatWriteDataCluster c buffer = some w ∧ w.view = v.view.write c buffer := by
  obtain ⟨hsec, hlt, _⟩ := clusterSector_sound hs hc
  refine ⟨{ v with disk := v.disk.writeBytes (ataAddr (v.clusterSector c)) buffer }, ?_, ?_⟩
  · rw [fatWriteDataCluster, ataWrite, if_pos hlen.ge, List.take_of_length_le hlen.le]
    rfl
  refine view_eq rfl rfl ?_ ?_
  · intro c' hc'
    simp only [View.write_fat, view_fat] at hc'
    obtain ⟨hsec', hlt', _⟩ := clusterSector_sound hs hc'
    rw [View.write_data]
    by_cases heq : c' = c
    · subst heq
      rw [Function.update_self]
      refine Eq.trans ?_ (readBytes_write_self v.disk (ataAddr (v.clusterSector c')) buffer)
      rw [hlen]
      rfl
    · rw [Function.update_of_ne heq, view_data hc']
      refine readBytes_write_disjoint v.disk ?_
      show ataAddr (v.clusterSector c') + 512 * v.fs.sectorsPerCluster ≤ ataAddr (v.clusterSector c) ∨
        ataAddr (v.clusterSector c) + buffer.length ≤ ataAddr (v.clusterSector c')
      rw [ataAddr_of_lt hlt, ataAddr_of_lt hlt', hsec, hsec', hlen]
      have hapart := mul_apart v.fs.sectorsPerCluster heq
      omega
  · intro c' hc'
    simp only [View.write_fat, view_fat] at hc'
    rw [View.write_data, Function.update_of_ne (by omega)]
    exact if_neg (by omega)

/-- A store into the table and the write of its sector. -/
private theorem storeFat_spec {i : Nat} {x : UInt16} (hs : v.fs.Sound) (hi : i < v.fatTable.length) :
    ∃ u w, v.storeFat i x = some u ∧ u.writeFatSector i = some w ∧ w.view = v.view.setFat i x := by
  have hlen := length_table hs
  have hN := hs.entries
  rw [← v.fatTable_length] at hN
  have hres := v.fs.reservedSectors_lt
  obtain ⟨u, hu⟩ : ∃ u, v.storeFat i x = some u := ⟨_, if_pos hi⟩
  obtain ⟨_, hfs, htable, hdisk⟩ := storeFat_eq_some hu
  obtain ⟨sector, hsector⟩ : ∃ sector, sector =
    (u.fatTable.drop (i * 2 / u.fs.bytesPerSector * u.fs.bytesPerSector / 2)).flatMap le16 := ⟨_, rfl⟩
  obtain ⟨disk, hdisk'⟩ : ∃ disk, disk =
    u.disk.writeBytes (ataAddr (u.fs.reservedSectors + i * 2 / u.fs.bytesPerSector)) (sector.take (512 * 1)) :=
      ⟨_, rfl⟩
  have hlong : 512 * 1 ≤ sector.length := by
    rw [hsector, length_flatMap_le16, List.length_drop, htable, List.length_set, hfs, hs.sector]
    omega
  have hwrite : u.writeFatSector i = some { u with disk := disk } := by
    rw [writeFatSector, ← hsector, ataWrite, if_pos hlong, hdisk']
    rfl
  refine ⟨u, _, hu, hwrite, view_eq hfs htable ?_ ?_⟩
  · intro c hc
    simp only [View.setFat_fat, view_fat, List.length_set] at hc
    obtain ⟨hsec, hlt, hbehind⟩ := clusterSector_sound hs hc
    rw [View.setFat_data, view_data hc]
    have hcs : ∀ d : ByteMem, Volume.data { u with disk := d } c =
        d.readBytes (ataAddr (v.clusterSector c)) (512 * v.fs.sectorsPerCluster) := by
      intro d
      simp only [data, clusterSector, hfs, ataRead]
    rw [hcs, hdisk', hdisk, hfs, hs.sector]
    refine readBytes_write_disjoint v.disk (.inr ?_)
    rw [List.length_take, ataAddr_of_lt hlt, ataAddr_of_lt (by omega), hsec]
    omega
  · intro c hc
    simp only [View.setFat_fat, view_fat, List.length_set] at hc
    exact if_neg (by omega)

/-! ### Walks along a chain -/

/-- What a chain says about the entry of its first cluster. -/
theorem chain_cases {start : Nat} {cs : List Nat} (h : v.view.Chain start cs) :
    (cs = [start] ∧ ∃ x, v.fatTable[start]? = some x ∧ isEndOfClusterChain x = true) ∨
      ∃ x t, cs = start :: t ∧ v.fatTable[start]? = some x ∧ isEndOfClusterChain x = false ∧ x ≠ freeCluster ∧
        v.view.Chain x.toNat t := by
  cases h with
  | last h => exact .inl ⟨rfl, h⟩
  | cons hnext h =>
    obtain ⟨x, hx, hend, hfree, rfl⟩ := View.next_eq_some hnext
    exact .inr ⟨x, _, rfl, hx, hend, hfree, h⟩

/-- Walks have fuel for every chain. -/
theorem length_le_walkFuel {start : Nat} {cs : List Nat} (h : v.view.Chain start cs) : cs.length ≤ v.walkFuel :=
  (View.Chain.length_le h).trans (Nat.le_succ _)

theorem getIthCluster_spec {start : Nat} {cs : List Nat} (h : v.view.Chain start cs) (i : Nat) :
    v.getIthCluster start i = some cs[i]? := by
  induction i generalizing start cs with
  | zero =>
    obtain ⟨t, rfl⟩ := h.exists_cons
    rfl
  | succ i ih =>
    rcases chain_cases h with ⟨rfl, x, hx, hend⟩ | ⟨x, t, rfl, hx, hend, hfree, ht⟩
    · simp [getIthCluster, hx, hend]
    · simp [getIthCluster, hx, hend, hfree, ih ht]

theorem lastOfChain_spec {start n : Nat} {cs : List Nat} (hs : v.fs.Sound) (h : v.view.Chain start cs)
    (hn : cs.length ≤ n) : v.lastOfChain n start = some cs.getLast? := by
  induction n generalizing start cs with
  | zero => exact absurd h.length_pos (by omega)
  | succ n ih =>
    rcases chain_cases h with ⟨rfl, x, hx, hend⟩ | ⟨x, t, rfl, hx, hend, hfree, ht⟩
    · simp [lastOfChain, hx, hend]
    · have hin : x.toNat < v.fs.numFats * v.fs.sectorsPerFat * v.fs.bytesPerSector / 2 := by
        have hlt : x.toNat < v.fs.totalFatEntries := v.fatTable_length ▸ View.Chain.lt_length ht ht.mem_head
        refine hlt.trans_le (Nat.div_le_div_right ?_)
        exact Nat.mul_le_mul_right _ (Nat.le_mul_of_pos_left _ hs.fats)
      have hlast : (start :: t).getLast? = t.getLast? := List.getLast?_cons_of_ne_nil ht.ne_nil
      simp only [List.length_cons] at hn
      rw [hlast, ← ih ht (by omega)]
      simp [lastOfChain, hx, hend, hfree, Nat.not_le.2 hin]

private theorem clusterAmountFrom_spec {start n : Nat} {cs : List Nat} (h : v.view.Chain start cs)
    (hn : cs.length ≤ n) :
    v.clusterAmountFrom n start = some cs.length := by
  induction n generalizing start cs with
  | zero => exact absurd h.length_pos (by omega)
  | succ n ih =>
    rcases chain_cases h with ⟨rfl, x, hx, hend⟩ | ⟨x, t, rfl, hx, hend, hfree, ht⟩
    · simp [clusterAmountFrom, hx, hend]
    · simp only [List.length_cons] at hn
      simp [clusterAmountFrom, hx, hend, hfree, ih ht (by omega)]

theorem fatGetClusterAmount_spec {e : DirEntry} {cs : List Nat} (h : v.view.Chain e.startCluster.toNat cs) :
    v.fatGetClusterAmount e = some cs.length :=
  clusterAmountFrom_spec h (length_le_walkFuel h)

private theorem freeChainLoop_spec {start n : Nat} {cs : List Nat} (hs : v.fs.Sound) (h : v.view.Chain start cs)
    (hn : cs.length ≤ n) : ∃ w, freeChainLoop n v start = some w ∧ w.view = v.view.freeAll cs := by
  induction n generalizing v start cs with
  | zero => exact absurd h.length_pos (by omega)
  | succ n ih =>
    have hstart : start < v.fatTable.length := View.Chain.lt_length h h.mem_head
    obtain ⟨u, w, hu, hw, hview⟩ := storeFat_spec (x := freeCluster) hs hstart
    rcases chain_cases h with ⟨rfl, x, hx, hend⟩ | ⟨x, t, rfl, hx, hend, hfree, ht⟩
    · refine ⟨w, ?_, hview⟩
      simp [freeChainLoop, hx, hu, hw, hend]
    · have hnodup := Linked.Chain.nodup v.view.terminates h
      have hsw : w.fs.Sound := by
        have : w.fs = v.fs := congrArg View.fs hview
        rwa [this]
      have ht' : w.view.Chain x.toNat t := by
        refine View.Chain.congr ht fun c hc => ?_
        have hne : start ≠ c := by
          rintro rfl
          exact (List.nodup_cons.1 hnodup).1 hc
        rw [hview, View.getElem?_setFat, if_neg (fun hand => hne hand.1)]
      simp only [List.length_cons] at hn
      obtain ⟨w', hw', hview'⟩ := ih hsw ht' (by omega)
      refine ⟨w', ?_, by rw [hview', hview]; rfl⟩
      simp [freeChainLoop, hx, hu, hw, hend, hfree, hw']

theorem fatFreeChain_spec {start : Nat} {cs : List Nat} (hs : v.fs.Sound) (h : v.view.Chain start cs) :
    ∃ w, v.fatFreeChain start = some w ∧ w.view = v.view.freeAll cs :=
  freeChainLoop_spec hs h (length_le_walkFuel h)

theorem fatFindFree_eq_some {n : Nat} (h : v.fatFindFree = some n) :
    v.fatTable[n]? = some freeCluster ∧ n < v.fatTable.length := by
  obtain ⟨hn, hfree, _⟩ := List.findIdx?_eq_some_iff_getElem.1 h
  rw [beq_iff_eq] at hfree
  exact ⟨List.getElem?_eq_some_iff.2 ⟨hn, hfree⟩, hn⟩

/-! ### Extending a chain -/

theorem length_zeroBuffer (hs : v.fs.Sound) : v.zeroBuffer.length = 512 * v.fs.sectorsPerCluster := by
  rw [zeroBuffer, List.length_replicate, bytesPerCluster_eq hs]

private theorem fatUpdateChain_of_last {start last n : Nat} (hs : v.fs.Sound)
    (hlast : v.lastOfChain v.walkFuel start = some (some last)) (hl : last < v.fatTable.length)
    (hn : n < v.fatTable.length) :
    ∃ w, v.fatUpdateChain start n = some w ∧ w.view = v.view.extend last n := by
  obtain ⟨u1, w1, hu1, hw1, hview1⟩ := storeFat_spec (x := UInt16.ofNat n) hs hl
  have hfs1 : w1.fs = v.fs := congrArg View.fs hview1
  have hlen1 : w1.fatTable.length = v.fatTable.length := by
    rw [w1.fatTable_length, hfs1, v.fatTable_length]
  obtain ⟨u2, w2, hu2, hw2, hview2⟩ := storeFat_spec (v := w1) (x := clusterChainEnd) (hfs1 ▸ hs) (hlen1 ▸ hn)
  have hfs2 : w2.fs = v.fs := (congrArg View.fs hview2).trans hfs1
  have hlen2 : w2.fatTable.length = v.fatTable.length := by
    rw [w2.fatTable_length, hfs2, v.fatTable_length]
  have hzero : w2.zeroBuffer = v.zeroBuffer := by rw [zeroBuffer, zeroBuffer, hfs2]
  obtain ⟨w3, hw3, hview3⟩ := fatWriteDataCluster_spec (v := w2) (hfs2 ▸ hs) (hlen2 ▸ hn)
    (length_zeroBuffer (hfs2 ▸ hs))
  refine ⟨w3, ?_, ?_⟩
  · simp [fatUpdateChain, hlast, hu1, hw1, hu2, hw2, hw3]
  · rw [hview3, hview2, hview1, hzero]
    rfl

/-- A cluster hung behind a chain. -/
theorem fatUpdateChain_spec {start last n : Nat} {cs : List Nat} (hs : v.fs.Sound) (h : v.view.Chain start cs)
    (hlast : cs.getLast? = some last) (hn : n < v.fatTable.length) :
    ∃ w, v.fatUpdateChain start n = some w ∧ w.view = v.view.extend last n := by
  refine fatUpdateChain_of_last hs ?_ (View.Chain.lt_length h (List.mem_of_getLast? hlast)) hn
  rw [lastOfChain_spec hs h (length_le_walkFuel h), hlast]

/-- A free cluster hung behind itself becomes a chain of its own. -/
theorem fatUpdateChain_claim {n : Nat} (hs : v.fs.Sound) (hn : v.fatTable[n]? = some freeCluster) :
    ∃ w, v.fatUpdateChain n n = some w ∧ w.view = v.view.claim n := by
  have hlt : n < v.fatTable.length := (List.getElem?_eq_some_iff.1 hn).1
  have hlast : v.lastOfChain v.walkFuel n = some (some n) := by simp [walkFuel, lastOfChain, hn]
  obtain ⟨w, hw, hview⟩ := fatUpdateChain_of_last hs hlast hlt hlt
  refine ⟨w, hw, hview.trans ?_⟩
  simp [View.extend, View.claim, View.setFat, View.zeroes, View.write]

end Volume

end DBolOS.Fat
