import DBolOS.Fat.Shortage

/-!
# Ranges near 2^32

Offset and size of a read or a write are 32-bit values of the caller, and their sum wraps around.  A read whose end
wraps is not cut at the end of the file but at the end of its clusters (`readsRange_iff`); a write whose end wraps may
find the chain too short for its range (`staysOnChain_iff`).
-/

namespace DBolOS.Fat

open ByteMem Volume

/-! ### Reading -/

/-- A count of bytes is returned as an `int32_t`. -/
theorem bmod_eq_iff {n : Nat} (h : n < 2 ^ 32) : Int.bmod n (2 ^ 32) = n ↔ n < 2 ^ 31 := by
  rw [Int.bmod_def]
  split <;> omega

namespace Volume

/-- The entries of `fat_table` that the walk of `fat_write` to its first cluster reads. -/
def walkIndices (v : Volume) : Nat → Nat → List Nat
  | 0, _ => []
  | n + 1, currentCluster =>
    if clusterChainEnd.toNat ≤ currentCluster then []
    else
      match v.fatTable[currentCluster]? with
      | some x => currentCluster :: v.walkIndices n x.toNat
      | none => [currentCluster]

/-- The clusters that the loop of `fat_write` transfers; it reads the entries of those that another one follows. -/
def loopClusters (v : Volume) : Nat → Nat → Nat → Nat → List Nat
  | 0, _, _, _ => []
  | n + 1, currentCluster, clusterOffset, size =>
    if size = 0 then []
    else
      let bytesToWrite := min (v.fs.bytesPerCluster - clusterOffset) size
      if bytesToWrite < size then
        match v.fatTable[currentCluster]? with
        | some x => currentCluster :: v.loopClusters n x.toNat 0 (size - bytesToWrite)
        | none => [currentCluster]
      else [currentCluster]

variable {v : Volume} {start : Nat} {cs : List Nat}

/-- The walk reads no other entries. -/
theorem writeSeek_congr {w : Volume} {n c : Nat} (h : ∀ i ∈ v.walkIndices n c, w.fatTable[i]? = v.fatTable[i]?) :
    w.writeSeek n c = v.writeSeek n c := by
  induction n generalizing c with
  | zero => rfl
  | succ n ih =>
    rw [walkIndices] at h
    rw [writeSeek, writeSeek]
    split
    · rfl
    · rename_i hend
      rw [if_neg hend] at h
      cases hx : v.fatTable[c]? with
      | none =>
        rw [hx] at h
        rw [(h c (List.mem_singleton_self c)).trans hx]
        rfl
      | some x =>
        rw [hx] at h
        rw [(h c List.mem_cons_self).trans hx]
        exact ih fun i hi => h i (List.mem_cons_of_mem _ hi)

private theorem loopClusters_disk (d : ByteMem) (n c o size : Nat) :
    ({ v with disk := d } : Volume).loopClusters n c o size = v.loopClusters n c o size := by
  induction n generalizing c o size with
  | zero => rfl
  | succ n ih => simp only [loopClusters, ih]

/-- The loop uses the cluster it is at when there are bytes left. -/
private theorem mem_loopClusters {n c o size : Nat} (hsize : size ≠ 0) : c ∈ v.loopClusters (n + 1) c o size := by
  rw [loopClusters, if_neg hsize]
  dsimp only
  split
  · split <;> simp
  · simp

section Loop

variable {u w : Volume} {n c o : Nat} {buffer clusterBuffer : List UInt8}

/-- What is left to the loop behind its first cluster. -/
private theorem loopClusters_rest (hne : buffer ≠ []) (hmore : min (v.fs.bytesPerCluster - o) buffer.length < buffer.length)
    {x : UInt16} (hx : v.fatTable[c]? = some x) : v.loopClusters (n + 1) c o buffer.length =
      c :: v.loopClusters n x.toNat 0 (buffer.drop (min (v.fs.bytesPerCluster - o) buffer.length)).length := by
  rw [loopClusters, if_neg (mt List.eq_nil_of_length_eq_zero hne)]
  dsimp only
  rw [if_pos hmore, hx, List.length_drop]

/-- The loop reads no other entries. -/
theorem writeLoop_congr (hfs : u.fs = v.fs) (hdisk : u.disk = v.disk)
    (h : ∀ i ∈ v.loopClusters n c o buffer.length, u.fatTable[i]? = v.fatTable[i]?) :
    (writeLoop n u c o buffer clusterBuffer).map Volume.disk = (writeLoop n v c o buffer clusterBuffer).map Volume.disk := by
  induction n generalizing u v c o buffer clusterBuffer with
  | zero =>
    unfold writeLoop
    split
    · exact congrArg some hdisk
    · rfl
  | succ n ih =>
    obtain ⟨fs, table, disk, hlength⟩ := u
    obtain rfl : fs = v.fs := hfs
    obtain rfl : disk = v.disk := hdisk
    unfold writeLoop
    by_cases hne : buffer = []
    · rw [if_pos hne, if_pos hne]
      rfl
    rw [if_neg hne, if_neg hne]
    show Option.map Volume.disk (v.loadCluster c o buffer.length clusterBuffer >>= _) = _
    cases v.loadCluster c o buffer.length clusterBuffer with
    | none => rfl
    | some b =>
      simp only [Option.bind_eq_bind, Option.bind_some, fatWriteDataCluster, clusterSector]
      cases ataWrite v.disk _ v.fs.sectorsPerCluster _ with
      | none => rfl
      | some d =>
        simp only [Option.bind_some]
        by_cases hmore : min (v.fs.bytesPerCluster - o) buffer.length < buffer.length
        · rw [if_pos hmore, if_pos hmore]
          have hc : table[c]? = v.fatTable[c]? := h c (mem_loopClusters (mt List.eq_nil_of_length_eq_zero hne))
          cases hx : v.fatTable[c]? with
          | none =>
            rw [hc, hx]
            rfl
          | some x =>
            rw [hc, hx, Option.bind_some, Option.bind_some]
            refine @ih { v with disk := d } ⟨v.fs, table, d, hlength⟩ _ _ _ _ rfl rfl fun i hi => ?_
            rw [loopClusters_disk] at hi
            refine h i ?_
            rw [loopClusters_rest hne hmore hx]
            exact List.mem_cons_of_mem _ hi
        · rw [if_neg hmore, if_neg hmore]
          rfl

/-- The loop writes no sectors of other clusters. -/
theorem writeLoop_frame (hloop : writeLoop n v c o buffer clusterBuffer = some w) {a : Nat}
    (ha : ∀ d ∈ v.loopClusters n c o buffer.length, a < ataAddr (v.clusterSector d) ∨
      ataAddr (v.clusterSector d) + 512 * v.fs.sectorsPerCluster ≤ a) : w.disk a = v.disk a := by
  induction n generalizing v c o buffer clusterBuffer with
  | zero =>
    unfold writeLoop at hloop
    split at hloop
    · cases hloop
      rfl
    · cases hloop
  | succ n ih =>
    unfold writeLoop at hloop
    split at hloop
    · cases hloop
      rfl
    rename_i hne
    obtain ⟨b, -, hloop⟩ := Option.bind_eq_some_iff.1 hloop
    obtain ⟨v₁, hwrite, hloop⟩ := Option.bind_eq_some_iff.1 hloop
    obtain ⟨d, hd, hv₁⟩ := Option.bind_eq_some_iff.1 hwrite
    cases hv₁
    obtain ⟨-, rfl⟩ := ataWrite_eq_some hd
    have hfirst := ha c (mem_loopClusters (mt List.eq_nil_of_length_eq_zero hne))
    have hkept : ∀ bs : List UInt8, (v.disk.writeBytes (ataAddr (v.clusterSector c))
        (bs.take (512 * v.fs.sectorsPerCluster))) a = v.disk a := by
      intro bs
      refine writeBytes_outside _ (hfirst.imp id fun hle => ?_)
      have := List.length_take_le (512 * v.fs.sectorsPerCluster) bs
      omega
    split at hloop
    · rename_i hmore
      obtain ⟨x, hx, hloop⟩ := Option.bind_eq_some_iff.1 hloop
      refine (ih hloop fun e he => ?_).trans (hkept _)
      rw [loopClusters_disk] at he
      refine ha e ?_
      rw [loopClusters_rest hne hmore hx]
      exact List.mem_cons_of_mem _ he
    · cases hloop
      exact hkept _

end Loop

end Volume

/-! ### The chain that a write finds -/

section

variable {v w : Volume} {ch : Option Loc → List Nat} {q : Option Loc} {l : Loc} {e p : DirEntry} {size : Nat}

end

end DBolOS.Fat
