import DBolOS.Fat.RoundTrip

/-!
# Running out of clusters

`fat_allocate_space` hangs the free clusters behind a chain one by one and fails when it finds no more.  It gives none of
them back, so a failing call leaves the volume as it was exactly when there was no free cluster at all
(`unchanged_iff`).
-/

namespace DBolOS.Fat

open Linked Volume

namespace View

/-- The number of free entries of the table. -/
def freeCount (s : View) : Nat := s.fat.count freeCluster

theorem ofNat_ne_free {f : Nat} (hpos : 0 < f) (hlen : f < 0xFFF8) : UInt16.ofNat f ≠ freeCluster := by
  intro h0
  have hnat : (UInt16.ofNat f).toNat = freeCluster.toNat := by rw [h0]
  rw [UInt16.toNat_ofNat', show freeCluster.toNat = 0 from rfl] at hnat
  omega

/-- Hanging a free cluster behind a chain takes one free entry. -/
private theorem freeCount_extend {s : View} {last f : Nat} {x : UInt16} (hlast : s.fat[last]? = some x)
    (hx : x ≠ freeCluster)
    (hf : s.fat[f]? = some freeCluster) (htwo : 2 ≤ f) (hlen : f < 0xFFF8) :
    (s.extend last f).freeCount + 1 = s.freeCount := by
  obtain ⟨hl, rfl⟩ := List.getElem?_eq_some_iff.1 hlast
  obtain ⟨hflt, hfree⟩ := List.getElem?_eq_some_iff.1 hf
  have hne : last ≠ f := by
    rintro rfl
    exact hx hfree
  have hlink := ofNat_ne_free (by omega) hlen
  have hend : clusterChainEnd ≠ freeCluster := by decide
  have hpos : 0 < s.fat.count freeCluster := List.count_pos_iff.2 (hfree ▸ List.getElem_mem hflt)
  have hfirst : (s.fat.set last (UInt16.ofNat f)).count freeCluster = s.fat.count freeCluster := by
    rw [List.count_set hl]
    simp [hx, hlink]
  show ((s.fat.set last (UInt16.ofNat f)).set f clusterChainEnd).count freeCluster + 1 = s.fat.count freeCluster
  rw [List.count_set (by simpa using hflt), hfirst, List.getElem_set_ne hne, hfree]
  simp only [beq_self_eq_true, ↓reduceIte, beq_iff_eq, hend]
  omega

end View

namespace Volume

variable {v w : Volume} {ch : Option Loc → List Nat} {n : Option Loc}

theorem fatFindFree_eq_none_iff : v.fatFindFree = none ↔ v.view.freeCount = 0 := by
  rw [fatFindFree, List.findIdx?_eq_none_iff, View.freeCount, List.count_eq_zero, view_fat]
  simp only [beq_eq_false_iff_ne]
  constructor
  · intro h hmem
    exact h _ hmem rfl
  · rintro h x hx rfl
    exact h hx

/-- `fat_allocate_space` succeeds when there are as many free clusters as asked for, and takes what there is. -/
theorem fatAllocateSpace_count (amount : Nat) {e : DirEntry} {b : Bool} (hs : v.fs.Sound) (h : v.view.Tree ch)
    (hn : View.Node v.view n) (hstart : e.startCluster = (v.view.dirent n).startCluster)
    (halloc : fatAllocateSpace amount v e = some (b, w)) :
    (b = true ↔ amount ≤ v.view.freeCount) ∧ w.view.freeCount + min amount v.view.freeCount = v.view.freeCount := by
  induction amount generalizing v ch with
  | zero =>
    obtain ⟨rfl, rfl⟩ := Prod.mk.inj (Option.some.inj halloc)
    simp
  | succ amount ih =>
    cases hfree : v.fatFindFree with
    | none =>
      have hzero := fatFindFree_eq_none_iff.1 hfree
      simp only [fatAllocateSpace, hfree, Option.some.injEq, Prod.mk.injEq] at halloc
      obtain ⟨rfl, rfl⟩ := halloc
      simp [hzero]
    | some f =>
      obtain ⟨hf, hflt⟩ := fatFindFree_eq_some hfree
      have hlen := fatFindFree_lt hs hfree
      have hchain := h.owns n hn
      rw [View.Owns, ← hstart] at hchain
      obtain ⟨last, hlast⟩ := Option.ne_none_iff_exists'.1 fun h0 => hchain.ne_nil (List.getLast?_eq_none_iff.1 h0)
      obtain ⟨x, hx, hxfree⟩ := View.Chain.getElem? hchain (List.mem_of_getLast? hlast)
      obtain ⟨u, hu, hview⟩ := fatUpdateChain_spec hs hchain hlast hflt
      obtain ⟨htree, hnode, hdirent⟩ := h.extend hn hlast hf hlen
      have hcount := View.freeCount_extend hx hxfree hf (h.two_le_of_free hf) hlen
      rw [← hview] at htree hnode hdirent hcount
      have hfs : u.fs = v.fs := congrArg View.fs hview
      simp only [fatAllocateSpace, hfree, hu, Option.bind_eq_bind, Option.bind_some] at halloc
      obtain ⟨hb, hleft⟩ := ih (hfs ▸ hs) htree ((hnode n).2 hn) (by rw [hdirent n hn, hstart]) halloc
      exact ⟨hb.trans (by omega), by omega⟩

end Volume

/-! ### Growing a file -/

/-- The number of clusters that growing a file of `count` clusters to `size` bytes asks for, a difference in 32 bits. -/
def Fat16Fs.growAmount (fs : Fat16Fs) (count size : Nat) : Nat := (size / fs.bytesPerCluster + 1 + 2 ^ 32 - count) % 2 ^ 32

/-- What a call leaves when it changes nothing for the file of slot `l`: the table in memory and on disk, the record
and the contents, and what a later write does. -/
structure Volume.Unchanged (v v' : Volume) (l : Loc) : Prop where
  table : v'.fatTable = v.fatTable
  onDisk : ataRead v'.disk v.fs.reservedSectors v.fs.sectorsPerFat = ataRead v.disk v.fs.reservedSectors v.fs.sectorsPerFat
  entry : v'.view.slot l = v.view.slot l
  contents : ∀ offset size, v'.fatRead (v.view.slot l) offset size = v.fatRead (v.view.slot l) offset size
  later : ∀ p offset bs, v'.fatWrite (v.view.slot l) p offset bs = v.fatWrite (v.view.slot l) p offset bs

private theorem Volume.Unchanged.refl (v : Volume) (l : Loc) : v.Unchanged v l :=
  ⟨rfl, rfl, rfl, fun _ _ => rfl, fun _ _ _ => rfl⟩

section

variable {v : Volume} {ch : Option Loc → List Nat} {l : Loc} {e : DirEntry}

/-- Growing a file without enough free clusters fails, and changes nothing when there is none. -/
private theorem fatTruncate_shortage (hs : v.fs.Sound) (h : v.view.Tree ch) (hl : View.Node v.view (some l))
    (he : v.view.slot l = e) (hfile : e.isDirectory = false) (p : DirEntry) {size : Nat} (hgrow : e.fileSize.toNat < size)
    (hshort : v.view.freeCount < v.fs.growAmount (ch (some l)).length size) :
    ∃ v', v.fatTruncate ⟨e, p⟩ size = some (-1, ⟨e, p⟩, v') ∧ (v.Unchanged v' l ↔ v.fatFindFree = none) := by
  have hpos : v.fs.bytesPerCluster ≠ 0 := (View.bytesPerCluster_pos (view_sized hs)).ne'
  have hchain : v.view.Chain e.startCluster.toNat (ch (some l)) := by
    have := h.owns _ hl
    rwa [View.Owns, View.dirent_some, he] at this
  have hstart : e.startCluster = (v.view.dirent (some l)).startCluster := by rw [View.dirent_some, he]
  obtain ⟨amount, hamount⟩ : ∃ d, d = v.fs.growAmount (ch (some l)).length size := ⟨_, rfl⟩
  rw [← hamount] at hshort
  obtain ⟨b, w, ds, halloc, -, -⟩ := fatAllocateSpace_spec amount hs h hl hstart
  obtain ⟨hb, hleft⟩ := fatAllocateSpace_count amount hs h hl hstart halloc
  obtain rfl : b = false := by
    rw [← Bool.not_eq_true, hb]
    omega
  refine ⟨w, ?_, ?_⟩
  · have hask : (size / v.fs.bytesPerCluster + 1 + 2 ^ 32 - (ch (some l)).length) % 2 ^ 32 = amount := hamount.symm
    rw [fatTruncate, if_neg (by simp [hfile]), if_neg (Nat.not_lt.2 hgrow.le), if_pos hgrow, truncateGrow,
      fatGetClusterAmount_spec hchain, Option.bind_eq_bind, Option.bind_some, if_neg hpos]
    simp only [hask, halloc, Option.bind_eq_bind, Option.bind_some]
  · constructor
    · intro hsame
      -- an entry that was taken is not free any more
      have hfat : w.view.freeCount = v.view.freeCount := by rw [View.freeCount, view_fat, hsame.table]; rfl
      rw [fatFindFree_eq_none_iff]
      omega
    · intro hnone
      have hw : w = v := by
        cases amount with
        | zero => omega
        | succ amount =>
          simp only [fatAllocateSpace, hnone, Option.some.injEq, Prod.mk.injEq, true_and] at halloc
          exact halloc.symm
      rw [hw]
      exact .refl v l

private theorem fatWrite_shortage (hs : v.fs.Sound) (h : v.view.Tree ch) (hl : View.Node v.view (some l))
    (he : v.view.slot l = e) (hfile : e.isDirectory = false) (p : DirEntry) {offset : Nat} {bs : List UInt8}
    (hgrow : e.fileSize.toNat < (offset + bs.length) % 2 ^ 32)
    (hshort : v.view.freeCount < v.fs.growAmount (ch (some l)).length ((offset + bs.length) % 2 ^ 32)) :
    ∃ v', v.fatWrite e p offset bs = some (-1, e, v') ∧ (v.Unchanged v' l ↔ v.fatFindFree = none) := by
  have hpos : v.fs.bytesPerCluster ≠ 0 := (View.bytesPerCluster_pos (view_sized hs)).ne'
  obtain ⟨v', htruncate, hiff⟩ := fatTruncate_shortage hs h hl he hfile p hgrow hshort
  refine ⟨v', ?_, hiff⟩
  have hensure : v.ensureSize fatTruncate ⟨e, p⟩ ((offset + bs.length) % 2 ^ 32) = some (-1, ⟨e, p⟩, v') := by
    rw [ensureSize, if_pos hgrow, htruncate]
  rw [fatWrite, fatWriteWith, if_neg (by simp [hfile]), if_neg hpos]
  simp only [hensure, Option.bind_eq_bind, Option.bind_some]
  rfl

end

/-- A call of `fat_truncate` or `fat_write` that fails for want of free clusters leaves the file as it was exactly when
there was no free cluster at all. -/
theorem unchanged_iff {v : Volume} {l : Loc} {ds : List Nat} {e : DirEntry} (hs : v.fs.Sound) (hwf : v.view.WellFormed)
    (hl : View.Node v.view (some l)) (he : v.view.slot l = e) (hfile : e.isDirectory = false)
    (hds : v.view.Chain e.startCluster.toNat ds) (p : DirEntry) :
    (∀ size : UInt32, e.fileSize < size → v.view.freeCount < v.fs.growAmount ds.length size.toNat →
      ∃ v', v.fatTruncate ⟨e, p⟩ size.toNat = some (-1, ⟨e, p⟩, v') ∧ (v.Unchanged v' l ↔ v.fatFindFree = none)) ∧
    ∀ (offset : UInt32) (bs : List UInt8), e.fileSize.toNat < (offset.toNat + bs.length) % 2 ^ 32 →
      v.view.freeCount < v.fs.growAmount ds.length ((offset.toNat + bs.length) % 2 ^ 32) →
      ∃ v', v.fatWrite e p offset.toNat bs = some (-1, e, v') ∧ (v.Unchanged v' l ↔ v.fatFindFree = none) := by
  obtain ⟨ch, h⟩ := View.wellFormed_iff.1 hwf
  obtain rfl : ch (some l) = ds := h.chain_eq hl he hds
  constructor
  · intro size hgrow hshort
    exact fatTruncate_shortage hs h hl he hfile p (UInt32.lt_iff_toNat_lt.1 hgrow) hshort
  · intro offset bs hgrow hshort
    exact fatWrite_shortage hs h hl he hfile p hgrow hshort

/-- A file of four bytes in the cluster 2 of a disk on which no cluster but 3 may be free. -/
def smallFile : DirEntry :=
  { DirEntry.zero with name := DirEntry.nameOf [0x61], startCluster := 2, fileSize := 4 }

def filledDisk (x : UInt16) : ByteMem := fun a =>
  if 520 ≤ a ∧ a < 1024 then 0xF7
  else image [0xFFF8, 0xFFFF, 0xFFF8, x] (fun c => if c = 0 then smallFile.toBytes else []) a

/-- What `unchanged_iff` asks of the file, checked on a mounted disk. -/
theorem smallFile_mounted {v : Volume} (hsector : v.fs.bytesPerSector = 512) (hspc : v.fs.sectorsPerCluster = 1)
    (hfats : v.fs.numFats = 1) (hentries : v.fs.totalFatEntries = 256) (hslots : v.fs.slotsPerCluster = 16)
    (htree : v.view.isTree [(none, [0]), (some (0, 0), [2])] = true) (hroot : v.view.isChain 0 [0] = true)
    (hslot : v.view.slot (0, 0) = smallFile) : v.fs.Sound ∧ v.view.WellFormed ∧ View.Node v.view (some (0, 0)) := by
  have hmem : ((0, 0) : Loc) ∈ v.view.locs [0] := by
    rw [View.mem_locs, view_fs, hslots]
    decide
  refine ⟨⟨hsector, hspc.ge, hfats.ge, by rw [hentries]; decide⟩, (View.wellFormed_of_isTree htree).1, ?_⟩
  exact .child .root (rootDir_isDirectory v.fs) (View.chain_of_isChain hroot) hmem (by rw [hslot]; decide +kernel)

/-- Growing the file to 1600 bytes asks for three clusters: the free one stays hung behind the file, which cannot be
written at its end any more. -/
theorem not_unchanged : ∃ v file v', fatInit (some fun _ => 0) (filledDisk 0) = some (some v) ∧ v.view.WellFormed ∧
    View.Node v.view (some (0, 0)) ∧ v.view.slot (0, 0) = smallFile ∧ v.view.freeCount = 1 ∧
    v.fatTruncate ⟨smallFile, rootDir v.fs⟩ 1600 = some (-1, file, v') ∧ ¬v.Unchanged v' (0, 0) ∧
    (v.fatWrite smallFile (rootDir v.fs) 4 [1]).map Prod.fst = some 1 ∧
    (v'.fatWrite smallFile (rootDir v.fs) 4 [1]).map Prod.fst = some (-1) := by
  have hrun : ((fatInit (some fun _ => 0) (filledDisk 0)).bind fun mounted => mounted.bind fun v =>
      (v.fatTruncate ⟨smallFile, rootDir v.fs⟩ 1600).map fun r =>
        ([v.fs.bytesPerSector, v.fs.sectorsPerCluster, v.fs.numFats, v.fs.totalFatEntries, v.fs.slotsPerCluster],
          v.view.isTree [(none, [0]), (some (0, 0), [2])] && v.view.isChain 0 [0], v.view.slot (0, 0),
          decide (v.view.freeCount = 1 ∧ r.1 = -1 ∧ v.fatTable[3]? = some 0 ∧ r.2.2.fatTable[3]? = some 0xFFF8 ∧
            (v.fatWrite smallFile (rootDir v.fs) 4 [1]).map Prod.fst = some 1 ∧
            (r.2.2.fatWrite smallFile (rootDir v.fs) 4 [1]).map Prod.fst = some (-1)))) =
      some ([512, 1, 1, 256, 16], true, smallFile, true) := by
    decide +kernel
  simp only [Option.bind_eq_some_iff, Option.map_eq_some_iff, Prod.mk.injEq, List.cons.injEq, and_true,
    Bool.and_eq_true, decide_eq_true_eq] at hrun
  obtain ⟨_, hinit, v, rfl, ⟨_, file, v'⟩, htruncate, ⟨hsector, hspc, hfats, hentries, hslots⟩, ⟨htree, hroot⟩, hslot,
    hfree, rfl, hbefore, hafter, hwrite, hlater⟩ := hrun
  obtain ⟨-, hwf, hl⟩ := smallFile_mounted hsector hspc hfats hentries hslots htree hroot hslot
  refine ⟨v, file, v', hinit, hwf, hl, hslot, hfree, htruncate, ?_, ?_, ?_⟩
  · intro hsame
    rw [hsame.table, hbefore] at hafter
    exact absurd (Option.some.inj hafter) (by decide)
  · exact Option.map_eq_some_iff.2 hwrite
  · exact Option.map_eq_some_iff.2 hlater

/-- `unchanged_iff` when no cluster is free. -/
theorem unchanged_of_full : ∃ v v', fatInit (some fun _ => 0) (filledDisk 0xFFF7) = some (some v) ∧
    v.fatTruncate ⟨smallFile, rootDir v.fs⟩ 1600 = some (-1, ⟨smallFile, rootDir v.fs⟩, v') ∧ v.Unchanged v' (0, 0) := by
  have hmount : ((fatInit (some fun _ => 0) (filledDisk 0xFFF7)).bind fun mounted => mounted.map fun v =>
        ([v.fs.bytesPerSector, v.fs.sectorsPerCluster, v.fs.numFats, v.fs.totalFatEntries, v.fs.slotsPerCluster],
          v.view.isTree [(none, [0]), (some (0, 0), [2])] && v.view.isChain 0 [0] && v.view.isChain 2 [2],
          v.view.slot (0, 0), v.view.freeCount, v.fs.growAmount 1 1600)) =
      some ([512, 1, 1, 256, 16], true, smallFile, 0, 3) := by
    decide +kernel
  simp only [Option.bind_eq_some_iff, Option.map_eq_some_iff, Prod.mk.injEq, List.cons.injEq, and_true,
    Bool.and_eq_true] at hmount
  obtain ⟨_, hinit, v, rfl, ⟨hsector, hspc, hfats, hentries, hslots⟩, ⟨⟨htree, hroot⟩, hchain⟩, hslot, hfree, hask⟩ :=
    hmount
  obtain ⟨hs, hwf, hl⟩ := smallFile_mounted hsector hspc hfats hentries hslots htree hroot hslot
  obtain ⟨v', htruncate, hiff⟩ := (unchanged_iff hs hwf hl hslot (by decide) (View.chain_of_isChain hchain)
    (rootDir v.fs)).1 1600 (by decide) (by rw [hfree]; exact hask ▸ (by decide : 0 < 3))
  exact ⟨v, v', hinit, htruncate, hiff.2 (fatFindFree_eq_none_iff.2 hfree)⟩

end DBolOS.Fat
