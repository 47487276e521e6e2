import DBolOS.Fat.Creation
import DBolOS.Fat.Growth

/-!
# Creations that fail

`fat_create` undoes what it has done when the record finds no slot, and reports nothing when it finds no cluster: the
index of the entry that it then takes is `0xFFFF`, which is no index of the table.  The claim of the cluster and its undoing
write the sector of its entry, so that this sector has to be on disk what it is in memory (`atomic_iff`).
-/

namespace DBolOS.Fat

open ByteMem

/-! ### What a creation leaves when it fails -/

/-- The table in memory and on disk and the clusters of the directories are the same. -/
structure Volume.SameDirectories (v v' : Volume) : Prop where
  table : v'.fatTable = v.fatTable
  onDisk : v'.fatSectors = v.fatSectors
  clusters : ∀ n cs, View.Node v.view n → (v.view.dirent n).isDirectory → v.view.Owns n cs →
    ∀ c ∈ cs, v'.data c = v.data c

private theorem Volume.SameDirectories.refl (v : Volume) : v.SameDirectories v := ⟨rfl, rfl, fun _ _ _ _ _ _ _ => rfl⟩

/-- A creation that fails changes nothing, and fails for want of a cluster with the code for that. -/
def Volume.Atomic (v : Volume) (stale : ByteMem) (path : List UInt8)
    (create : ByteMem → List UInt8 → Option (Int × Volume)) : Prop :=
  (∀ r v', create stale path = some (r, v') → r ≠ 0 → v.SameDirectories v') ∧
    (v.AsksForCluster stale path → v.fatFindFree = none → ∃ v', create stale path = some (CANT_ALLOCATE_SPACE, v'))

namespace Volume

variable {v : Volume} {ch : Option Loc → List Nat} {f : Nat} {r : DirEntry} {stale : ByteMem} {path : List UInt8}

/-- A cluster that is claimed and freed again leaves the table and the directories as they were, and the sector of its
entry on disk as it is in memory. -/
private theorem undoCreate_sameDirectories {u : Volume} {e : DirEntry} (hs : v.fs.Sound) (h : v.view.Tree ch)
    (hfree : v.fatFindFree = some f) (hstart : e.startCluster = UInt16.ofNat f) (hu : v.fatUpdateChain f f = some u)
    (hview : u.view = v.view.claim f) :
    ∃ v', u.undoCreate e = some (GENERAL_ERROR, v') ∧
      (v.SameDirectories v' ↔ v.diskSector (f / 256) = v.tableSector (f / 256)) := by
  obtain ⟨hf, hlt⟩ := fatFindFree_eq_some hfree
  have hfs : u.fs = v.fs := congrArg View.fs hview
  have hchain : u.view.Chain f [f] := by
    rw [hview]
    exact View.chain_claim hf
  obtain ⟨w, hw, hwview⟩ := fatFreeChain_spec (hfs ▸ hs : u.fs.Sound) hchain
  have hstart' : e.startCluster.toNat = f := by rw [hstart, toNat_ofNat_of_free hs hfree]
  have hundo : u.undoCreate e = some (GENERAL_ERROR, w) := by
    rw [undoCreate, hstart', hw]
    rfl
  -- the entry had the value that the release stores
  have htable : w.fatTable = v.fatTable := by
    have hfat := congrArg View.fat hwview
    rw [hview] at hfat
    simp only [view_fat, View.freeAll, List.foldl_cons, List.foldl_nil, View.setFat_fat, View.claim, View.write_fat,
      List.set_set] at hfat
    rw [hfat]
    obtain ⟨hlt', hat⟩ := List.getElem?_eq_some_iff.1 hf
    rw [← hat, List.set_getElem_self]
  have hrewrites : Rewrites v w [f] := by
    have hlast : v.lastOfChain v.walkFuel f = some (some f) := by simp [walkFuel, lastOfChain, hf]
    obtain ⟨u', hu', hclaim⟩ := rewrites_fatUpdateChain hs hlast hlt hlt
    rw [hu] at hu'
    obtain rfl := Option.some.inj hu'
    obtain ⟨w', hw', hreleased⟩ := fatFreeChain_released (hfs ▸ hs.sector) hchain
    rw [hw] at hw'
    obtain rfl := Option.some.inj hw'
    exact (hclaim.trans hreleased.rewrites).congr (by simp)
  have hk : f / 256 < v.fs.sectorsPerFat := by
    have := v.fatTable_length
    rw [Fat16Fs.totalFatEntries, hs.sector] at this
    omega
  have hsector : w.diskSector (f / 256) = v.tableSector (f / 256) := by
    rw [hrewrites.written _ hk ⟨f, List.mem_singleton_self f, rfl⟩, tableSector, tableSector, htable]
  refine ⟨w, hundo, fun hsame => ?_, fun hsame => ⟨htable, ?_, ?_⟩⟩
  · rw [← hsector, diskSector_eq hk, diskSector_eq (hrewrites.fs ▸ hk), hsame.onDisk]
  · apply eq_of_blocks (m := 512) (n := v.fs.sectorsPerFat) (by omega)
    · rw [fatSectors, hrewrites.fs]
      exact length_readBytes _ _ _
    · exact length_readBytes _ _ _
    · intro k hk'
      rw [← diskSector_eq hk', ← diskSector_eq (hrewrites.fs ▸ hk')]
      by_cases hkf : f / 256 = k
      · rw [← hkf, hsector, hsame]
      · exact hrewrites.kept k hk' (by simpa using hkf)
  · intro n cs hn _ hcs c hc
    obtain rfl := View.owns_functional hcs (h.owns n hn)
    have hcf : c ≠ f := by
      rintro rfl
      exact h.not_mem_of_free hn hf hc
    have hlt : c < v.fatTable.length := h.lt_length hn hc
    have hdata := congrFun (congrArg View.data hwview) c
    rw [View.freeAll_data, hview, View.claim, View.write_data, Function.update_of_ne hcf, View.setFat_data,
      view_data hlt, view_data (by rw [htable]; exact hlt)] at hdata
    exact hdata

/-- A creation that finds no free cluster is not atomic. -/
private theorem not_atomic_of_full {stale : ByteMem} {path : List UInt8} {isDirectory : Bool} (hs : v.fs.Sound)
    (hasks : v.AsksForCluster stale path) (hfree : v.fatFindFree = none) :
    ¬v.Atomic stale path (fun stale path => v.fatCreate stale path isDirectory) := by
  rintro ⟨-, hshort⟩
  obtain ⟨v', hcall⟩ := hshort hasks hfree
  dsimp only at hcall
  rw [fatCreate_eq_none hs hasks hfree] at hcall
  cases hcall

private theorem atomic_of_not_asks {isDirectory : Bool} (hasks : ¬v.AsksForCluster stale path) :
    v.Atomic stale path (fun stale path => v.fatCreate stale path isDirectory) := by
  refine ⟨fun r v' hcall _ => ?_, fun h => absurd h hasks⟩
  rw [(fatCreate_of_not_asks hasks hcall).2]
  exact .refl v

/-- There is a free cluster, and room for the record or a sector of the FAT on disk that is the one in memory. -/
def LeavesAsIs (v : Volume) (r : DirEntry) : Prop :=
  ∃ f, v.fatFindFree = some f ∧ ((∀ cs, v.view.Chain r.startCluster.toNat cs → v.HasRoom cs) ∨
    v.diskSector (f / 256) = v.tableSector (f / 256))

/-- `atomic_iff` for either kind. -/
private theorem atomic_iff_leavesAsIs {directory : List UInt8} {p : DirEntry} {isDirectory : Bool} (hs : v.fs.Sound)
    (hwf : v.view.WellFormed) (hin : v.InDirectory stale path directory r p) :
    v.Atomic stale path (fun stale path => v.fatCreate stale path isDirectory) ↔
      (v.AsksForCluster stale path → v.LeavesAsIs r) := by
  by_cases hasks : v.AsksForCluster stale path
  · obtain ⟨ch, h⟩ := View.wellFormed_iff.1 hwf
    obtain ⟨q, hq⟩ := hin.leads.standsFor
    obtain ⟨_, -, hto⟩ := hin.above
    obtain ⟨n, hn⟩ := hto.standsFor
    obtain ⟨name, hlets⟩ := letsCreate_of_asks hs hin hasks
    rw [forall_prop_of_true hasks]
    cases hfree : v.fatFindFree with
    | none =>
      refine iff_of_false (not_atomic_of_full hs hasks hfree) ?_
      rintro ⟨f, hf, -⟩
      rw [hfree] at hf
      cases hf
    | some f =>
      have hchain : ∀ cs, v.view.Chain r.startCluster.toNat cs ↔ cs = ch q := fun cs =>
        ⟨fun hcs => Linked.Chain.functional v.view.terminates hcs (hq.chain h), fun heq => heq ▸ hq.chain h⟩
      simp only [LeavesAsIs, hfree, Option.some.injEq, exists_eq_left', hchain, forall_eq]
      rcases fatCreate_cases isDirectory hs h hlets hq hn hfree rfl with
        ⟨hfull, u, hu, hview, heq⟩ | ⟨hroom, -, w, -, -, -, heq, -⟩
      · obtain ⟨w, hundo, hsame⟩ := @undoCreate_sameDirectories v ch f u
          (newEntry (subName name) (UInt16.ofNat f) isDirectory) hs h hfree rfl hu hview
        rw [hundo] at heq
        rw [or_iff_right hfull, ← hsame]
        refine ⟨fun hatomic => hatomic.1 _ _ heq (by decide), fun hsame => ⟨fun r' v' hcall _ => ?_, fun _ hnone => ?_⟩⟩
        · dsimp only at hcall
          rw [heq] at hcall
          obtain ⟨-, rfl⟩ := Prod.mk.inj (Option.some.inj hcall)
          exact hsame
        · rw [hfree] at hnone
          cases hnone
      · refine iff_of_true ⟨fun r' v' hcall hr => ?_, fun _ hnone => ?_⟩ (.inl hroom)
        · dsimp only at hcall
          rw [heq] at hcall
          exact absurd (Prod.mk.inj (Option.some.inj hcall)).1.symm hr
        · rw [hfree] at hnone
          cases hnone
  · exact iff_of_true (atomic_of_not_asks hasks) fun h => absurd h hasks

end Volume

/-- In a directory that the path leads to, a creation that asks for a cluster is atomic exactly when it finds one, and
room for the record unless the sector of the FAT is on disk what it is in memory.  One that does not ask is atomic at every
path, and one that asks and finds no cluster at no path. -/
theorem atomic_iff {v : Volume} (hs : v.fs.Sound) (hwf : v.view.WellFormed) (stale : ByteMem) (path : List UInt8) :
    (∀ directory r p, v.InDirectory stale path directory r p →
      (v.Atomic stale path (fun stale path => v.fatCreateFile stale path) ↔
          (v.AsksForCluster stale path → v.LeavesAsIs r)) ∧
        (v.Atomic stale path (fun stale path => v.fatCreateDirectory stale path) ↔
          (v.AsksForCluster stale path → v.LeavesAsIs r))) ∧
    (¬v.AsksForCluster stale path → v.Atomic stale path (fun stale path => v.fatCreateFile stale path) ∧
      v.Atomic stale path (fun stale path => v.fatCreateDirectory stale path)) ∧
    (v.AsksForCluster stale path → v.fatFindFree = none →
      ¬v.Atomic stale path (fun stale path => v.fatCreateFile stale path) ∧
        ¬v.Atomic stale path (fun stale path => v.fatCreateDirectory stale path)) := by
  refine ⟨fun directory r p hin => ⟨?_, ?_⟩, fun hasks => ⟨?_, ?_⟩, fun hasks hfree => ⟨?_, ?_⟩⟩
  · exact Volume.atomic_iff_leavesAsIs hs hwf hin
  · exact Volume.atomic_iff_leavesAsIs hs hwf hin
  · exact Volume.atomic_of_not_asks hasks
  · exact Volume.atomic_of_not_asks hasks
  · exact Volume.not_atomic_of_full hs hasks hfree
  · exact Volume.not_atomic_of_full hs hasks hfree

/-- What the creation of an entry of the root meets on a mounted disk. -/
theorem filledDisk_creates {x : UInt16} {free : Option Nat} {name : List UInt8} (hname : checkFileName name = true)
    (hlen : name.length ≤ filenameSize)
    (hmount : ((fatInit (some fun _ => 0) (filledDisk x)).bind fun mounted => mounted.map fun v =>
        ([v.fs.bytesPerSector, v.fs.sectorsPerCluster, v.fs.numFats, v.fs.totalFatEntries, v.fs.slotsPerCluster,
            v.fs.reservedSectors, v.fs.rootDirStart],
          v.view.isTree [(none, [0]), (some (0, 0), [2])] && v.view.isChain 0 [0], v.view.slot (0, 0),
          decide (v.fatFindDirEntry (subName name) (rootDir v.fs) = some none ∧ v.fatFindFree = free) &&
            (List.range 16).all fun i => i == 0 || v.view.slot (0, i) == DirEntry.zero)) =
      some ([512, 1, 1, 256, 16, 1, 2], true, smallFile, true)) :
    ∃ v, fatInit (some fun _ => 0) (filledDisk x) = some (some v) ∧ v.fs.Sound ∧ v.view.WellFormed ∧
      (∀ stale, v.InDirectory stale (slash :: name) [slash] (rootDir v.fs) (rootDir v.fs) ∧
        v.AsksForCluster stale (slash :: name)) ∧ v.fatFindFree = free ∧ v.view.Owns none [0] ∧
      (0, 1) ∈ v.view.locs [0] ∧ ∀ l ∈ v.view.locs [0], v.view.slot l = smallFile ∧ l = (0, 0) ∨
        v.view.slot l = DirEntry.zero ∧ l ≠ (0, 0) := by
  simp only [Option.bind_eq_some_iff, Option.map_eq_some_iff, Prod.mk.injEq, List.cons.injEq, and_true,
    Bool.and_eq_true, decide_eq_true_eq] at hmount
  obtain ⟨_, hinit, v, rfl, ⟨hsector, hspc, hfats, hentries, hslots, hreserved, hstart⟩, ⟨htree, hroot⟩, hslot,
    ⟨hfind, hfree⟩, hzero⟩ := hmount
  obtain ⟨hs, hwf, -⟩ := smallFile_mounted hsector hspc hfats hentries hslots htree hroot hslot
  refine ⟨v, hinit, hs, hwf, fun stale => ?_, hfree, View.chain_of_isChain hroot, ?_, ?_⟩
  · obtain ⟨hnul, hslash, hne, -⟩ := checkFileName_spec hname
    have hin := inDirectory_root hnul hlen hslash v stale
    have hcstr := cstr_subName hnul hlen
    exact ⟨hin, _, _, _, ((plain_root hnul hslash hne).base hin.parent).trans (if_neg (Nat.not_lt.2 hlen)), hin.parent,
      (congrArg checkFileName hcstr).trans hname, fatFindDirEntryFromPath_root v, rootDir_isDirectory v.fs, hfind⟩
  · rw [View.mem_locs, Volume.view_fs, hslots]
    decide
  · rintro ⟨c, i⟩ hl
    obtain ⟨hc, hi⟩ := View.mem_locs.1 hl
    obtain rfl := List.mem_singleton.1 hc
    rw [Volume.view_fs, hslots] at hi
    have hat := List.all_eq_true.1 hzero i (List.mem_range.2 hi)
    by_cases hi0 : i = 0
    · exact .inl ⟨by rw [hi0, hslot], by rw [hi0]⟩
    · exact .inr ⟨by simpa [hi0] using hat, by simpa using hi0⟩

/-- Creating `/b` on a disk without a free cluster. -/
theorem not_atomic : ∃ v, fatInit (some fun _ => 0) (filledDisk 0xFFF7) = some (some v) ∧ v.view.WellFormed ∧
    ∀ stale, v.fatCreateFile stale [slash, 0x62] = none ∧
      ¬v.Atomic stale [slash, 0x62] (fun stale path => v.fatCreateFile stale path) ∧
      ¬v.Atomic stale [slash, 0x62] (fun stale path => v.fatCreateDirectory stale path) := by
  obtain ⟨v, hinit, hs, hwf, hasks, hfree, -⟩ :=
    @filledDisk_creates 0xFFF7 none [0x62] (by decide) (by decide) (by decide +kernel)
  refine ⟨v, hinit, hwf, fun stale => ?_⟩
  obtain ⟨-, hask⟩ := hasks stale
  exact ⟨Volume.fatCreate_eq_none hs hask hfree, Volume.not_atomic_of_full hs hask hfree,
    Volume.not_atomic_of_full hs hask hfree⟩

/-- Creating `/b` on a disk with one free cluster. -/
theorem atomic_filledDisk : ∃ v, fatInit (some fun _ => 0) (filledDisk 0) = some (some v) ∧
    ∀ stale, v.AsksForCluster stale [slash, 0x62] ∧
      v.Atomic stale [slash, 0x62] (fun stale path => v.fatCreateFile stale path) := by
  obtain ⟨v, hinit, hs, hwf, hasks, hfree, howns, hmem, hslots⟩ :=
    @filledDisk_creates 0 (some 3) [0x62] (by decide) (by decide) (by decide +kernel)
  refine ⟨v, hinit, fun stale => ⟨(hasks stale).2, ?_⟩⟩
  refine (((atomic_iff hs hwf stale [slash, 0x62]).1 _ _ _ (hasks stale).1).1).2 fun _ => ⟨3, hfree, .inl fun cs hcs => ?_⟩
  obtain rfl := View.owns_functional (n := none) hcs howns
  rcases hslots (0, 1) hmem with ⟨-, h⟩ | ⟨hzero, -⟩
  · cases h
  · exact .inl ⟨(0, 1), hmem, by rw [hzero]; decide⟩

end DBolOS.Fat
