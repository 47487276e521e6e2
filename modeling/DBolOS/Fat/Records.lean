import DBolOS.Fat.Leads
import DBolOS.Fat.Sync

/-!
# One record rewritten

A call that rewrites one record of a directory leaves the FAT and the other clusters as they were
(`Volume.StoresRecord`).  The lookups that compare a name with another record, or look in another directory, find what they
found before, and so does every path that makes no other lookups.
-/

namespace DBolOS.Fat

/-! ### Names of records -/

/-- The test of `fat_update_dir_entry` on a name of at most 11 bytes is that of `fat_find_dir_entry`. -/
theorem nameEquals_subName {s : List UInt8} (hs : NoNul s) (hlen : s.length ≤ filenameSize) (e : DirEntry) :
    Volume.nameEquals (subName s) e = some (e.answersTo s) := by
  rw [Volume.nameEquals, subName_eq hlen, @strcmp_eq_strncmp filenameSize s _ _ hs hlen, ← subName_eq hlen]
  exact nameMatches_subName hs hlen e

/-- The record of a name: the bytes of the name, then a zero or the attribute. -/
theorem toBytes_of_nameStr (e : DirEntry) :
    ∃ x u, e.toBytes = e.nameStr ++ x :: u ∧ (e.nameStr.length = filenameSize ∧ x = e.attr ∨ x = 0) := by
  obtain ⟨rest, hrest⟩ := e.exists_toBytes
  rcases cstr_eq_or_append e.name.toList with h | ⟨u, hu⟩
  · refine ⟨e.attr, rest, ?_, .inl ⟨?_, rfl⟩⟩
    · rw [hrest, DirEntry.nameStr, h]
    · rw [DirEntry.nameStr, h, Vector.length_toList]
      rfl
  · refine ⟨0, u ++ e.attr :: rest, ?_, .inr rfl⟩
    rw [hrest, DirEntry.nameStr]
    conv_lhs => rw [hu]
    simp

/-- The name of a record, as `strncpy` copies it into a zeroed buffer. -/
theorem strncpy_toBytes {e : DirEntry} (hne : e.nameStr ≠ []) : strncpy filenameSize e.toBytes = some e.nameStr := by
  obtain ⟨x, u, hbytes, hx⟩ := toBytes_of_nameStr e
  rw [hbytes]
  exact strncpy_eq u e.noNul_nameStr hne e.length_nameStr_le (hx.imp_left And.left)

/-- The test of `fat_find_dir_entry` against the name at the head of the record `new`: a name of 11 bytes runs into the
attribute. -/
def DirEntry.collides (new e : DirEntry) : Bool :=
  decide (e.nameStr = new.nameStr ∧ (new.nameStr.length = filenameSize → e.attr = new.attr))

private theorem nameMatches_toBytes (new e : DirEntry) : Volume.nameMatches new.toBytes e = some (new.collides e) := by
  obtain ⟨x, u, hbytes, hx⟩ := toBytes_of_nameStr new
  have hle := new.length_nameStr_le
  have hrecord : new.nameStr.length < e.toBytes.length := by
    rw [DirEntry.length_toBytes]
    omega
  obtain ⟨r, hr, hiff⟩ := strncmp_eq_zero_iff_of_stop u new.noNul_nameStr hle (hx.imp_left And.left) hrecord
  rw [Volume.nameMatches, hbytes, filenameSize, hr, Option.map_eq_map, Option.map_some, Option.some.injEq,
    DirEntry.collides, filenameSize, Bool.eq_iff_iff, beq_iff_eq, decide_eq_true_iff, hiff]
  rcases Nat.lt_or_ge new.nameStr.length 11 with hlt | hge
  · obtain rfl : x = 0 := by
      rcases hx with ⟨hlen, -⟩ | hzero
      · exact absurd hlen hlt.ne
      · exact hzero
    rw [DirEntry.toBytes_eq_append_iff new.noNul_nameStr hle]
    constructor
    · rintro ⟨hname, -⟩
      exact ⟨hname, fun h => absurd h hlt.ne⟩
    · rintro ⟨hname, -⟩
      exact ⟨hname, fun h => absurd h hlt.ne⟩
  · -- the twelfth bytes are compared
    have hlen : new.nameStr.length = 11 := by omega
    have hattr : x = new.attr := by
      rcases hx with ⟨-, hattr⟩ | rfl
      · exact hattr
      · exact ((DirEntry.toBytes_eq_append_iff new.noNul_nameStr hle).1 ⟨u, hbytes⟩).2 hlen |>.symm
    obtain ⟨rest, hrest⟩ := e.exists_toBytes
    have hfield : e.name.toList.length = new.nameStr.length := by rw [Vector.length_toList, hlen]
    constructor
    · rintro ⟨u', hu'⟩
      rw [hrest] at hu'
      obtain ⟨hname, htail⟩ := List.append_inj hu' hfield
      refine ⟨?_, fun _ => (List.cons.inj htail).1.trans hattr⟩
      rw [DirEntry.nameStr, hname, cstr_of_noNul new.noNul_nameStr]
    · rintro ⟨hname, h⟩
      refine ⟨rest, ?_⟩
      have hinit : e.nameStr <+: e.name.toList := List.takeWhile_prefix _
      rw [hrest, hattr, h hlen, ← hname, hinit.eq_of_length (by rw [hname, hfield])]

namespace View

variable {s : View} {l : Loc} {e : DirEntry}

/-- A record that keeps its attribute and its chain is the same directory. -/
theorem dirent_putSlot (hs : s.Sized) (hc : l.1 < s.fat.length) (hi : l.2 < s.fs.slotsPerCluster)
    (hattr : e.attr = (s.slot l).attr) (hstart : e.startCluster = (s.slot l).startCluster) (n : Option Loc) :
    ((s.putSlot l e).dirent n).attr = (s.dirent n).attr ∧
      ((s.putSlot l e).dirent n).startCluster = (s.dirent n).startCluster := by
  cases n with
  | none => exact ⟨rfl, rfl⟩
  | some l' =>
    rw [dirent_some, dirent_some]
    by_cases hl : l' = l
    · rw [hl, slot_putSlot_self hs e hc hi]
      exact ⟨hattr, hstart⟩
    · rw [slot_putSlot_of_ne hs e hc hi hl]
      exact ⟨rfl, rfl⟩

end View

namespace Volume

variable {v w : Volume} {l : Loc} {e : DirEntry}

/-- The lookup of the name at the head of a record in a directory. -/
theorem fatFindDirEntry_toBytes {new dir : DirEntry} {cs : List Nat} (hs : v.fs.Sound)
    (h : v.view.Chain dir.startCluster.toNat cs) :
    v.fatFindDirEntry new.toBytes dir = some ((v.firstSlot cs new.collides).map v.view.slot) := by
  have hscan := scanDir_spec (p := new.collides) hs h fun l _ => nameMatches_toBytes new (v.view.slot l)
  rw [fatFindDirEntry, hscan, firstSlot]
  simp only [Option.bind_eq_bind, Option.bind_some, Option.map_map]
  rfl

/-! ### The store -/

/-- From `v` to `w` the record in the slot `l` was rewritten. -/
structure StoresRecord (v w : Volume) (l : Loc) (e : DirEntry) : Prop where
  fs : w.fs = v.fs
  table : w.fatTable = v.fatTable
  view : w.view = v.view.putSlot l e
  rest : ∀ c < 2 ^ 16, c ≠ l.1 → w.data c = v.data c

/-- The clusters that a 16-bit number names do not overlap. -/
private theorem data_fatWriteDataCluster {c c' : Nat} {buffer : List UInt8} (hc : c < 2 ^ 16) (hc' : c' < 2 ^ 16)
    (hne : c' ≠ c) (h : v.fatWriteDataCluster c buffer = some w) : w.data c' = v.data c' := by
  have hspc := v.fs.sectorsPerCluster_lt
  have hres := v.fs.reservedSectors_lt
  have hfat : v.fs.numFats * v.fs.sectorsPerFat ≤ 2 ^ 8 * 2 ^ 16 :=
    Nat.mul_le_mul v.fs.numFats_lt.le v.fs.sectorsPerFat_lt.le
  have hsector : ∀ c < 2 ^ 16, v.clusterSector c = c * v.fs.sectorsPerCluster + v.fs.rootDirStart ∧
      v.clusterSector c < 2 ^ 29 := by
    intro c hc
    have hdata : c * v.fs.sectorsPerCluster ≤ 2 ^ 16 * 2 ^ 8 := Nat.mul_le_mul hc.le hspc.le
    have hlt : c * v.fs.sectorsPerCluster + v.fs.rootDirStart < 2 ^ 29 := by
      unfold Fat16Fs.rootDirStart
      omega
    rw [clusterSector, Nat.mod_eq_of_lt (by omega)]
    exact ⟨rfl, hlt⟩
  obtain ⟨hsec, hlt⟩ := hsector c hc
  obtain ⟨hsec', hlt'⟩ := hsector c' hc'
  rw [fatWriteDataCluster, Option.bind_eq_bind, Option.bind_eq_some_iff] at h
  obtain ⟨disk, hdisk, h⟩ := h
  cases h
  rw [ataWrite] at hdisk
  split at hdisk
  · rename_i hlen
    cases hdisk
    refine ByteMem.readBytes_write_disjoint v.disk ?_
    show ataAddr (v.clusterSector c') + 512 * v.fs.sectorsPerCluster ≤ ataAddr (v.clusterSector c) ∨
      ataAddr (v.clusterSector c) + (buffer.take (512 * v.fs.sectorsPerCluster)).length ≤ ataAddr (v.clusterSector c')
    rw [List.length_take_of_le hlen, ataAddr_of_lt hlt, ataAddr_of_lt hlt', hsec, hsec']
    have hapart := mul_apart v.fs.sectorsPerCluster hne
    omega
  · cases hdisk

/-- `fat_update_dir_entry` rewrites the first record of the name. -/
theorem fatUpdateDirEntry_stores {name : List UInt8} {dir : DirEntry} {cs : List Nat} {p : DirEntry → Bool}
    (new : DirEntry) (hs : v.fs.Sound) (h : v.view.Chain dir.startCluster.toNat cs)
    (htest : ∀ l ∈ v.view.locs cs, nameEquals name (v.view.slot l) = some (p (v.view.slot l)))
    (hl : v.firstSlot cs p = some l) :
    ∃ w, v.fatUpdateDirEntry name dir new = some (true, w) ∧ v.StoresRecord w l new := by
  have hspec := fatUpdateDirEntry_spec new hs h htest
  have hscan := scanDir_spec hs h htest
  rw [← firstSlot, hl] at hscan
  rw [hl] at hspec
  obtain ⟨w, hw, hview⟩ := hspec
  refine ⟨w, hw, congrArg View.fs hview, congrArg View.fat hview, hview, fun c hc hne => ?_⟩
  have hlt : l.1 < 2 ^ 16 := by
    have := View.Chain.lt_length h (firstSlot_eq_some hl).1
    have := hs.entries
    rw [← v.fatTable_length] at this
    rw [view_fat] at *
    omega
  simp only [fatUpdateDirEntry, hscan, Option.map_some, Option.bind_eq_bind, Option.bind_some, Option.bind_eq_some_iff,
    Option.some.injEq, Prod.mk.injEq, true_and] at hw
  obtain ⟨u, hu, rfl⟩ := hw
  exact data_fatWriteDataCluster hlt hc hne hu

/-- The slots after the store. -/
theorem StoresRecord.slot {ch : Option Loc → List Nat} {q : Option Loc} {p : DirEntry → Bool} (hw : v.StoresRecord w l e)
    (hs : v.fs.Sound) (hl : v.firstSlot (ch q) p = some l) (h : v.view.Tree ch) (hq : View.Node v.view q) :
    w.view.slot l = e ∧ ∀ l', l' ≠ l → w.view.slot l' = v.view.slot l' := by
  obtain ⟨hmem, hi, -⟩ := firstSlot_eq_some hl
  rw [hw.view]
  exact ⟨View.slot_putSlot_self (view_sized hs) e (h.lt_length hq hmem) hi,
    fun l' hl' => View.slot_putSlot_of_ne (view_sized hs) e (h.lt_length hq hmem) hi hl'⟩

/-! ### Lookups -/

private theorem scanSlots_congr {test : DirEntry → Option Bool} {b b' : List UInt8} {n i : Nat}
    (h : ∀ j, i ≤ j → j < i + n →
      slotAt b' j = slotAt b j ∨ test (slotAt b' j) = some false ∧ test (slotAt b j) = some false) :
    scanSlots test b' n i = scanSlots test b n i := by
  induction n generalizing i with
  | zero => rfl
  | succ n ih =>
    have hrest := ih (i := i + 1) fun j h1 h2 => h j (by omega) (by omega)
    rw [scanSlots, scanSlots, hrest]
    rcases h i le_rfl (by omega) with heq | ⟨hf', hf⟩
    · rw [heq]
    · rw [hf', hf]

private theorem getIthCluster_lt {start i c : Nat} (hstart : start < 2 ^ 16)
    (h : v.getIthCluster start i = some (some c)) :
    c < 2 ^ 16 := by
  induction i generalizing start with
  | zero =>
    cases h
    exact hstart
  | succ i ih =>
    rw [getIthCluster, Option.bind_eq_bind, Option.bind_eq_some_iff] at h
    obtain ⟨x, -, h⟩ := h
    split at h
    · cases h
    · exact ih x.toNat_lt h

private theorem getIthCluster_congr (h : w.fatTable = v.fatTable) (start i : Nat) :
    w.getIthCluster start i = v.getIthCluster start i := by
  induction i generalizing start with
  | zero => rfl
  | succ i ih =>
    rw [getIthCluster, getIthCluster, h]
    simp only [ih]

private theorem fatReadDataCluster_zeroBuffer (hs : v.fs.Sound) (c : Nat) :
    v.fatReadDataCluster c v.zeroBuffer = some (v.data c) := by
  have hdata : (ataRead v.disk (v.clusterSector c) v.fs.sectorsPerCluster).length = 512 * v.fs.sectorsPerCluster :=
    v.length_data c
  have hzero := length_zeroBuffer hs
  simp only [fatReadDataCluster, data, hdata, hzero, le_refl, ↓reduceIte, ByteMem.splice, List.take_zero,
    List.nil_append]
  rw [List.drop_eq_nil_of_le (by omega), List.append_nil]

/-- A scan finds what it found when the slots that changed fail the test before and after. -/
private theorem scanClusters_congr {test : DirEntry → Option Bool} {start n i : Nat} (hs : v.fs.Sound)
    (hfs : w.fs = v.fs)
    (htable : w.fatTable = v.fatTable)
    (hslots : ∀ i c j, v.getIthCluster start i = some (some c) → j < v.fs.slotsPerCluster →
      slotAt (w.data c) j = slotAt (v.data c) j ∨
        test (slotAt (w.data c) j) = some false ∧ test (slotAt (v.data c) j) = some false) :
    (w.scanClusters test start n i).map (Option.map Hit.entry) =
      (v.scanClusters test start n i).map (Option.map Hit.entry) := by
  induction n generalizing i with
  | zero => rfl
  | succ n ih =>
    rw [scanClusters, scanClusters, getIthCluster_congr htable]
    cases hc : v.getIthCluster start i with
    | none => rfl
    | some oc =>
      cases oc with
      | none => rfl
      | some c =>
        have hsame := @scanSlots_congr test (v.data c) (w.data c) v.fs.slotsPerCluster 0 fun j _ hj =>
          hslots i c j hc (by omega)
        simp only [Option.bind_eq_bind, Option.bind_some, fatReadDataCluster_zeroBuffer hs,
          fatReadDataCluster_zeroBuffer (hfs ▸ hs : w.fs.Sound), hfs, hsame]
        cases hslot : scanSlots test (v.data c) v.fs.slotsPerCluster 0 with
        | none => rfl
        | some slot =>
          cases slot with
          | none => exact ih
          | some j =>
            obtain ⟨-, hj, htrue⟩ := scanSlots_eq_some hslot
            have heq : slotAt (w.data c) j = slotAt (v.data c) j := by
              rcases hslots i c j hc (by omega) with heq | ⟨-, hfalse⟩
              · exact heq
              · rw [htrue] at hfalse
                cases hfalse
            exact congrArg (fun e => some (some e)) heq

/-- A lookup finds what it found, in a directory without the cluster of the record or for a name that the record has
neither before nor after. -/
theorem StoresRecord.find (h : v.StoresRecord w l e) (hs : v.fs.Sound) (hl : l.1 < v.fatTable.length)
    (hi : l.2 < v.fs.slotsPerCluster) {name : List UInt8} (hnul : NoNul name) (hlen : name.length ≤ filenameSize)
    {dir : DirEntry}
    (hout : (∀ i, v.getIthCluster dir.startCluster.toNat i ≠ some (some l.1)) ∨
      (v.view.slot l).answersTo name = false ∧ e.answersTo name = false) :
    w.fatFindDirEntry (subName name) dir = v.fatFindDirEntry (subName name) dir := by
  have hmatch : ∀ e : DirEntry, e.answersTo name = false → nameMatches (subName name) e = some false :=
    fun e he => (nameMatches_subName hnul hlen e).trans (congrArg some he)
  have hscan := @scanClusters_congr v w (nameMatches (subName name)) dir.startCluster.toNat (v.walkFuel + 1) 0 hs h.fs
    h.table (by
      intro i c j hc hj
      by_cases hcl : c = l.1
      · subst hcl
        rcases hout with hout | ⟨hold, hnew⟩
        · exact absurd hc (hout i)
        have hv : ∀ j, slotAt (v.data l.1) j = v.view.slot (l.1, j) := by
          intro j
          rw [View.slot, view_data hl]
        have hw : ∀ j, slotAt (w.data l.1) j = (v.view.putSlot l e).slot (l.1, j) := by
          intro j
          rw [← h.view, View.slot, view_data (by rw [h.table]; exact hl)]
        rw [hv, hw]
        by_cases hjl : j = l.2
        · subst hjl
          refine .inr ⟨?_, hmatch _ hold⟩
          rw [View.slot_putSlot_self (view_sized hs) e hl hi]
          exact hmatch _ hnew
        · exact .inl (View.slot_putSlot_of_ne (view_sized hs) e hl hi fun heq => hjl (congrArg Prod.snd heq))
      · rw [h.rest c (getIthCluster_lt dir.startCluster.toNat_lt hc) hcl]
        exact .inl rfl)
  have hfuel : w.walkFuel = v.walkFuel := by rw [walkFuel, walkFuel, h.table]
  have hfind : ∀ u : Volume, u.fatFindDirEntry (subName name) dir =
      (u.scanClusters (nameMatches (subName name)) dir.startCluster.toNat (u.walkFuel + 1) 0).map
        (Option.map Hit.entry) := by
    intro u
    rw [fatFindDirEntry, scanDir]
    cases u.scanClusters (nameMatches (subName name)) dir.startCluster.toNat (u.walkFuel + 1) 0 <;> rfl
  rw [hfind, hfind, hfuel, hscan]

end Volume

/-! ### Paths -/

/-- An iteration of the loop looks up the segment at its index, if anything. -/
private theorem resolveStep_congr {v w : Volume} {path : List UInt8} {index : Nat} {d : DirEntry}
    (h : LooksUp path index d → w.fatFindDirEntry (subName (segmentAt path index)) d =
      v.fatFindDirEntry (subName (segmentAt path index)) d) : resolveStep w path index d = resolveStep v path index d := by
  have hlen : nameLen (filenameSize + 1) (path.drop index) = min (filenameSize + 1) (segmentAt path index).length :=
    nameLen_eq _ _
  rw [resolveStep, resolveStep, hlen]
  by_cases hlong : filenameSize < (segmentAt path index).length
  · have hmin : filenameSize < min (filenameSize + 1) (segmentAt path index).length := by omega
    simp only [hmin, ↓reduceIte]
  have hmin : min (filenameSize + 1) (segmentAt path index).length = (segmentAt path index).length := by omega
  have htake : (path.drop index).take (segmentAt path index).length = segmentAt path index := by
    have hhead : segmentAt path index <+: path.drop index := List.takeWhile_prefix _
    exact (List.prefix_iff_eq_take.1 hhead).symm
  simp only [hmin, hlong, ↓reduceIte, htake]
  split
  · rfl
  rename_i h0
  split
  · rename_i hlast
    rw [h ⟨h0, Nat.not_lt.1 hlong, .inl hlast⟩]
  split
  · rfl
  · rename_i hdir
    rw [h ⟨h0, Nat.not_lt.1 hlong, .inr (by simpa using hdir)⟩]

/-- A path resolves as before when the lookups on its way find what they found. -/
theorem fatFindDirEntryFromPath_congr {v w : Volume} {path : List UInt8} (hfs : w.fs = v.fs)
    (h : ∀ index d, Reached v path (index, d) → LooksUp path index d →
      w.fatFindDirEntry (subName (segmentAt path index)) d = v.fatFindDirEntry (subName (segmentAt path index)) d) :
    fatFindDirEntryFromPath w path = fatFindDirEntryFromPath v path := by
  have hloop : ∀ n index d, Reached v path (index, d) → resolveFrom w path n index d = resolveFrom v path n index d := by
    intro n
    induction n with
    | zero => intro index d _; rfl
    | succ n ih =>
      intro index d hreached
      rw [resolveFrom, resolveFrom, resolveStep_congr (h index d hreached)]
      cases hstep : resolveStep v path index d with
      | none => rfl
      | some r =>
        cases r with
        | inl result => rfl
        | inr next => exact ih next.1 next.2 (hreached.tail hstep)
  rw [fatFindDirEntryFromPath, fatFindDirEntryFromPath, hfs]
  split
  · rfl
  · exact hloop _ _ _ .refl

end DBolOS.Fat
