import DBolOS.Fat.LoaderWrite
import DBolOS.Fat.Leads

/-!
# What the loader puts on an image

`fat_create_file` and `fat_write` of the loader on a path `/name`, and what the kernel's driver finds on the image they
leave: the file under its name with the bytes written, and every other file as it was.
-/

namespace DBolOS.Fat

open ByteMem

namespace Loader

variable {v w : Volume}

/-! ### Mounting -/

/-- What the loader's `fat_init` leaves is what the kernel's would. -/
theorem fatInit_spec {fresh disk : ByteMem} (h : fatInit fresh disk = some (some v)) (hgeo : Separated v.fs) :
    v.disk = disk ∧ v.Synced ∧ v.Mounted ∧ v.fs.sectorsPerFat ≤ 128 := by
  simp only [fatInit] at h
  split at h
  · cases h
  · rename_i hsig
    simp only [Option.bind_eq_bind, Option.bind_eq_some_iff] at h
    obtain ⟨fs, hfs, buffer, -, table, hload, h⟩ := h
    split at h
    · rename_i hle
      cases h
      have hsector : fs.bytesPerSector = 512 := hgeo.sector
      have hspf : fs.sectorsPerFat ≤ 128 := by
        rw [hsector, fatTableSize] at hle
        omega
      have hres := fs.reservedSectors_lt
      have hsize : 512 * (0 + fs.sectorsPerFat) ≤ fatTableSize := by
        rw [fatTableSize]
        omega
      obtain ⟨table', hload', htable⟩ := loadFat_eq disk fs.reservedSectors buffer (by omega) hsize (by simp [readBytes])
      rw [hload] at hload'
      cases hload'
      have hbytes : table.1.take (fs.sectorsPerFat * fs.bytesPerSector) =
          ataRead disk fs.reservedSectors fs.sectorsPerFat := by
        rw [Nat.zero_add] at htable
        rw [hsector, Nat.mul_comm, ataRead, ataAddr_of_lt (by omega), htable]
      refine ⟨rfl, ?_, ⟨not_not.1 hsig, hfs⟩, hspf⟩
      have heven : (ataRead disk fs.reservedSectors fs.sectorsPerFat).length % 2 = 0 := by
        rw [ataRead, length_readBytes]
        omega
      show ataRead disk fs.reservedSectors fs.sectorsPerFat = (words16 (table.1.take _)).flatMap le16
      rw [hbytes]
      exact (flatMap_le16_words16 _ heven).symm
    · cases h

/-- What the kernel mounts, the loader mounts too where its buffer is large enough. -/
theorem fatInit_of_kernel {block : Option ByteMem} {fresh disk : ByteMem} (h : Fat.fatInit block disk = some (some v))
    (hgeo : Separated v.fs) (hspf : v.fs.sectorsPerFat ≤ 128) : fatInit fresh disk = some (some v) := by
  obtain ⟨hsynced, hmounted⟩ := synced_of_fatInit h hgeo
  obtain ⟨-, -, -, hdisk, -⟩ := fatInit_eq_some h
  obtain ⟨hsig, hboot⟩ := hmounted
  rw [hdisk] at hsig hboot
  have hsector : v.fs.bytesPerSector = 512 := hgeo.sector
  have hres := v.fs.reservedSectors_lt
  have hsize : 512 * (0 + v.fs.sectorsPerFat) ≤ fatTableSize := by
    rw [fatTableSize]
    omega
  obtain ⟨buffer, hbuffer⟩ : ∃ buffer, allocFat fresh v.fs = some buffer := by
    unfold allocFat
    rw [dif_pos (by rw [hsector, fatTableSize]; omega)]
    exact ⟨_, rfl⟩
  obtain ⟨table, hload, htable⟩ := loadFat_eq disk v.fs.reservedSectors buffer (by omega) hsize (by simp [readBytes])
  have hwords : words16 (table.1.take (v.fs.sectorsPerFat * v.fs.bytesPerSector)) = v.fatTable := by
    rw [Nat.zero_add] at htable
    rw [hsector, Nat.mul_comm, htable]
    have hread : ataRead disk v.fs.reservedSectors v.fs.sectorsPerFat = v.fatTable.flatMap le16 := by
      rw [← hdisk]
      exact hsynced
    rw [ataRead, ataAddr_of_lt (by omega)] at hread
    rw [hread, words16_flatMap_le16]
  simp only [fatInit, hsig, ne_eq, not_true_eq_false, if_false, hboot, Option.bind_eq_bind, Option.bind_some, hbuffer,
    hload]
  rw [dif_pos (by rw [hsector, fatTableSize]; omega)]
  obtain ⟨fs, fatTable, disk', hlength⟩ := v
  obtain rfl : disk' = disk := hdisk
  simp only [Option.some.injEq, Volume.mk.injEq, true_and, and_true]
  exact hwords

/-! ### Lookups -/

/-- `strncmp` against a string within the bound compares it with the string of the other side's first bytes. -/
private theorem strncmp_eq_zero_iff {num : Nat} {a s : List UInt8} (t : List UInt8) (hs : NoNul s)
    (hnum : s.length ≤ num)
    (ha : num ≤ a.length) : ∃ r, strncmp num a (s ++ 0 :: t) = some r ∧ (r = 0 ↔ cstr (a.take num) = s) := by
  induction s generalizing num a with
  | nil =>
    cases num with
    | zero => exact ⟨0, rfl, by simp [cstr]⟩
    | succ num =>
      obtain ⟨x, a, rfl⟩ := List.exists_cons_of_length_pos (by omega : 0 < a.length)
      by_cases hx : x = 0
      · exact ⟨0, by simp [strncmp, hx], by simp [cstr, hx]⟩
      · refine ⟨(x.toNat : Int), by simp [strncmp, hx], ?_⟩
        have : x.toNat ≠ 0 := fun h0 => hx (UInt8.toNat_inj.1 h0)
        simp [cstr, hx, this]
  | cons b s ih =>
    obtain ⟨hb, hs'⟩ := hs.of_cons
    simp only [List.length_cons] at hnum
    obtain ⟨num, rfl⟩ := Nat.exists_eq_succ_of_ne_zero (by omega : num ≠ 0)
    obtain ⟨x, a, rfl⟩ := List.exists_cons_of_length_pos (by omega : 0 < a.length)
    simp only [List.length_cons] at ha
    by_cases hx : x = b
    · subst hx
      obtain ⟨r, hr, hiff⟩ := ih hs' (by omega : s.length ≤ num) (by omega : num ≤ a.length)
      refine ⟨r, ?_, ?_⟩
      · rw [List.cons_append, strncmp, if_pos ⟨hb, rfl⟩, hr]
      · rw [hiff]
        simp [cstr, hb]
    · refine ⟨(x.toNat : Int) - b.toNat, ?_, ?_⟩
      · rw [List.cons_append, strncmp, if_neg (fun h => hx h.2)]
      · have hne : (x.toNat : Int) - b.toNat ≠ 0 := by
          intro h0
          exact hx (UInt8.toNat_inj.1 (by omega))
        simp only [hne, false_iff]
        intro hcstr
        by_cases hx0 : x = 0
        · simp [cstr, hx0] at hcstr
        · simp [cstr, hx0] at hcstr
          exact hx hcstr.1

/-- The loader looks a component up by the name of the records alone. -/
private theorem nameMatches_subName {s : List UInt8} (hs : NoNul s) (hlen : s.length ≤ 11) (e : DirEntry) :
    nameMatches (subName s) e = some (decide (e.nameStr = s)) := by
  obtain ⟨r, hr, hiff⟩ := @strncmp_eq_zero_iff filenameSize e.toBytes s (List.replicate (11 - s.length) 0)
    hs hlen (by rw [DirEntry.length_toBytes]; decide)
  obtain ⟨rest, hrest⟩ := e.exists_toBytes
  have hname : e.toBytes.take filenameSize = e.name.toList := by
    rw [hrest, List.take_left' (by simp [filenameSize])]
  rw [hname] at hiff
  rw [nameMatches, subName_eq hlen, hr, Option.map_eq_map, Option.map_some, Option.some.injEq, Bool.eq_iff_iff,
    beq_iff_eq, decide_eq_true_iff, hiff, DirEntry.nameStr]

private theorem fatFindDirEntry_spec {name : List UInt8} {dir : DirEntry} {cs : List Nat} (hs : v.fs.Sound)
    (h : v.view.Chain dir.startCluster.toNat cs) (hnul : NoNul name) (hlen : name.length ≤ filenameSize) :
    fatFindDirEntry v (subName name) dir =
      some ((v.firstSlot cs fun e => decide (e.nameStr = name)).map v.view.slot) := by
  have hscan := Volume.scanDir_spec (p := fun e => decide (e.nameStr = name)) hs h fun l _ =>
    nameMatches_subName hnul hlen (v.view.slot l)
  rw [fatFindDirEntry, hscan, Volume.firstSlot]
  simp only [Option.bind_eq_bind, Option.bind_some, Option.map_map]
  rfl

/-- A path of one component behind the slash is looked up in the root. -/
private theorem fatFindDirEntryFromPath_name {name : List UInt8} (hne : name ≠ []) (hslash : slash ∉ name)
    (hlen : name.length ≤ filenameSize) :
    fatFindDirEntryFromPath v (slash :: name) = (fatFindDirEntry v (subName name) (rootDir v.fs)).map fun
      | none => .error .FILE_NOT_FOUND
      | some e => .ok e := by
  have hspecial : ¬ (slash :: name = [tilde, slash] ∨ slash :: name = [slash] ∨ slash :: name = [dot, slash]) := by
    simp [slash, tilde, dot, hne]
  have hfirst : resolveStep v (slash :: name) 0 (rootDir v.fs) = some (.inr (1, rootDir v.fs)) := by
    simp [resolveStep, nameLen, filenameSize]
  have htake : name.takeWhile (· ≠ slash) = name := by
    rw [List.takeWhile_eq_self_iff]
    intro b hb
    simp only [ne_eq, decide_eq_true_eq]
    rintro rfl
    exact hslash hb
  have hname : nameLen (filenameSize + 1) name = name.length := by
    rw [nameLen_eq, htake]
    exact Nat.min_eq_right (by omega)
  rw [fatFindDirEntryFromPath, if_neg hspecial, resolveFrom, hfirst]
  simp only [Option.bind_eq_bind, Option.bind_some]
  rw [List.length_cons, resolveFrom]
  have hstep : resolveStep v (slash :: name) 1 (rootDir v.fs) =
      (fatFindDirEntry v (subName name) (rootDir v.fs)).bind fun o =>
        some (.inl (match o with
          | none => .error .FILE_NOT_FOUND
          | some e => .ok e)) := by
    simp only [resolveStep, List.drop_succ_cons, List.drop_zero, hname, Nat.not_lt.2 hlen, ↓reduceIte, List.take_length,
      List.length_cons, Nat.add_comm 1 name.length, Nat.le_succ, one_ne_zero, Option.bind_eq_bind]
    rw [if_neg (by omega : ¬ name.length + 1 + 1 = name.length + 1)]
    congr 1
    funext o
    cases o <;> rfl
  rw [hstep]
  cases fatFindDirEntry v (subName name) (rootDir v.fs) <;> rfl

/-! ### Creation in the root -/

variable {ch : Option Loc → List Nat} {name : List UInt8}

theorem newEntry_spec {f : UInt16} (hname : checkFileName name) (hlen : name.length ≤ filenameSize) :
    (newEntry (subName name) f false).nameStr = name ∧ (newEntry (subName name) f false).isEntry := by
  obtain ⟨hnul, _, hne, hdot, hdots, _⟩ := checkFileName_spec hname
  have hstr : (newEntry (subName name) f false).nameStr = name :=
    nameStr_nameOf hnul hlen (by rw [newEntry, cstr_subName hnul hlen])
  refine ⟨hstr, ?_⟩
  rw [DirEntry.isEntry, decide_eq_true_eq, hstr]
  exact ⟨hne, hdot, hdots⟩

/-- The count of the root is stored in the first record with its bytes, all of which have the name `~`; there may be
none. -/
theorem updateParentCount_spec {p : DirEntry} {cs : List Nat} (hs : v.fs.Sound) (hcs : v.view.Owns none cs)
    (hp : p.name = (rootDir v.fs).name) :
    ∃ (r : DirEntry) (b : Bool) (w : Volume), r.nameStr = [tilde] ∧
      v.fatUpdateDirEntry r.toBytes (rootDir v.fs) r = some (b, w) ∧
      updateParentCount v [slash] p = some (.SUCCESS, w) ∧
      match v.firstSlot cs r.sameString with
      | some l => w.view = v.view.putSlot l r
      | none => w = v := by
  have hparent : getParentDir [slash] = some [slash] := by
    have := @getParentDir_slash [] [] (by simp [NoNul, slash]) (by simp)
    rwa [if_neg (by simp [pathCopySize]), if_pos rfl] at this
  obtain ⟨r, hr⟩ : ∃ r : DirEntry, r = { p with fileSize := p.fileSize + 1 } := ⟨_, rfl⟩
  have hname : r.nameStr = [tilde] := by
    refine nameStr_nameOf (by simp [NoNul, tilde]) (by simp) ?_
    rw [hr]
    exact hp
  have hzero : 0 ∈ r.toBytes := by
    obtain ⟨u, hu⟩ := (DirEntry.toBytes_eq_append_iff (e := r) r.noNul_nameStr r.length_nameStr_le).2
      ⟨rfl, fun h => by rw [hname] at h; simp at h⟩
    rw [hu]
    simp
  have hspec := @Volume.fatUpdateDirEntry_spec v r.toBytes (rootDir v.fs) r cs r.sameString hs hcs fun l _ =>
    Volume.nameEquals_toBytes (by
      by_cases heq : v.view.slot l = r
      · exact .inr (heq ▸ hzero)
      · exact .inl heq)
  have hcount : ∀ {b : Bool} {w : Volume}, v.fatUpdateDirEntry r.toBytes (rootDir v.fs) r = some (b, w) →
      updateParentCount v [slash] p = some (.SUCCESS, w) := by
    intro b w hw
    rw [updateParentCount, hparent]
    simp only [Option.bind_eq_bind, Option.bind_some, fatFindDirEntryFromPath, or_true, true_or, ↓reduceIte, ← hr, hw]
  cases hfirst : v.firstSlot cs r.sameString with
  | none =>
    rw [hfirst] at hspec
    refine ⟨r, false, v, hname, hspec, hcount hspec, ?_⟩
    rw [hfirst]
  | some l =>
    rw [hfirst] at hspec
    obtain ⟨w, hw, hview⟩ := hspec
    refine ⟨r, true, w, hname, hw, hcount hw, ?_⟩
    rw [hfirst]
    exact hview

/-- The update of the record of the root directory finds no slot when none has its name. -/
private theorem updateParentCount_root {p : DirEntry} {cs : List Nat} (hs : v.fs.Sound) (hcs : v.view.Owns none cs)
    (hp : p.name = (rootDir v.fs).name) (htilde : ∀ l ∈ v.view.locs cs, (v.view.slot l).nameStr ≠ [tilde]) :
    updateParentCount v [slash] p = some (.SUCCESS, v) := by
  obtain ⟨r, b, w, hname, _, hcount, hfirst⟩ := updateParentCount_spec hs hcs hp
  have hnone : v.firstSlot cs r.sameString = none := by
    refine List.find?_eq_none.2 fun l hl hsame => htilde l hl ?_
    rw [DirEntry.nameStr_of_sameString hsame, hname]
  rw [hnone] at hfirst
  rw [hcount, hfirst]

/-- `fat_create_file` on a path of one component: it looks the name up in the root and creates it there. -/
private theorem fatCreateFile_name {cs : List Nat} (hs : v.fs.Sound) (h : v.view.Owns none cs)
    (hname : checkFileName name)
    (hlen : name.length ≤ filenameSize) :
    fatCreateFile v (slash :: name) = match v.firstSlot cs fun e => decide (e.nameStr = name) with
      | some _ => some (.FILE_ALREADY_EXISTS, v)
      | none => createEntry v [slash] (subName name) (rootDir v.fs) false := by
  obtain ⟨hnul, hslash, hne, _, _, hnt⟩ := checkFileName_spec hname
  have hpath : NoNul ([] ++ slash :: name) := by
    intro b hb
    rcases List.mem_cons.1 hb with rfl | hb
    · decide
    · exact hnul b hb
  have hshort : ¬ pathCopySize ≤ ([] ++ slash :: name).length := by
    rw [List.nil_append, List.length_cons, pathCopySize]
    rw [filenameSize] at hlen
    omega
  have hbase : getBaseName (slash :: name) = some (subName name) := by
    have := getBaseName_slash hpath hslash
    rwa [if_neg (by rw [not_or]; exact ⟨hshort, Nat.not_lt.2 hlen⟩)] at this
  have hparent : getParentDir (slash :: name) = some [slash] := by
    have := getParentDir_slash hpath hslash
    rwa [if_neg hshort, if_pos rfl] at this
  have hroot : fatFindDirEntryFromPath v [slash] = some (.ok (rootDir v.fs)) := by simp [fatFindDirEntryFromPath]
  have hfind := @fatFindDirEntry_spec v name (rootDir v.fs) _ hs h hnul hlen
  simp only [fatCreateFile, fatCreate, hbase, hparent, hroot, cstr_subName hnul hlen, hname, rootDir_isDirectory, hfind,
    Bool.not_true, Bool.false_eq_true, ↓reduceIte, Option.bind_eq_bind, Option.bind_some]
  cases v.firstSlot cs fun e => decide (e.nameStr = name) <;> rfl

/-- What a creation in the root does when it succeeds: it claims a free cluster, stores a record whose name is new to the
root, and counts it. -/
theorem fatCreateFile_success {cs : List Nat} (hs : v.fs.Sound) (h : v.view.Owns none cs) (hname : checkFileName name)
    (hlen : name.length ≤ filenameSize) (hcreate : fatCreateFile v (slash :: name) = some (.SUCCESS, w)) :
    ∃ f u x, v.fatFindFree = some f ∧ v.fatUpdateChain f f = some u ∧
      u.fatAddDirEntry (rootDir v.fs) (newEntry (subName name) (UInt16.ofNat f) false) = some (true, x) ∧
      updateParentCount x [slash] { rootDir v.fs with fileSize := (rootDir v.fs).fileSize + 1 } = some (.SUCCESS, w) ∧
      ∀ l ∈ v.view.locs cs, (v.view.slot l).nameStr ≠ name := by
  rw [fatCreateFile_name hs h hname hlen] at hcreate
  cases hfirst : v.firstSlot cs fun e => decide (e.nameStr = name) with
  | some l =>
    rw [hfirst] at hcreate
    cases hcreate
  | none =>
    rw [hfirst] at hcreate
    simp only [createEntry] at hcreate
    cases hfree : v.fatFindFree with
    | none => simp [hfree, Volume.fatUpdateChain_outside hs] at hcreate
    | some f =>
      simp only [hfree, Volume.toNat_ofNat_of_free hs hfree, Option.bind_eq_bind, Option.bind_eq_some_iff] at hcreate
      obtain ⟨u, hu, ⟨b, x⟩, hadd, hcreate⟩ := hcreate
      cases b with
      | false =>
        simp only [undoCreate, Option.bind_eq_bind, Option.bind_eq_some_iff] at hcreate
        obtain ⟨_, _, hcreate⟩ := hcreate
        cases hcreate
      | true =>
        simp only [Volume.addDotEntries, Bool.false_eq_true, ↓reduceIte, Option.bind_some] at hcreate
        refine ⟨f, u, x, rfl, hu, hadd, hcreate, ?_⟩
        intro l hl hl'
        exact List.find?_eq_none.1 hfirst l hl (decide_eq_true hl')

/-- A file that the loader creates in a root without an entry `~` is new there, and nothing else changes. -/
private theorem fatCreateFile_root (hs : v.fs.Sound) (hgeo : Separated v.fs) (h : v.view.Tree ch)
    (hname : checkFileName name)
    (hlen : name.length ≤ filenameSize)
    (htilde : ∀ l ∈ v.view.locs (ch none), (v.view.slot l).nameStr ≠ [tilde])
    (hcreate : fatCreateFile v (slash :: name) = some (.SUCCESS, w)) :
    ∃ f ds l ch', v.view.Added w.view ch ch' none ds l (newEntry (subName name) (UInt16.ofNat f) false) f ∧
      WritesBack v w ∧ ∀ l' ∈ v.view.locs (ch none), (v.view.slot l').nameStr ≠ name := by
  obtain ⟨_, _, _, _, _, hnt⟩ := checkFileName_spec hname
  obtain ⟨f, u, x, hfree, hu, hx, hcount, hnew⟩ := fatCreateFile_success hs (h.owns none .root) hname hlen hcreate
  obtain ⟨hstr, hentry⟩ := newEntry_spec (f := UInt16.ofNat f) hname hlen
  obtain ⟨u', hu', _, hadd⟩ := Volume.fatAddDirEntry_added (p := rootDir v.fs) hs h hfree .root
    (rootDir_isDirectory v.fs) rfl hentry rfl fun _ => rfl
  rw [hu] at hu'
  cases hu'
  rcases hadd with ⟨hfail, _⟩ | ⟨x', ch', ds, l, hx', hadded, _⟩
  · rw [hx] at hfail
    cases hfail
  · rw [hx] at hx'
    cases hx'
    have hbacku := writesBack_fatUpdateChain hgeo hu
    have hback := hbacku.trans (writesBack_fatAddDirEntry (hbacku.separated hgeo) hx)
    have hxs : x.fs.Sound := hback.fs ▸ hs
    have hlocs := View.locs_congr hadded.fs
    have hchroot : ch' none = ch none ++ ds := by rw [hadded.chain none (by simp), Function.update_self]
    have htilde' : ∀ l' ∈ x.view.locs (ch' none), (x.view.slot l').nameStr ≠ [tilde] := by
      intro l' hl'
      rw [hlocs, hchroot, View.locs_append, List.mem_append] at hl'
      by_cases hll : l' = l
      · rw [hll, hadded.slot, hstr]
        exact hnt
      · rcases hl' with hl' | hl'
        · rw [hadded.keep none .root l' hl' hll]
          exact htilde l' hl'
        · rw [hadded.grown l' hl' hll]
          decide
    rw [updateParentCount_root (p := { rootDir v.fs with fileSize := (rootDir v.fs).fileSize + 1 }) hxs
      (hadded.tree.owns none .root) rfl htilde'] at hcount
    cases hcount
    exact ⟨f, ds, l, ch', hadded, hback, hnew⟩

/-- The lookup of a new file by the loader. -/
theorem fatGetFileData_root {l : Loc} {e : DirEntry} {cs : List Nat} (hs : v.fs.Sound) (h : v.view.Owns none cs)
    (hname : checkFileName name) (hlen : name.length ≤ filenameSize) (hl : l ∈ v.view.locs cs)
    (he : v.view.slot l = e) (hstr : e.nameStr = name) (hfile : e.isDirectory = false)
    (hunique : ∀ l' ∈ v.view.locs cs, (v.view.slot l').nameStr = name → l' = l) :
    fatGetFileData v (slash :: name) = some ⟨e, rootDir v.fs⟩ := by
  obtain ⟨hnul, hslash, hne, _⟩ := checkFileName_spec hname
  have hfirst : v.firstSlot cs (fun e => decide (e.nameStr = name)) = some l := by
    cases hfirst : v.firstSlot cs fun e => decide (e.nameStr = name) with
    | none => exact absurd (decide_eq_true (he ▸ hstr)) (List.find?_eq_none.1 hfirst l hl)
    | some l' =>
      obtain ⟨hc, hi, hl'⟩ := Volume.firstSlot_eq_some hfirst
      rw [hunique l' (View.mem_locs.2 ⟨hc, hi⟩) (by simpa using hl')]
  have hfind := @fatFindDirEntry_spec v name (rootDir v.fs) _ hs h hnul hlen
  have hpath : NoNul ([] ++ slash :: name) := by
    intro b hb
    rcases List.mem_cons.1 hb with rfl | hb
    · decide
    · exact hnul b hb
  have hparent : getParentDir (slash :: name) = some [slash] := by
    have := getParentDir_slash hpath hslash
    rwa [if_neg, if_pos rfl] at this
    rw [List.nil_append, List.length_cons, pathCopySize]
    rw [filenameSize] at hlen
    omega
  have hroot : fatFindDirEntryFromPath v [slash] = some (.ok (rootDir v.fs)) := by simp [fatFindDirEntryFromPath]
  simp only [fatGetFileData, fatFindDirEntryFromPath_name hne hslash hlen, hfind, hfirst, Option.map_some, he, hfile,
    hparent, hroot, Bool.false_eq_true, ↓reduceIte, Option.bind_eq_bind, Option.bind_some]

end Loader

/-! ### What the kernel reads -/

/-- A volume that is mounted again is the same. -/
private theorem fatInit_of_remounts {v : Volume} (h : v.Remounts) (fresh : ByteMem) :
    fatInit (some fresh) v.disk = some (some v) := by
  obtain ⟨w, hw, hfs, htable⟩ := h fresh
  obtain ⟨-, -, -, hdisk, -⟩ := fatInit_eq_some hw
  obtain ⟨fs, table, disk, _⟩ := v
  obtain ⟨fs', table', disk', _⟩ := w
  simp only at hfs htable hdisk
  subst hfs htable hdisk
  exact hw

/-- The kernel's lookup of a file in the root. -/
private theorem fatGetFileData_root {v : Volume} {ch : Option Loc → List Nat} {name : List UInt8} {stale : ByteMem}
    {l : Loc}
    {e : DirEntry} (hs : v.fs.Sound) (h : v.view.Tree ch) (hname : checkFileName name)
    (hlen : name.length ≤ filenameSize) (hl : l ∈ v.view.locs (ch none)) (he : v.view.slot l = e)
    (hstr : e.nameStr = name) (hattr : e.attr = 0)
    (hunique : ∀ l' ∈ v.view.locs (ch none), (v.view.slot l').nameStr = name → l' = l) :
    v.fatGetFileData stale (slash :: name) = some (.ok ⟨e, rootDir v.fs⟩) := by
  obtain ⟨hnul, hslash, hne, hdot, hdots, _⟩ := checkFileName_spec hname
  have hanswers : e.answersTo name := by
    rw [DirEntry.answersTo, decide_eq_true_eq]
    exact ⟨hstr, fun _ => hattr⟩
  have hfirst : (v.view.locs (ch none)).find? (fun l' => (v.view.slot l').answersTo name) = some l := by
    cases hfind : (v.view.locs (ch none)).find? fun l' => (v.view.slot l').answersTo name with
    | none => exact absurd (he ▸ hanswers) (List.find?_eq_none.1 hfind l hl)
    | some l' =>
      have hl' := List.find?_some (p := fun l' => (v.view.slot l').answersTo name) hfind
      simp only [DirEntry.answersTo, decide_eq_true_eq] at hl'
      rw [hunique l' (List.mem_of_find?_eq_some hfind) hl'.1]
  have hentry : (v.view.slot l).isEntry := by
    rw [he, DirEntry.isEntry, decide_eq_true_eq, hstr]
    exact ⟨hne, hdot, hdots⟩
  have hleads : v.view.Leads none (segments name) (some l) := by
    rw [(segments_last hslash).1]
    exact .step (rootDir_isDirectory v.fs) (h.owns none .root) hne hnul hlen hfirst hentry (.here _)
  have hpath : NoNul ([] ++ slash :: name) := by
    intro b hb
    rcases List.mem_cons.1 hb with rfl | hb
    · decide
    · exact hnul b hb
  have hparent : getParentDir stale (slash :: name) = some [slash] := by
    have := @getParentDir_slash stale [] name hpath hslash
    rwa [if_neg, if_pos rfl] at this
    rw [List.nil_append, List.length_cons, pathCopySize]
    rw [filenameSize] at hlen
    omega
  simp only [Volume.fatGetFileData, fatFindDirEntryFromPath_of_leads hs hne hleads, hparent,
    fatFindDirEntryFromPath_root, View.dirent_some, he, Option.bind_eq_bind, Option.bind_some]

/-- An image as the host writes it: 512-byte sectors, at most 128 of them for a FAT, and the boot sector, the FATs and the
clusters apart. -/
structure Loadable (fs : Fat16Fs) : Prop where
  sector : fs.bytesPerSector = 512
  cluster : 1 ≤ fs.sectorsPerCluster
  reserved : 1 ≤ fs.reservedSectors
  fats : 1 ≤ fs.numFats
  fat : fs.sectorsPerFat ≤ 128

theorem Loadable.sound {fs : Fat16Fs} (h : Loadable fs) : fs.Sound ∧ Separated fs := by
  have hfat := h.fat
  have hentries : fs.totalFatEntries ≤ 2 ^ 15 := by
    rw [Fat16Fs.totalFatEntries, h.sector]
    omega
  have hdata : fs.totalFatEntries * fs.sectorsPerCluster ≤ 2 ^ 15 * 2 ^ 8 :=
    Nat.mul_le_mul hentries fs.sectorsPerCluster_lt.le
  have hfats : fs.numFats * fs.sectorsPerFat ≤ 2 ^ 8 * 128 := Nat.mul_le_mul fs.numFats_lt.le hfat
  have hres := fs.reservedSectors_lt
  refine ⟨⟨h.sector, h.cluster, h.fats, by omega⟩, ⟨h.sector, h.reserved, h.fats, ?_⟩⟩
  rw [Fat16Fs.rootDirStart]
  omega

/-- After the loader has created `/name` and written `w` to it, the kernel mounts the image, finds the file and reads `w`,
and finds and reads every other file as before. -/
theorem load_readable {fresh disk : ByteMem} {v v₁ v₂ : Volume} {name w : List UInt8} {d : FileData} {e : DirEntry}
    (hinit : Loader.fatInit fresh disk = some (some v)) (hgeo : Loadable v.fs) (hwf : v.view.WellFormed)
    (hname : checkFileName name) (hlen : name.length ≤ filenameSize)
    (htilde : ∀ cs, v.view.Owns none cs → ∀ l ∈ v.view.locs cs, (v.view.slot l).nameStr ≠ [tilde])
    (hcreate : Loader.fatCreateFile v (slash :: name) = some (.SUCCESS, v₁))
    (hdata : Loader.fatGetFileData v₁ (slash :: name) = some d)
    (hwrite : Loader.fatWrite v₁ d.fileEntry d.parentEntry 0 w = some ((w.length : Int), e, v₂)) :
    ∀ fresh' stale, fatInit (some fresh') disk = some (some v) ∧ fatInit (some fresh') v₂.disk = some (some v₂) ∧
      (∃ file, v₂.fatGetFileData stale (slash :: name) = some (.ok file) ∧
        v₂.fatRead file.fileEntry 0 w.length = some ((w.length : Int), w)) ∧
      (∀ l, View.Node v.view (some l) → (v.view.slot l).isDirectory = false →
        View.Node v₂.view (some l) ∧ v₂.view.slot l = v.view.slot l ∧
          ∀ offset size, v₂.fatRead (v.view.slot l) offset size = v.fatRead (v.view.slot l) offset size) ∧
      ∀ t l, t ≠ [] → v.view.Leads none (segments t) (some l) →
        fatFindDirEntryFromPath v (slash :: t) = some (.ok (v.view.slot l)) ∧
          fatFindDirEntryFromPath v₂ (slash :: t) = some (.ok (v.view.slot l)) := by
  intro fresh' stale
  obtain ⟨hs, hsep⟩ := hgeo.sound
  obtain ⟨rfl, hsynced, hmounted, _⟩ := Loader.fatInit_spec hinit hsep
  obtain ⟨ch, h⟩ := View.wellFormed_iff.1 hwf
  obtain ⟨f, ds, l, ch₁, hadded, hback, hnew⟩ :=
    Loader.fatCreateFile_root hs hsep h hname hlen (htilde _ (h.owns none .root)) hcreate
  obtain ⟨hstr, hentry⟩ := Loader.newEntry_spec (f := UInt16.ofNat f) hname hlen
  generalize hr : Loader.newEntry (subName name) (UInt16.ofNat f) false = r at hadded hstr hentry
  have hattr : r.attr = 0 := by rw [← hr]; rfl
  have hfile : r.isDirectory = false := by rw [DirEntry.isDirectory, hattr]; decide
  have hempty : r.fileSize = 0 := by rw [← hr]; rfl
  have hs₁ : v₁.fs.Sound := hback.fs ▸ hs
  have hsep₁ : Separated v₁.fs := hback.fs ▸ hsep
  have hln₁ : View.Node v₁.view (some l) := (hadded.node _).2 (.inr rfl)
  have hlocs₁ := View.locs_congr hadded.fs
  have hroot₁ : ch₁ none = ch none ++ ds := by rw [hadded.chain none (by simp), Function.update_self]
  have hl₁ : l ∈ v₁.view.locs (ch₁ none) := by
    rw [hlocs₁, hroot₁]
    exact hadded.mem
  -- the name is that of the new file alone
  have hunique : ∀ l' ∈ v₁.view.locs (ch₁ none), (v₁.view.slot l').nameStr = name → l' = l := by
    intro l' hl' hname'
    by_contra hne
    rw [hlocs₁, hroot₁, View.locs_append, List.mem_append] at hl'
    rcases hl' with hl' | hl'
    · rw [hadded.keep none .root l' hl' hne] at hname'
      exact hnew l' hl' hname'
    · rw [hadded.grown l' hl' hne] at hname'
      exact (checkFileName_spec hname).2.2.1 (hname'.symm.trans (by decide))
  have hd := Loader.fatGetFileData_root hs₁ (hadded.tree.owns none .root) hname hlen hl₁ hadded.slot hstr hfile hunique
  rw [hdata, Option.some.injEq] at hd
  subst hd
  obtain ⟨ch₂, hchange, hback₂, rfl, hslot₂, hret, rest, hbytes⟩ := Loader.fatWrite_new hs₁ hsep₁ hadded.tree hln₁
    hadded.slot hfile hattr hempty hadded.own .root (rootDir_isDirectory v₁.fs) hl₁ rfl
    (by rw [hstr]; exact hunique) hwrite
  have hwlen : w.length < 2 ^ 32 := (Loader.count_eq (le_refl _) hret).2
  have hboth := hback.trans hback₂
  have hs₂ : v₂.fs.Sound := hboth.fs ▸ hs
  have hln₂ : View.Node v₂.view (some l) := (hchange.node _).2 hln₁
  have hlocs₂ := View.locs_congr hchange.fs
  have hroot₂ : ch₂ none = ch₁ none := hchange.chain none (by simp)
  have hl₂ : l ∈ v₂.view.locs (ch₂ none) := by rwa [hlocs₂, hroot₂]
  have hunique₂ : ∀ l' ∈ v₂.view.locs (ch₂ none), (v₂.view.slot l').nameStr = name → l' = l := by
    intro l' hl' hname'
    by_contra hne
    rw [hlocs₂, hroot₂] at hl'
    rw [hchange.dir none .root (rootDir_isDirectory v₁.fs) l' hl' hne] at hname'
    exact hne (hunique l' hl' hname')
  have hmounted₂ : v₂.Mounted := by
    rw [Volume.Mounted, hboth.boot, hboth.fs]
    exact hmounted
  have hkind₁ : (v₁.view.slot l).isDirectory = false := by rw [hadded.slot]; exact hfile
  -- the root has a cluster, so the FAT has a sector
  have hentries : 0 < v.fs.totalFatEntries := by
    have hlt := h.lt_length .root (h.owns none .root).mem_head
    rw [Volume.view_fat, v.fatTable_length] at hlt
    exact Nat.zero_lt_of_lt hlt
  have hfits : v.fs.TableFits := hsep.tableFits (Nat.pos_of_ne_zero fun hzero => by
    simp [Fat16Fs.totalFatEntries, hzero] at hentries)
  have hfits₂ : v₂.fs.TableFits := hboth.fs ▸ hfits
  refine ⟨fatInit_of_remounts (hsynced.remounts hsep hmounted hfits) fresh',
    fatInit_of_remounts ((hboth.synced hsynced).remounts (hboth.separated hsep) hmounted₂ hfits₂) fresh', ⟨_,
      fatGetFileData_root hs₂ hchange.tree hname hlen hl₂ hslot₂ hstr hattr hunique₂, ?_⟩, ?_, ?_⟩
  · obtain ⟨hroom, hread⟩ := fatRead_of_tree hs₂ hchange.tree hln₂ hslot₂ hfile
    have hsize : (r.resize w.length).fileSize.toNat = w.length := Volume.toNat_resize hwlen
    rw [hread, hsize, View.read_splice (b := w ++ rest) ?_ (by simp) (by simp) hwlen hret]
    rw [hbytes]
    simp [splice]
  · intro l' hl' hkind
    have hne : some l' ≠ some l := by
      rintro heq
      rw [heq] at hl'
      exact hadded.new hl'
    have hl'₁ : View.Node v₁.view (some l') := (hadded.node _).2 (.inl hl')
    have hslot₁ := hadded.dirent h hl'
    have hslot' := (hchange.dirent hadded.tree hl'₁ hne).trans hslot₁
    rw [View.dirent_some, View.dirent_some] at hslot₁ hslot'
    have hl'₂ := (hchange.node _).2 hl'₁
    have hch₁ : ch₁ (some l') = ch (some l') := by
      rw [hadded.chain _ hne, Function.update_of_ne (by simp)]
    refine ⟨hl'₂, hslot', fatRead_congr hs hboth.fs h hchange.tree hl' hl'₂ hslot' hkind
      ((hchange.chain _ hne).trans hch₁) fun c hc => ?_⟩
    rw [hchange.file _ hl'₁ hne (by rw [View.dirent_some, hslot₁]; exact hkind) c (by rwa [hch₁]),
      hadded.file _ hl' hkind c hc]
  · intro t l' ht hleads
    refine ⟨fatFindDirEntryFromPath_of_leads hs ht hleads, ?_⟩
    have hl' := hleads.node h .root
    have hne : some l' ≠ some l := by
      rintro heq
      rw [heq] at hl'
      exact hadded.new hl'
    have hleads₁ := hleads.added h hadded .root .root fun l'' hl'' => by
      rw [hstr]
      exact View.answersTo_eq_false (hnew l'' hl'')
    have hleads₂ := hleads₁.fileChange hadded.tree hchange .root hkind₁ (by rw [hslot₂, hadded.slot]; rfl)
      (by rw [hslot₂, hadded.slot]; rfl)
    have hdirent := (hchange.dirent hadded.tree ((hadded.node _).2 (.inl hl')) hne).trans (hadded.dirent h hl')
    rw [fatFindDirEntryFromPath_of_leads hs₂ ht hleads₂, hdirent]
    rfl

/-- A disk with an empty root. -/
def emptyDisk : ByteMem := image [0xFFF8, 0xFFFF] fun _ => []

/-- A file `~` of one byte in the root. -/
def tildeFile : DirEntry := { DirEntry.zero with name := DirEntry.nameOf [tilde], startCluster := 2, fileSize := 1 }

def tildeDisk : ByteMem :=
  image [0xFFF8, 0xFFFF, 0xFFF8] fun c => if c = 0 then tildeFile.toBytes else if c = 2 then [7] else []

/-- Creating `/a` stores the record of the root in the slot of the file `~`, which cannot be read any more. -/
theorem not_load_readable : ∃ v v₁ v₂ d e file file', Loader.fatInit (fun _ => 0) tildeDisk = some (some v) ∧
    Loadable v.fs ∧ v.view.WellFormed ∧ v.fatFindFree ≠ none ∧
    Loader.fatCreateFile v [slash, 0x61] = some (.SUCCESS, v₁) ∧ Loader.fatGetFileData v₁ [slash, 0x61] = some d ∧
    Loader.fatWrite v₁ d.fileEntry d.parentEntry 0 [1] = some (1, e, v₂) ∧
    v.fatGetFileData (fun _ => 0) [slash, tilde] = some (.ok file) ∧ v.fatRead file.fileEntry 0 1 = some (1, [7]) ∧
    v₂.fatGetFileData (fun _ => 0) [slash, tilde] = some (.ok file') ∧ v₂.fatRead file'.fileEntry 0 1 = some (-1, []) := by
  have hrun : ((fatInit (some fun _ => 0) tildeDisk).bind fun mounted => mounted.bind fun v =>
      (Loader.fatCreateFile v [slash, 0x61]).bind fun r₁ => (Loader.fatGetFileData r₁.2 [slash, 0x61]).bind fun d =>
      (Loader.fatWrite r₁.2 d.fileEntry d.parentEntry 0 [1]).bind fun r₂ =>
      (v.fatGetFileData (fun _ => 0) [slash, tilde]).bind fun file =>
      (r₂.2.2.fatGetFileData (fun _ => 0) [slash, tilde]).map fun file' =>
        (([v.fs.bytesPerSector, v.fs.sectorsPerCluster, v.fs.reservedSectors, v.fs.numFats, v.fs.sectorsPerFat],
          v.view.isTree [(none, [0]), (some (0, 0), [2])] && v.fatFindFree.isSome), (r₁.1, r₂.1),
          decide ((file.toOption.bind fun file => v.fatRead file.fileEntry 0 1) = some (1, [7]) ∧
            (file'.toOption.bind fun file' => r₂.2.2.fatRead file'.fileEntry 0 1) = some (-1, [])))) =
      some (([512, 1, 1, 1, 1], true), (.SUCCESS, 1), true) := by decide +kernel
  simp only [Option.bind_eq_some_iff, Option.map_eq_some_iff, Prod.mk.injEq, List.cons.injEq, and_true,
    Bool.and_eq_true, decide_eq_true_eq] at hrun
  obtain ⟨_, hinit, v, rfl, ⟨_, v₁⟩, hcreate, d, hdata, ⟨_, e, v₂⟩, hwrite, file, hfile, file', hfile',
    ⟨⟨hsector, hspc, hres, hfats, hspf⟩, htree, hfree⟩, ⟨rfl, rfl⟩, ⟨f, hf, hread⟩, ⟨f', hf', hread'⟩⟩ := hrun
  cases file with
  | error _ => cases hf
  | ok file =>
    cases file' with
    | error _ => cases hf'
    | ok file' =>
      cases hf
      cases hf'
      have hgeo : Loadable v.fs := ⟨hsector, hspc.ge, hres.ge, hfats.ge, by rw [hspf]; decide⟩
      refine ⟨v, v₁, v₂, d, e, f, f', Loader.fatInit_of_kernel hinit hgeo.sound.2 hgeo.fat, hgeo,
        (View.wellFormed_of_isTree htree).1, ?_, hcreate, hdata, hwrite, hfile, hread, hfile', hread'⟩
      rwa [← Option.isSome_iff_ne_none]

/-- `load_readable` on an empty root and a file of three bytes. -/
theorem load_readable_emptyDisk : ∃ v v₁ v₂ d e file, Loader.fatInit (fun _ => 0) emptyDisk = some (some v) ∧
    Loader.fatCreateFile v [slash, 0x61] = some (.SUCCESS, v₁) ∧ Loader.fatGetFileData v₁ [slash, 0x61] = some d ∧
    Loader.fatWrite v₁ d.fileEntry d.parentEntry 0 [1, 2, 3] = some (3, e, v₂) ∧
    v₂.fatGetFileData (fun _ => 0) [slash, 0x61] = some (.ok file) ∧
    v₂.fatRead file.fileEntry 0 3 = some (3, [1, 2, 3]) := by
  have hrun : ((fatInit (some fun _ => 0) emptyDisk).bind fun mounted => mounted.bind fun v =>
      (Loader.fatCreateFile v [slash, 0x61]).bind fun r₁ => (Loader.fatGetFileData r₁.2 [slash, 0x61]).bind fun d =>
      (Loader.fatWrite r₁.2 d.fileEntry d.parentEntry 0 [1, 2, 3]).map fun r₂ =>
        ([v.fs.bytesPerSector, v.fs.sectorsPerCluster, v.fs.reservedSectors, v.fs.numFats, v.fs.sectorsPerFat],
          v.view.isTree [(none, [0])] && v.view.isChain 0 [0],
          (v.view.locs [0]).all (fun l => (v.view.slot l).nameStr ≠ [tilde]), r₁.1, r₂.1)) =
      some ([512, 1, 1, 1, 1], true, true, .SUCCESS, 3) := by decide +kernel
  simp only [Option.bind_eq_some_iff, Option.map_eq_some_iff, Prod.mk.injEq, List.cons.injEq, and_true,
    Bool.and_eq_true, List.all_eq_true, decide_eq_true_eq] at hrun
  obtain ⟨_, hinit, v, rfl, ⟨_, v₁⟩, hcreate, d, hdata, ⟨_, e, v₂⟩, hwrite,
    ⟨hsector, hspc, hres, hfats, hspf⟩, ⟨htree, hchain⟩, htilde, rfl, rfl⟩ := hrun
  have hgeo : Loadable v.fs := ⟨hsector, hspc.ge, hres.ge, hfats.ge, by rw [hspf]; decide⟩
  have hmounted : Loader.fatInit (fun _ => 0) emptyDisk = some (some v) :=
    Loader.fatInit_of_kernel hinit hgeo.sound.2 hgeo.fat
  have hnamed := @load_readable (fun _ => 0) emptyDisk v v₁ v₂ [0x61]
  obtain ⟨_, _, ⟨file, hfile, hread⟩, _⟩ := hnamed hmounted hgeo (View.wellFormed_of_isTree htree).1
    (by decide) (by decide) (fun cs hcs => by
      obtain rfl := View.owns_functional hcs (View.chain_of_isChain hchain)
      exact htilde) hcreate hdata hwrite (fun _ => 0) fun _ => 0
  exact ⟨v, v₁, v₂, d, e, file, hmounted, hcreate, hdata, hwrite, hfile, hread⟩

end DBolOS.Fat
