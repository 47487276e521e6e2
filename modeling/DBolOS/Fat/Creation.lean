import DBolOS.Fat.Counts

/-!
# What a creation stores

A creation that the checks let through, in a directory that its path leads to and with a free cluster, stores its record
when the directory has an unused slot or the FAT a second free cluster, and gives the cluster back otherwise
(`fatCreate_cases`).
-/

namespace DBolOS.Fat

namespace Volume

variable {v : Volume} {ch : Option Loc → List Nat} {q n : Option Loc} {f : Nat} {r p : DirEntry}

/-! ### What it asks for -/

/-- The checks of `fat_create` let the path through: it goes on to look for a free cluster. -/
def AsksForCluster (v : Volume) (stale : ByteMem) (path : List UInt8) : Prop :=
  ∃ dirName directory parentDir, getBaseName stale path = some dirName ∧ getParentDir stale path = some directory ∧
    checkFileName (cstr dirName) = true ∧ fatFindDirEntryFromPath v directory = some (.ok parentDir) ∧
    parentDir.isDirectory = true ∧ v.fatFindDirEntry dirName parentDir = some none

/-- There is an unused slot in the clusters, or a free cluster besides the first one. -/
def HasRoom (v : Volume) (cs : List Nat) : Prop :=
  (∃ l ∈ v.view.locs cs, (v.view.slot l).unused) ∨ ∃ g, v.fatTable[g]? = some freeCluster ∧ v.fatFindFree ≠ some g

/-- The checks of `fat_create` let the path through, with this name for the new entry. -/
structure LetsCreate (v : Volume) (stale : ByteMem) (path directory name : List UInt8) (r p : DirEntry) : Prop where
  inDirectory : v.InDirectory stale path directory r p
  base : getBaseName stale path = some (subName name)
  legal : checkFileName name
  length : name.length ≤ filenameSize
  dir : r.isDirectory
  absent : v.fatFindDirEntry (subName name) r = some none

/-- A path that the checks let through. -/
theorem letsCreate_of_asks {stale : ByteMem} {path directory : List UInt8} (hs : v.fs.Sound)
    (hin : v.InDirectory stale path directory r p) (hasks : v.AsksForCluster stale path) :
    ∃ name, v.LetsCreate stale path directory name r p := by
  obtain ⟨dirName, directory', parentDir, hbase, hparent, hname, hfound, hdir, hnew⟩ := hasks
  obtain ⟨name, hnul, hshort, rfl⟩ : ∃ name, NoNul name ∧ name.length ≤ filenameSize ∧ dirName = subName name := by
    obtain ⟨pre, name, rfl, hslash, -, hlen⟩ := hin.shape
    rcases eq_or_ne name [] with rfl | hne
    · -- an empty name is refused
      rw [getBaseName_nil hin.noNul hbase] at hname
      cases hname
    rw [getBaseName_slash hin.noNul hslash hne] at hbase
    split at hbase
    · cases hbase
    rename_i hfits
    exact ⟨name, hin.noNul.mono (by simp), by omega, (Option.some.inj hbase).symm⟩
  rw [hin.parent] at hparent
  obtain rfl := Option.some.inj hparent
  rw [hin.leads.resolves hs] at hfound
  obtain rfl := Except.ok.inj (Option.some.inj hfound)
  rw [cstr_subName hnul hshort] at hname
  exact ⟨name, hin, hbase, hname, hshort, hdir, hnew⟩

section LetsCreate

variable {stale : ByteMem} {path directory name : List UInt8}

private theorem LetsCreate.noNul (hlets : v.LetsCreate stale path directory name r p) : NoNul name :=
  (checkFileName_spec hlets.legal).1

theorem LetsCreate.cstr_eq (hlets : v.LetsCreate stale path directory name r p) : cstr (subName name) = name :=
  cstr_subName hlets.noNul hlets.length

private theorem LetsCreate.fatCreate (hlets : v.LetsCreate stale path directory name r p) (hs : v.fs.Sound)
    (isDirectory : Bool) :
    v.fatCreate stale path isDirectory = v.createEntry stale directory (subName name) r isDirectory := by
  simp only [Volume.fatCreate, hlets.base, hlets.inDirectory.parent, hlets.cstr_eq, hlets.legal,
    hlets.inDirectory.leads.resolves hs, hlets.dir, hlets.absent, Option.bind_eq_bind, Option.bind_some, Bool.not_true,
    Bool.false_eq_true, if_false]

/-- No record of the directory answers to the new name. -/
theorem LetsCreate.new (hlets : v.LetsCreate stale path directory name r p) (hs : v.fs.Sound) (h : v.view.Tree ch)
    (hq : v.view.StandsFor r q) : ∀ l ∈ v.view.locs (ch q), (v.view.slot l).answersTo name = false := by
  have hspec := fatFindDirEntry_spec hs (hq.chain h) hlets.noNul hlets.length
  rw [hlets.absent, Option.some.injEq, eq_comm, Option.map_eq_none_iff] at hspec
  intro l hl
  simpa using List.find?_eq_none.1 hspec l hl

end LetsCreate

/-- A path that the checks stop is refused and changes nothing. -/
theorem fatCreate_of_not_asks {stale : ByteMem} {path : List UInt8} {isDirectory : Bool} {r : Int} {v' : Volume}
    (hasks : ¬v.AsksForCluster stale path) (h : v.fatCreate stale path isDirectory = some (r, v')) :
    r ≠ SUCCESS ∧ v' = v := by
  simp only [fatCreate, Option.bind_eq_bind, Option.bind_eq_some_iff] at h
  obtain ⟨dirName, hbase, directory, hparent, h⟩ := h
  split at h
  · cases h
    exact ⟨by decide, rfl⟩
  rename_i hname
  simp only [Option.bind_eq_some_iff] at h
  obtain ⟨found, hfound, h⟩ := h
  cases found with
  | error err =>
    cases h
    exact ⟨fatFindDirEntryFromPath_error hfound, rfl⟩
  | ok parentDir =>
    dsimp only at h
    split at h
    · cases h
      exact ⟨by decide, rfl⟩
    rename_i hdir
    simp only [Option.bind_eq_some_iff] at h
    obtain ⟨existing, hexisting, h⟩ := h
    cases existing with
    | some e =>
      cases h
      exact ⟨by decide, rfl⟩
    | none =>
      refine absurd ⟨dirName, directory, parentDir, hbase, hparent, ?_, hfound, ?_, hexisting⟩ hasks
      · simpa using hname
      · simpa using hdir

/-- Without a free cluster the entry `0xFFFF` is read, behind the end of the table. -/
theorem fatCreate_eq_none {stale : ByteMem} {path : List UInt8} {isDirectory : Bool} (hs : v.fs.Sound)
    (hasks : v.AsksForCluster stale path) (hfree : v.fatFindFree = none) : v.fatCreate stale path isDirectory = none := by
  obtain ⟨dirName, directory, parentDir, hbase, hparent, hname, hfound, hdir, hnew⟩ := hasks
  have hentry : v.createEntry stale directory dirName parentDir isDirectory = none := by
    simp [createEntry, hfree, fatUpdateChain_outside hs]
  simp only [fatCreate, hbase, hparent, hname, hfound, hdir, hnew, Option.bind_eq_bind, Option.bind_some, Bool.not_true,
    Bool.false_eq_true, if_false]
  exact hentry

/-! ### The record and its slot -/

theorem newEntry_spec {name : List UInt8} (start : UInt16) (isDirectory : Bool) (hname : checkFileName name)
    (hlen : name.length ≤ filenameSize) :
    (newEntry (subName name) start isDirectory).nameStr = name ∧ (newEntry (subName name) start isDirectory).isEntry := by
  obtain ⟨hnul, _, hne, hdot, hdots, _⟩ := checkFileName_spec hname
  have hstr : (newEntry (subName name) start isDirectory).nameStr = name :=
    nameStr_nameOf hnul hlen (by rw [newEntry, cstr_subName hnul hlen])
  refine ⟨hstr, ?_⟩
  rw [DirEntry.isEntry, decide_eq_true_eq, hstr]
  exact ⟨hne, hdot, hdots⟩

theorem newEntry_isDirectory (dirName : List UInt8) (start : UInt16) (isDirectory : Bool) :
    (newEntry dirName start isDirectory).isDirectory = isDirectory := by
  cases isDirectory with
  | false => exact (by decide : ((0 : UInt8) &&& attrDirectory != 0) = false)
  | true => exact (by decide : (attrDirectory &&& attrDirectory != 0) = true)

/-- A record is stored unless there is no unused slot and no free cluster. -/
private theorem fatAddDirEntry_false_iff {dir new : DirEntry} {cs : List Nat} {b : Bool} {w : Volume} (hs : v.fs.Sound)
    (h : v.view.Chain dir.startCluster.toNat cs) (hadd : v.fatAddDirEntry dir new = some (b, w)) :
    b = false ↔ v.firstSlot cs DirEntry.unused = none ∧ v.fatFindFree = none := by
  obtain ⟨last, hlast⟩ := Option.ne_none_iff_exists'.1 fun h0 => h.ne_nil (List.getLast?_eq_none_iff.1 h0)
  have hspec := @fatAddDirEntry_spec v dir new cs last hs h hlast
  cases hslot : v.firstSlot cs DirEntry.unused with
  | some l =>
    rw [hslot] at hspec
    obtain ⟨w', hw', -⟩ := hspec
    obtain ⟨rfl, -⟩ := Prod.mk.inj (Option.some.inj (hadd.symm.trans hw'))
    exact iff_of_false Bool.noConfusion fun hnone => Option.some_ne_none l hnone.1
  | none =>
    rw [hslot] at hspec
    cases hfree : v.fatFindFree with
    | none =>
      rw [hfree] at hspec
      obtain ⟨rfl, -⟩ := Prod.mk.inj (Option.some.inj (hadd.symm.trans hspec))
      exact iff_of_true rfl ⟨rfl, rfl⟩
    | some n =>
      rw [hfree] at hspec
      obtain ⟨w', hw', -⟩ := hspec
      obtain ⟨rfl, -⟩ := Prod.mk.inj (Option.some.inj (hadd.symm.trans hw'))
      exact iff_of_false Bool.noConfusion fun hnone => Option.some_ne_none n hnone.2

/-- Room in the directory, seen when the cluster of the new entry is claimed. -/
private theorem hasRoom_iff {u : Volume} (h : v.view.Tree ch) (hq : View.Node v.view q) (hfree : v.fatFindFree = some f)
    (hview : u.view = v.view.claim f) :
    v.HasRoom (ch q) ↔ ¬(u.firstSlot (ch q) DirEntry.unused = none ∧ u.fatFindFree = none) := by
  obtain ⟨hf, hlt⟩ := fatFindFree_eq_some hfree
  have hslot : ∀ l ∈ v.view.locs (ch q), u.view.slot l = v.view.slot l := by
    intro l hl
    rw [hview, View.slot, View.slot, (h.grown_claim hf q).data q hq l.1 (View.mem_locs.1 hl).1]
  have hfs : u.fs = v.fs := congrArg View.fs hview
  have hlocs : u.view.locs (ch q) = v.view.locs (ch q) := View.locs_congr (hfs : u.view.fs = v.view.fs) (ch q)
  have hused : u.firstSlot (ch q) DirEntry.unused = none ↔ ¬∃ l ∈ v.view.locs (ch q), (v.view.slot l).unused := by
    rw [firstSlot, List.find?_eq_none, hlocs]
    constructor
    · rintro hall ⟨l, hl, hunused⟩
      exact hall l hl (by rw [hslot l hl]; exact hunused)
    · intro hnone l hl hunused
      exact hnone ⟨l, hl, by rw [← hslot l hl]; exact hunused⟩
  have htable : u.fatTable = v.fatTable.set f clusterChainEnd := congrArg View.fat hview
  have hnone : u.fatFindFree = none ↔ ¬∃ g, v.fatTable[g]? = some freeCluster ∧ v.fatFindFree ≠ some g := by
    have hget : ∀ g, u.fatTable[g]? = some freeCluster ↔ v.fatTable[g]? = some freeCluster ∧ v.fatFindFree ≠ some g := by
      intro g
      rw [htable, hfree, List.getElem?_set]
      by_cases hgf : f = g
      · subst hgf
        simp [hlt, clusterChainEnd, freeCluster]
      · simp [hgf]
    rw [fatFindFree, List.findIdx?_eq_none_iff]
    constructor
    · rintro hall ⟨g, hg⟩
      have := hall freeCluster (List.mem_of_getElem? ((hget g).2 hg))
      simp at this
    · intro hno x hx
      obtain ⟨g, hg⟩ := List.mem_iff_getElem?.1 hx
      by_contra hfreex
      obtain rfl : x = freeCluster := by simpa using hfreex
      exact hno ⟨g, (hget g).1 hg⟩
  rw [HasRoom, hused, hnone, not_and_or, not_not, not_not]

/-- The first slot of a cluster that passes a test. -/
theorem firstSlot_at {w : Volume} {p : DirEntry → Bool} {i : Nat} (hi : i < w.fs.slotsPerCluster)
    (hbefore : ∀ j < i, p (w.view.slot (f, j)) = false) (hat : p (w.view.slot (f, i)) = true) :
    w.firstSlot [f] p = some (f, i) := by
  have hrange : List.range w.fs.slotsPerCluster =
      List.range i ++ i :: List.range' (i + 1) (w.fs.slotsPerCluster - (i + 1)) := by
    rw [List.range_eq_range', List.range_eq_range', ← List.range'_succ, ← Nat.sub_sub]
    have := @List.range'_append_1 0 i (w.fs.slotsPerCluster - i)
    rw [Nat.zero_add] at this
    rw [Nat.sub_add_cancel (by omega), this]
    congr 1
    omega
  rw [firstSlot, View.locs, List.flatMap_cons, List.flatMap_nil, List.append_nil, view_fs, hrange, List.map_append,
    List.map_cons, List.find?_append]
  have hnone : ((List.range i).map fun j => (f, j)).find? (fun l => p (w.view.slot l)) = none := by
    refine List.find?_eq_none.2 ?_
    intro l hl hpass
    obtain ⟨j, hj, rfl⟩ := List.mem_map.1 hl
    rw [hbefore j (List.mem_range.1 hj)] at hpass
    cases hpass
  rw [hnone, Option.none_or]
  exact List.find?_cons_of_pos (p := fun l => p (w.view.slot l)) hat

/-! ### The aliases -/

/-- The records of the cluster of a new entry: the aliases of a directory. -/
def newSlot (e parentDir : DirEntry) (i : Nat) : DirEntry :=
  if e.isDirectory ∧ i = 0 then dotEntry [dot] e.startCluster
  else if e.isDirectory ∧ i = 1 then dotEntry [dot, dot] parentDir.startCluster
  else DirEntry.zero

/-- An alias is a record in use that is no entry. -/
theorem dotEntry_spec {name : List UInt8} (start : UInt16) (h : name = [dot] ∨ name = [dot, dot]) :
    (dotEntry name start).nameStr = name ∧ ¬(dotEntry name start).isEntry ∧ (dotEntry name start).unused = false := by
  have hname : (dotEntry name start).nameStr = name := by
    rcases h with rfl | rfl
    · exact nameStr_nameOf (by simp [NoNul, dot]) (by simp) rfl
    · exact nameStr_nameOf (by simp [NoNul, dot]) (by simp) rfl
  refine ⟨hname, ?_⟩
  rw [DirEntry.isEntry, DirEntry.unused, hname]
  rcases h with rfl | rfl
  · simp
  · simp

/-- A record stored in the cluster of a new directory, behind `i` used slots. -/
private theorem fatAddDirEntry_inside {w : Volume} {ch' : Option Loc → List Nat} {ds : List Nat} {l : Loc}
    {e a : DirEntry} {i : Nat}
    (hs : v.fs.Sound) (ha : v.view.Added w.view ch ch' q ds l e f) (hq : View.Node v.view q)
    (hi : i < v.fs.slotsPerCluster) (hnot : ¬a.isEntry) (hbefore : ∀ j < i, (w.view.slot (f, j)).unused = false)
    (hat : (w.view.slot (f, i)).unused = true) :
    ∃ w', w.fatAddDirEntry e a = some (true, w') ∧ w'.view = w.view.putSlot (f, i) a ∧
      v.view.Added w'.view ch ch' q ds l e f := by
  have hfs : w.fs = v.fs := ha.fs
  have hsw : w.fs.Sound := hfs ▸ hs
  have hl : View.Node w.view (some l) := (ha.node _).2 (.inr rfl)
  have hchain : w.view.Chain e.startCluster.toNat [f] := by
    have := ha.tree.owns _ hl
    rwa [View.Owns, View.dirent_some, ha.slot, ha.own] at this
  have hspec := @fatAddDirEntry_spec w e a _ _ hsw hchain (rfl : [f].getLast? = some f)
  rw [firstSlot_at (by rw [hfs]; exact hi) hbefore hat] at hspec
  obtain ⟨w', hw', hview⟩ := hspec
  refine ⟨w', hw', hview, ?_⟩
  rw [hview]
  exact ha.putSlot (view_sized hsw) hq hi hnot (View.not_isEntry_of_unused hat)

/-- The aliases of a new directory go into the first two slots of its cluster. -/
private theorem addDotEntries_added {w : Volume} {ch' : Option Loc → List Nat} {ds : List Nat} {l : Loc} {e : DirEntry}
    (parentDir : DirEntry) (hs : v.fs.Sound) (ha : v.view.Added w.view ch ch' q ds l e f) (hq : View.Node v.view q)
    (hzero : w.view.data f = v.view.zeroes) :
    ∃ w', w.addDotEntries parentDir e e.isDirectory = some (true, w') ∧ v.view.Added w'.view ch ch' q ds l e f ∧
      ∀ i < v.fs.slotsPerCluster, w'.view.slot (f, i) = newSlot e parentDir i := by
  have hslot : ∀ i, w.view.slot (f, i) = DirEntry.zero := by
    intro i
    rw [View.slot, hzero]
    exact View.slotAt_replicate _ _
  cases hdir : e.isDirectory with
  | false => exact ⟨w, rfl, ha, fun i _ => by simp [hslot, newSlot, hdir]⟩
  | true =>
    have htwo : 2 ≤ v.fs.slotsPerCluster := by
      rw [View.slotsPerCluster_eq hs]
      have := hs.cluster
      omega
    obtain ⟨-, hnot, hused⟩ := dotEntry_spec e.startCluster (.inl rfl : [dot] = [dot] ∨ _)
    obtain ⟨-, hnot', -⟩ := dotEntry_spec parentDir.startCluster (.inr rfl : _ ∨ [dot, dot] = [dot, dot])
    obtain ⟨w₁, hw₁, hview₁, ha₁⟩ := @fatAddDirEntry_inside v ch q f w ch' ds l e _ 0 hs ha hq (by omega) hnot
      (fun j hj => absurd hj (Nat.not_lt_zero j)) (by rw [hslot]; exact View.zero_unused)
    have hfs : w.fs = v.fs := ha.fs
    have hsized : w.view.Sized := view_sized (hfs ▸ hs)
    have hf : f < w.view.fat.length := by
      refine ha.tree.lt_length ((ha.node (some l)).2 (.inr rfl)) ?_
      rw [ha.own]
      exact List.mem_singleton_self f
    have hzeroth : 0 < w.view.fs.slotsPerCluster := by
      rw [view_fs, hfs]
      omega
    have hslot₁ : ∀ i, w₁.view.slot (f, i) = if i = 0 then dotEntry [dot] e.startCluster else DirEntry.zero := by
      intro i
      rw [hview₁]
      split
      · rename_i hi
        rw [hi, View.slot_putSlot_self hsized _ hf hzeroth]
      · rename_i hi
        rw [View.slot_putSlot_of_ne hsized _ hf hzeroth (by simp [hi]), hslot]
    obtain ⟨w₂, hw₂, hview₂, ha₂⟩ := @fatAddDirEntry_inside v ch q f w₁ ch' ds l e _ 1 hs ha₁ hq htwo hnot'
      (by
        intro j hj
        rw [hslot₁, if_pos (Nat.lt_one_iff.1 hj)]
        exact hused)
      (by
        rw [hslot₁, if_neg one_ne_zero]
        exact View.zero_unused)
    refine ⟨w₂, ?_, ha₂, ?_⟩
    · rw [addDotEntries, if_pos rfl]
      simp only [hw₁, Option.bind_eq_bind, Option.bind_some]
      exact hw₂
    · intro i _
      have hfs₁ : w₁.fs = v.fs := ha₁.fs
      have hsized₁ : w₁.view.Sized := view_sized (hfs₁ ▸ hs)
      have hf₁ : f < w₁.view.fat.length := by
        rw [hview₁]
        exact hf
      have hone : 1 < w₁.view.fs.slotsPerCluster := by
        rw [view_fs, hfs₁]
        omega
      rw [hview₂, newSlot, hdir]
      by_cases hi : i = 1
      · subst hi
        rw [View.slot_putSlot_self hsized₁ _ hf₁ hone]
        simp
      · rw [View.slot_putSlot_of_ne hsized₁ _ hf₁ hone (by simp [hi]), hslot₁]
        simp [hi]

/-! ### The call -/

/-- What a creation does that the checks let through, with a free cluster. -/
theorem fatCreate_cases {stale : ByteMem} {path directory name : List UInt8} (isDirectory : Bool) (hs : v.fs.Sound)
    (h : v.view.Tree ch) (hlets : v.LetsCreate stale path directory name r p) (hq : v.view.StandsFor r q)
    (hn : v.view.StandsFor p n) (hfree : v.fatFindFree = some f) {e : DirEntry}
    (he : e = newEntry (subName name) (UInt16.ofNat f) isDirectory) :
    (¬v.HasRoom (ch q) ∧ ∃ u, v.fatUpdateChain f f = some u ∧ u.view = v.view.claim f ∧
      v.fatCreate stale path isDirectory = u.undoCreate e) ∨
    (v.HasRoom (ch q) ∧ ∃ (u w : Volume) (ch' : Option Loc → List Nat) (ds : List Nat) (l : Loc),
      v.fatCreate stale path isDirectory = some (SUCCESS, w) ∧
      v.view.Added u.view ch ch' q ds l e f ∧ u.InDirectory stale path directory r p ∧
      (∀ i < v.fs.slotsPerCluster, u.view.slot (f, i) = newSlot e r i) ∧
      u.StoresCount w ch' n (counted r)) := by
  obtain ⟨hstr, hentry⟩ := newEntry_spec (UInt16.ofNat f) isDirectory hlets.legal hlets.length
  have hisDir : e.isDirectory = isDirectory := by rw [he, newEntry_isDirectory]
  rw [← he] at hstr hentry
  have hsize : e.isDirectory = false → e.fileSize = 0 := by
    intro hfile
    rw [hisDir] at hfile
    rw [he, hfile]
    rfl
  obtain ⟨u, hu, hview, hadd⟩ := fatAddDirEntry_added (p := r) hs h hfree hq.node (hq.kind ▸ hlets.dir) hq.start hentry
    (by rw [he]; rfl) hsize
  have hfs : u.fs = v.fs := congrArg View.fs hview
  have hclaim := h.grown_claim (fatFindFree_eq_some hfree).1 q
  have hchain : u.view.Chain r.startCluster.toNat (ch q) := by
    have := hclaim.tree.owns q ((hclaim.node q).2 hq.node)
    rwa [List.append_nil, Function.update_eq_self, View.Owns, hclaim.dirent q hq.node, ← hview, ← hq.start] at this
  have hroom := hasRoom_iff h hq.node hfree hview
  have hcluster := toNat_ofNat_of_free hs hfree
  have hcreate := hlets.fatCreate hs isDirectory
  rcases hadd with ⟨hfail, -⟩ | ⟨w, ch', ds, l, hw, ha, hzero⟩
  · left
    refine ⟨fun hr => hroom.1 hr ((fatAddDirEntry_false_iff (hfs ▸ hs) hchain hfail).1 rfl), u, hu, hview, ?_⟩
    simp only [hcreate, createEntry, hfree, hcluster, ← he, hu, hfail, Option.bind_eq_bind, Option.bind_some]
  · right
    have hroom' : v.HasRoom (ch q) := by
      refine hroom.2 fun hnone => ?_
      have := (fatAddDirEntry_false_iff (hfs ▸ hs) hchain hw).2 hnone
      cases this
    obtain ⟨x, hx, ha', hslots⟩ := addDotEntries_added r hs ha hq.node hzero
    rw [hisDir] at hx
    have hin : x.InDirectory stale path directory r p :=
      hlets.inDirectory.added h ha' hq.node (by rw [hstr]; exact hlets.new hs h hq)
    have hfs' : x.fs = v.fs := ha'.fs
    obtain ⟨y, hy, hcount⟩ := updateParentCount_count (hfs' ▸ hs) ha'.tree hin (hn.added h ha') hlets.dir
    refine ⟨hroom', x, y, ch', ds, l, ?_, ha', hin, hslots, hcount⟩
    simp only [hcreate, createEntry, hfree, hcluster, ← he, hu, hw, hx, Option.bind_eq_bind, Option.bind_some]
    exact hy

/-- The creation goes through: the checks pass, and there is a free cluster and room for the record. -/
def Stores (v : Volume) (stale : ByteMem) (path : List UInt8) (r : DirEntry) : Prop :=
  v.AsksForCluster stale path ∧ v.fatFindFree ≠ none ∧ ∀ cs, v.view.Chain r.startCluster.toNat cs → v.HasRoom cs

/-- A creation that goes through succeeds. -/
theorem Stores.success {stale : ByteMem} {path directory : List UInt8} (hst : v.Stores stale path r)
    (isDirectory : Bool) (hs : v.fs.Sound) (h : v.view.Tree ch) (hin : v.InDirectory stale path directory r p) :
    ∃ w, v.fatCreate stale path isDirectory = some (SUCCESS, w) := by
  obtain ⟨hasks, hne, hroom⟩ := hst
  obtain ⟨f, hfree⟩ := Option.ne_none_iff_exists'.1 hne
  obtain ⟨q, hq⟩ := hin.leads.standsFor
  obtain ⟨_, -, hto⟩ := hin.above
  obtain ⟨n, hn⟩ := hto.standsFor
  obtain ⟨name, hlets⟩ := letsCreate_of_asks hs hin hasks
  rcases fatCreate_cases isDirectory hs h hlets hq hn hfree rfl with ⟨hfull, -⟩ | ⟨-, u, w, ch', ds, l, heq, -⟩
  · exact absurd (hroom _ (hq.chain h)) hfull
  · exact ⟨w, heq⟩

end Volume

end DBolOS.Fat
