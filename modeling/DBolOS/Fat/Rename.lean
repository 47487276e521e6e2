import DBolOS.Fat.Parents

/-!
# What a rename changes

`fat_rename` finds the record by its path, looks the new name up with the attribute of the record behind it, and rewrites
the first record of the old name.  The record is found again under the new name, and no other path resolves in another
way, exactly when the new name leaves room for a terminator or the record has no attribute, and no second record has the
old name (`renamesRight_iff`).
-/

namespace DBolOS.Fat

/-! ### What a rename should do -/

/-- The record under a new name. -/
def DirEntry.rename (e : DirEntry) (newName : List UInt8) : DirEntry := { e with name := DirEntry.nameOf newName }

namespace Volume

/-- The checks of `fat_rename` let the call through. -/
structure LetsRename (v : Volume) (stale : ByteMem) (path newName : List UInt8) (file parentDir : DirEntry) : Prop where
  resolves : fatFindDirEntryFromPath v path = some (.ok file)
  parent : ∃ directory, getParentDir stale path = some directory ∧
    fatFindDirEntryFromPath v directory = some (.ok parentDir)
  dir : parentDir.isDirectory
  length : newName.length ≤ filenameSize
  legal : checkFileName newName
  absent : v.fatFindDirEntry (file.rename newName).toBytes parentDir = some none

/-- Resolution of the path looks one of the names up in a directory that shares a cluster with `dir`. -/
def AsksFor (v : Volume) (path : List UInt8) (names : List (List UInt8)) (dir : DirEntry) : Prop :=
  ∃ index d, Reached v path (index, d) ∧ LooksUp path index d ∧ segmentAt path index ∈ names ∧
    ∃ i j c, v.getIthCluster d.startCluster.toNat i = some (some c) ∧
      v.getIthCluster dir.startCluster.toNat j = some (some c)

/-- The record is found under the new name alone, and nothing else has changed. -/
structure Renamed (v w : Volume) (path newName : List UInt8) (file parentDir : DirEntry) : Prop where
  found : w.fatFindDirEntry (subName newName) parentDir = some (some (file.rename newName))
  gone : ∀ e, fatFindDirEntryFromPath w path ≠ some (.ok e)
  others : ∀ other, NoNul other → ¬v.AsksFor other [file.nameStr, newName] parentDir →
    fatFindDirEntryFromPath w other = fatFindDirEntryFromPath v other
  table : w.fatTable = v.fatTable
  onDisk : w.fatSectors = v.fatSectors

/-- A rename that succeeds changes the name and nothing else, one that fails changes nothing. -/
def RenamesRight (v : Volume) (stale : ByteMem) (path newName : List UInt8) : Prop :=
  ∀ r w, v.fatRename stale path newName = some (r, w) →
    (r ≠ SUCCESS → w = v) ∧
      (r = SUCCESS → ∃ file parentDir, v.LetsRename stale path newName file parentDir ∧
        v.Renamed w path newName file parentDir)

/-- A new name of 11 bytes is for a record without an attribute, and one record of the directory has the old name. -/
structure RoomForName (v : Volume) (newName : List UInt8) (file parentDir : DirEntry) : Prop where
  attr : newName.length = filenameSize → file.attr = 0
  unique : ∀ cs, v.view.Chain parentDir.startCluster.toNat cs → ∀ l ∈ v.view.locs cs, ∀ l' ∈ v.view.locs cs,
    (v.view.slot l).answersTo file.nameStr → (v.view.slot l').answersTo file.nameStr → l = l'

variable {v w : Volume} {stale : ByteMem} {path newName : List UInt8} {file parentDir : DirEntry} {r : Int}

private theorem LetsRename.unique {file' parentDir' : DirEntry} (h : v.LetsRename stale path newName file parentDir)
    (h' : v.LetsRename stale path newName file' parentDir') : file' = file ∧ parentDir' = parentDir := by
  have hfile := h'.resolves
  rw [h.resolves] at hfile
  obtain ⟨directory, hparent, hdir⟩ := h.parent
  obtain ⟨directory', hparent', hdir'⟩ := h'.parent
  rw [hparent] at hparent'
  obtain rfl := Option.some.inj hparent'
  rw [hdir] at hdir'
  exact ⟨(Except.ok.inj (Option.some.inj hfile)).symm, (Except.ok.inj (Option.some.inj hdir')).symm⟩

/-! ### The call -/

private theorem LetsRename.fatRename (h : v.LetsRename stale path newName file parentDir) :
    v.fatRename stale path newName = v.renameEntry newName file parentDir := by
  obtain ⟨directory, hparent, hdir⟩ := h.parent
  simp only [Volume.fatRename, h.resolves, hparent, hdir, h.dir, h.legal, if_neg (Nat.not_lt.2 h.length), Option.bind_eq_bind,
    Option.bind_some, Bool.not_true, Bool.false_eq_true, if_false]

/-- An update that finds no record leaves the volume as it is. -/
private theorem eq_of_fatUpdateDirEntry {name : List UInt8} {dir new : DirEntry}
    (h : v.fatUpdateDirEntry name dir new = some (false, w)) : w = v := by
  simp only [fatUpdateDirEntry, Option.bind_eq_bind, Option.bind_eq_some_iff] at h
  obtain ⟨hit, -, h⟩ := h
  cases hit with
  | none =>
    cases h
    rfl
  | some hit =>
    simp only [Option.bind_eq_some_iff] at h
    obtain ⟨_, -, h⟩ := h
    cases h

/-- A rename leaves the volume as it is, or the checks let it through and it succeeds. -/
private theorem fatRename_cases (h : v.fatRename stale path newName = some (r, w)) :
    r ≠ SUCCESS ∧ w = v ∨ r = SUCCESS ∧ ∃ file parentDir, v.LetsRename stale path newName file parentDir := by
  simp only [Volume.fatRename, Option.bind_eq_bind, Option.bind_eq_some_iff] at h
  obtain ⟨found, hfile, h⟩ := h
  cases found with
  | error err =>
    cases h
    exact .inl ⟨fatFindDirEntryFromPath_error hfile, rfl⟩
  | ok file =>
    simp only [Option.bind_eq_some_iff] at h
    obtain ⟨directory, hparent, found, hdir, h⟩ := h
    cases found with
    | error err =>
      cases h
      exact .inl ⟨fatFindDirEntryFromPath_error hdir, rfl⟩
    | ok parentDir =>
      dsimp only at h
      split at h
      · cases h
        exact .inl ⟨by decide, rfl⟩
      rename_i hisDir
      split at h
      · cases h
        exact .inl ⟨by decide, rfl⟩
      rename_i hlength
      split at h
      · cases h
        exact .inl ⟨by decide, rfl⟩
      rename_i hlegal
      simp only [renameEntry, Option.bind_eq_bind, Option.bind_eq_some_iff] at h
      obtain ⟨copied, -, found, habsent, h⟩ := h
      cases found with
      | some e =>
        cases h
        exact .inl ⟨by decide, rfl⟩
      | none =>
        simp only [Option.bind_eq_some_iff] at h
        obtain ⟨⟨b, u⟩, hupdate, h⟩ := h
        cases b with
        | false =>
          cases h
          exact .inl ⟨by decide, eq_of_fatUpdateDirEntry hupdate⟩
        | true =>
          cases h
          refine .inr ⟨rfl, file, parentDir, hfile, ⟨directory, hparent, hdir⟩, ?_, Nat.not_lt.1 hlength, ?_, habsent⟩
          · simpa using hisDir
          · simpa using hlegal

private theorem nameStr_rename (e : DirEntry) (hlegal : checkFileName newName) (hlen : newName.length ≤ filenameSize) :
    (e.rename newName).nameStr = newName :=
  nameStr_nameOf (checkFileName_spec hlegal).1 hlen rfl

/-- After its checks the rename rewrites the first record of the old name. -/
private theorem renameEntry_stores {l : Loc} {cs : List Nat} (hs : v.fs.Sound) (hgeo : Separated v.fs)
    (h : v.view.Chain parentDir.startCluster.toNat cs) (hne : file.nameStr ≠ [])
    (hl : v.firstSlot cs (DirEntry.answersTo file.nameStr) = some l)
    (habsent : v.fatFindDirEntry (file.rename newName).toBytes parentDir = some none) :
    ∃ w, v.renameEntry newName file parentDir = some (SUCCESS, w) ∧ v.StoresRecord w l (file.rename newName) ∧
      DataOnly v w := by
  obtain ⟨w, hw, hstores⟩ := fatUpdateDirEntry_stores (file.rename newName) hs h
    (fun l' _ => nameEquals_subName file.noNul_nameStr file.length_nameStr_le (v.view.slot l')) hl
  refine ⟨w, ?_, hstores, dataOnly_fatUpdateDirEntry hgeo hw⟩
  rw [DirEntry.rename] at habsent hw
  rw [subName] at hw
  simp only [renameEntry, strncpy_toBytes hne, habsent, hw, Option.bind_eq_bind, Option.bind_some]

/-- No record of the directory has the name. -/
def NoRecord (v : Volume) (name : List UInt8) (dir : DirEntry) : Prop :=
  name ≠ [] ∧ ∃ cs, v.view.Chain dir.startCluster.toNat cs ∧ ∀ l ∈ v.view.locs cs, (v.view.slot l).answersTo name = false

/-- Without a record of the old name in the directory nothing is rewritten. -/
private theorem LetsRename.of_noRecord (hs : v.fs.Sound) (hlets : v.LetsRename stale path newName file parentDir)
    (hno : v.NoRecord file.nameStr parentDir) : v.fatRename stale path newName = some (GENERAL_ERROR, v) := by
  obtain ⟨hne, cs, hcs, hnone⟩ := hno
  have hspec := fatUpdateDirEntry_spec (file.rename newName) hs hcs
    fun l' _ => nameEquals_subName file.noNul_nameStr file.length_nameStr_le (v.view.slot l')
  have hfirst : v.firstSlot cs (DirEntry.answersTo file.nameStr) = none := by
    refine List.find?_eq_none.2 fun l hl => ?_
    rw [hnone l hl]
    decide
  have habsent := hlets.absent
  rw [hfirst] at hspec
  rw [DirEntry.rename] at habsent hspec
  rw [subName] at hspec
  rw [hlets.fatRename]
  simp only [renameEntry, strncpy_toBytes hne, habsent, hspec, Option.bind_eq_bind, Option.bind_some]

/-- The path names a record of the directory `r`. -/
structure NamesIn (v : Volume) (stale : ByteMem) (path directory name : List UInt8) (r : DirEntry) : Prop where
  plain : PlainPath path directory name
  parent : getParentDir stale path = some directory
  leads : v.view.PathTo directory r

variable {ch : Option Loc → List Nat} {directory name : List UInt8} {q p : Option Loc} {l : Loc} {r' : DirEntry}
  {test : DirEntry → Bool}

/-- What a rename that the checks let through meets at such a path. -/
private theorem LetsRename.stores (hs : v.fs.Sound) (hgeo : Separated v.fs) (h : v.view.Tree ch)
    (hin : v.NamesIn stale path directory name r') (hq : v.view.StandsFor r' q)
    (hlets : v.LetsRename stale path newName file parentDir) :
    ∃ l w, parentDir = r' ∧ v.firstSlot (ch q) (DirEntry.answersTo name) = some l ∧ v.view.slot l = file ∧
      file.nameStr = name ∧ name ≠ newName ∧ v.fatRename stale path newName = some (SUCCESS, w) ∧
      v.StoresRecord w l (file.rename newName) ∧ DataOnly v w := by
  obtain ⟨directory', hparent, hdir⟩ := hlets.parent
  rw [hin.parent] at hparent
  obtain rfl := Option.some.inj hparent
  rw [hin.leads.resolves hs] at hdir
  obtain rfl := Except.ok.inj (Option.some.inj hdir)
  have hfile := hlets.resolves
  rw [hin.plain.find hs hin.leads, walk] at hfile
  split at hfile
  · cases hfile
  rename_i hlen
  rw [if_neg (fun h => h.1 rfl), fatFindDirEntry_spec hs (hq.chain h) hin.plain.noNul_name (Nat.not_lt.1 hlen)] at hfile
  cases hl : v.firstSlot (ch q) (DirEntry.answersTo name) with
  | none =>
    rw [hl] at hfile
    cases hfile
  | some l =>
    rw [hl] at hfile
    obtain rfl := Except.ok.inj (Option.some.inj hfile)
    obtain ⟨hc, hi, hanswers⟩ := firstSlot_eq_some hl
    obtain ⟨hname, -⟩ := of_decide_eq_true hanswers
    obtain ⟨w, hw, hstores⟩ := @renameEntry_stores v newName (v.view.slot l) r' l (ch q) hs hgeo
      (hq.chain h) (by rw [hname]; exact hin.plain.name_ne) (by rw [hname]; exact hl) hlets.absent
    refine ⟨l, w, rfl, rfl, rfl, hname, ?_, hlets.fatRename.trans hw, hstores⟩
    rintro rfl
    have habsent := hlets.absent
    rw [fatFindDirEntry_toBytes hs (hq.chain h), Option.some.injEq, Option.map_eq_none_iff] at habsent
    exact firstSlot_eq_none habsent hc hi
      (decide_eq_true ⟨hname.trans (nameStr_rename _ hlets.legal hlets.length).symm, fun _ => rfl⟩)

/-- No record of the directory answers to a new name with room for it. -/
private theorem LetsRename.new (hs : v.fs.Sound) (h : v.view.Tree ch) (hq : v.view.StandsFor parentDir q)
    (hlets : v.LetsRename stale path newName file parentDir) (hattr : newName.length = filenameSize → file.attr = 0) :
    ∀ l ∈ v.view.locs (ch q), (v.view.slot l).answersTo newName = false := by
  have hnew := nameStr_rename file hlets.legal hlets.length
  have habsent := hlets.absent
  rw [fatFindDirEntry_toBytes hs (hq.chain h), Option.some.injEq, Option.map_eq_none_iff] at habsent
  intro l hl
  rw [← Bool.not_eq_true]
  intro hanswers
  obtain ⟨hname, hattr'⟩ := of_decide_eq_true hanswers
  obtain ⟨hc, hi⟩ := View.mem_locs.1 hl
  refine firstSlot_eq_none habsent hc hi (decide_eq_true ⟨hname.trans hnew.symm, fun hlen => ?_⟩)
  rw [hnew] at hlen
  exact (hattr' hlen).trans (hattr hlen).symm

/-- The slots and the clusters after the record was rewritten. -/
private theorem StoresRecord.parts {e : DirEntry} (hw : v.StoresRecord w l e) (hs : v.fs.Sound) (h : v.view.Tree ch)
    (hq : View.Node v.view q) (hl : l ∈ v.view.locs (ch q)) :
    w.view.slot l = e ∧ (∀ l', l' ≠ l → w.view.slot l' = v.view.slot l') ∧
      (∀ cs, w.view.locs cs = v.view.locs cs) ∧
      ∀ start cs, v.view.Chain start cs → w.view.Chain start cs := by
  obtain ⟨hmem, hi⟩ := View.mem_locs.1 hl
  have hlt := h.lt_length hq hmem
  refine ⟨?_, fun l' hl' => ?_, fun cs => View.locs_congr (hw.fs : w.view.fs = v.view.fs) cs, fun start cs hcs => ?_⟩
  · rw [hw.view]
    exact View.slot_putSlot_self (view_sized hs) e hlt hi
  · rw [hw.view]
    exact View.slot_putSlot_of_ne (view_sized hs) e hlt hi hl'
  · rw [hw.view]
    exact hcs

/-! ### Ways through the directory -/

/-- A way goes where it went, or looks the old name up in the directory, and then ends there when no second record has
that name. -/
private theorem walk_renamed {e a b : DirEntry} {names : List (List UInt8)} (hs : v.fs.Sound) (h : v.view.Tree ch)
    (hq : View.Node v.view q) (hl : l ∈ v.view.locs (ch q)) (hname : (v.view.slot l).nameStr = name)
    (hnew : ∀ l' ∈ v.view.locs (ch q), (v.view.slot l').answersTo e.nameStr = false) (hne : name ≠ e.nameStr)
    (hw : v.StoresRecord w l e) (ha : v.view.StandsFor a p) (hway : v.view.Way a names b) :
    (∀ rest, walk w a (names ++ rest) = walk w b rest) ∨ name ∈ names ∧
      ((∀ l' ∈ v.view.locs (ch q), (v.view.slot l').answersTo name → l' = l) →
        ∀ rest, walk w a (names ++ rest) = some (.error DIR_NOT_FOUND)) := by
  obtain ⟨hself, hkeep, hlocs, hchain⟩ := hw.parts hs h hq hl
  have hsw : w.fs.Sound := hw.fs ▸ hs
  induction names generalizing a p with
  | nil =>
    cases hway
    exact .inl fun rest => rfl
  | cons c names ih =>
    obtain ⟨l', n, hdir, -, hnul, hlen, hfind, hn, hrest⟩ := h.way_cons ha hway
    have hmem := List.mem_of_find?_eq_some hfind
    have hans : (v.view.slot l').answersTo c = true :=
      List.find?_some (p := fun l' => (v.view.slot l').answersTo c) hfind
    have hlookup : ∀ rest, walk w a (c :: names ++ rest) =
        ((w.firstSlot (ch p) (DirEntry.answersTo c)).map w.view.slot).elim (some (.error DIR_NOT_FOUND))
          fun d => walk w d (names ++ rest) := by
      intro rest
      rw [List.cons_append, walk, if_neg (Nat.not_lt.2 hlen), if_neg (by simp [hdir]),
        fatFindDirEntry_spec hsw (hchain _ _ (ha.chain h)) hnul hlen]
      cases w.firstSlot (ch p) (DirEntry.answersTo c) <;> rfl
    -- a lookup that the rewritten record does not take part in
    have hstep : (l ∈ v.view.locs (ch p) → c ≠ name) →
        ∀ rest, walk w a (c :: names ++ rest) = walk w (v.view.slot l') (names ++ rest) := by
      intro hother rest
      have hl' : l' ≠ l := by
        rintro rfl
        exact hother hmem ((of_decide_eq_true hans).1.symm.trans hname)
      have hfirst : w.firstSlot (ch p) (DirEntry.answersTo c) = some l' := by
        rw [firstSlot, hlocs, ← hfind]
        refine List.find?_congr fun l'' hl'' => ?_
        by_cases heq : l'' = l
        · subst heq
          have hp : p = q := h.owner_unique ha.node hq hl'' hl
          subst hp
          rw [hself, View.answersTo_eq_false (e := v.view.slot l'') (by rw [hname]; exact (hother hl'').symm)]
          refine View.answersTo_eq_false ?_
          rintro rfl
          rw [hnew l' hmem] at hans
          cases hans
        · rw [hkeep l'' heq]
      rw [hlookup, hfirst, Option.map_some, hkeep l' hl']
      rfl
    by_cases hhit : l ∈ v.view.locs (ch p) ∧ c = name
    · obtain ⟨hlp, rfl⟩ := hhit
      obtain rfl := h.owner_unique ha.node hq hlp hl
      refine .inr ⟨List.mem_cons_self, fun hunique rest => ?_⟩
      have hfirst : w.firstSlot (ch p) (DirEntry.answersTo c) = none := by
        refine List.find?_eq_none.2 fun l'' hl'' hans'' => ?_
        rw [hlocs] at hl''
        by_cases heq : l'' = l
        · rw [heq, hself] at hans''
          exact hne (of_decide_eq_true hans'').1.symm
        · rw [hkeep l'' heq] at hans''
          exact heq (hunique l'' hl'' hans'')
      rw [hlookup, hfirst]
      rfl
    · have hgo := hstep fun hlp hc => hhit ⟨hlp, hc⟩
      rcases ih hn hrest with hsame | ⟨hin, hend⟩
      · exact .inl fun rest => (hgo rest).trans (hsame rest)
      · exact .inr ⟨List.mem_cons_of_mem c hin, fun hunique rest => (hgo rest).trans (hend hunique rest)⟩

/-- The record is found under a new name of less than 11 bytes, or without an attribute. -/
private theorem found_iff (hs : v.fs.Sound) (h : v.view.Tree ch) (hq : v.view.StandsFor parentDir q)
    (hlets : v.LetsRename stale path newName file parentDir) (hl : v.firstSlot (ch q) test = some l)
    (hw : v.StoresRecord w l (file.rename newName)) :
    w.fatFindDirEntry (subName newName) parentDir = some (some (file.rename newName)) ↔
      (newName.length = filenameSize → file.attr = 0) := by
  obtain ⟨hself, hkeep⟩ := hw.slot hs hl h hq.node
  have hnew := nameStr_rename file hlets.legal hlets.length
  have hchain : w.view.Chain parentDir.startCluster.toNat (ch q) := by
    rw [hw.view]
    exact hq.chain h
  have hspec := fatFindDirEntry_spec (hw.fs ▸ hs : w.fs.Sound) hchain (checkFileName_spec hlets.legal).1 hlets.length
  rw [hspec, Option.some.injEq]
  constructor
  · intro hfound
    obtain ⟨l', hl', hslot⟩ := Option.map_eq_some_iff.1 hfound
    obtain ⟨-, -, hanswers⟩ := firstSlot_eq_some hl'
    rw [hslot] at hanswers
    exact (of_decide_eq_true hanswers).2
  · intro hattr
    have hlocs : w.view.locs (ch q) = v.view.locs (ch q) :=
      View.locs_congr (hw.fs : w.view.fs = v.view.fs) (ch q)
    have hmem : l ∈ w.view.locs (ch q) := by
      rw [hlocs]
      exact List.mem_of_find?_eq_some hl
    have hanswers : (w.view.slot l).answersTo newName = true := by
      rw [hself]
      exact decide_eq_true ⟨hnew, hattr⟩
    cases hfirst : w.firstSlot (ch q) (DirEntry.answersTo newName) with
    | none => exact absurd hanswers (List.find?_eq_none.1 hfirst l hmem)
    | some l' =>
      obtain ⟨hc', hi', hanswers'⟩ := firstSlot_eq_some hfirst
      by_cases hl' : l' = l
      · rw [hl', Option.map_some, hself]
      -- another record of the new name would have been found before
      · rw [hkeep l' hl', hlets.new hs h hq hattr l' (View.mem_locs.2 ⟨hc', by rw [view_fs, ← hw.fs]; exact hi'⟩)] at hanswers'
        cases hanswers'

/-- The old path resolves no more when no second record has the old name. -/
private theorem gone_of_unique (hs : v.fs.Sound) (h : v.view.Tree ch)
    (hin : v.NamesIn stale path directory name parentDir)
    (hq : v.view.StandsFor parentDir q) (hlets : v.LetsRename stale path newName file parentDir)
    (hl : v.firstSlot (ch q) (DirEntry.answersTo name) = some l) (hne : name ≠ newName)
    (hattr : newName.length = filenameSize → file.attr = 0) (hw : v.StoresRecord w l (file.rename newName))
    (hunique : ∀ l' ∈ v.view.locs (ch q), (v.view.slot l').answersTo name → l' = l) (e : DirEntry) :
    fatFindDirEntryFromPath w path ≠ some (.ok e) := by
  have hnew := nameStr_rename file hlets.legal hlets.length
  have hmem : l ∈ v.view.locs (ch q) := List.mem_of_find?_eq_some hl
  have hname : (v.view.slot l).nameStr = name := (of_decide_eq_true (firstSlot_eq_some hl).2.2).1
  obtain ⟨names, hway, -, hfind⟩ := hin.plain.exists_way hin.leads
  obtain ⟨hself, hkeep, hlocs, hchain⟩ := hw.parts hs h hq.node hmem
  rw [hfind, hw.fs]
  have hwalk := walk_renamed hs h hq.node hmem hname (by rw [hnew]; exact hlets.new hs h hq hattr)
    (by rw [hnew]; exact hne) hw v.view.standsFor_rootDir hway
  rcases hwalk with hsame | ⟨-, hend⟩
  · intro hfound
    have hlast : walk w parentDir [name] = some (.ok e) := (hsame [name]).symm.trans hfound
    rw [walk] at hlast
    split at hlast
    · cases hlast
    rename_i hlen
    rw [if_neg (fun h => h.1 rfl), fatFindDirEntry_spec (hw.fs ▸ hs) (hchain _ _ (hq.chain h)) hin.plain.noNul_name
      (Nat.not_lt.1 hlen)] at hlast
    cases hfirst : w.firstSlot (ch q) (DirEntry.answersTo name) with
    | none =>
      rw [hfirst] at hlast
      cases hlast
    | some l' =>
      have hl' : l' ∈ v.view.locs (ch q) := by
        rw [← hlocs]
        exact List.mem_of_find?_eq_some hfirst
      have hanswers := (firstSlot_eq_some hfirst).2.2
      by_cases hl'l : l' = l
      · rw [hl'l, hself] at hanswers
        exact hne ((of_decide_eq_true hanswers).1.symm.trans hnew)
      · rw [hkeep l' hl'l] at hanswers
        exact hl'l (hunique l' hl' hanswers)
  · rw [show walk w (rootDir v.fs) (names ++ [name]) = _ from hend hunique [name]]
    simp

/-- A path whose directory part does not look the old name up is gone only when no second record has it. -/
private theorem unique_of_gone (hs : v.fs.Sound) (h : v.view.Tree ch)
    (hin : v.NamesIn stale path directory name parentDir)
    (hq : v.view.StandsFor parentDir q) (hlets : v.LetsRename stale path newName file parentDir)
    (hl : v.firstSlot (ch q) (DirEntry.answersTo name) = some l) (hne : name ≠ newName)
    (hattr : newName.length = filenameSize → file.attr = 0) (hw : v.StoresRecord w l (file.rename newName))
    (hapart : name ∉ components directory) (hgone : ∀ e, fatFindDirEntryFromPath w path ≠ some (.ok e)) :
    ∀ l' ∈ v.view.locs (ch q), (v.view.slot l').answersTo name → l' = l := by
  have hnew := nameStr_rename file hlets.legal hlets.length
  have hmem : l ∈ v.view.locs (ch q) := List.mem_of_find?_eq_some hl
  have hname : (v.view.slot l).nameStr = name := (of_decide_eq_true (firstSlot_eq_some hl).2.2).1
  have hlen : name.length ≤ filenameSize := hname ▸ (v.view.slot l).length_nameStr_le
  obtain ⟨names, hway, hnames, hfind⟩ := hin.plain.exists_way hin.leads
  obtain ⟨-, hkeep, hlocs, hchain⟩ := hw.parts hs h hq.node hmem
  have hwalk := walk_renamed hs h hq.node hmem hname (by rw [hnew]; exact hlets.new hs h hq hattr)
    (by rw [hnew]; exact hne) hw v.view.standsFor_rootDir hway
  obtain hsame := hwalk.resolve_right fun hin => hapart (hnames name hin.1)
  intro l' hl' hanswers
  by_contra hl'l
  cases hfirst : w.firstSlot (ch q) (DirEntry.answersTo name) with
  | none =>
    refine absurd hanswers ?_
    rw [← hkeep l' hl'l]
    exact List.find?_eq_none.1 hfirst l' (by rw [hlocs]; exact hl')
  | some l'' =>
    refine hgone (w.view.slot l'') ?_
    rw [hfind, hw.fs]
    refine (hsame [name]).trans ?_
    rw [walk, if_neg (Nat.not_lt.2 hlen), if_neg (fun h => h.1 rfl),
      fatFindDirEntry_spec (hw.fs ▸ hs) (hchain _ _ (hq.chain h)) hin.plain.noNul_name hlen, hfirst]
    rfl

/-- A path that looks neither name up in the directory resolves as before. -/
private theorem others_resolve (hs : v.fs.Sound) (h : v.view.Tree ch) (hq : v.view.StandsFor parentDir q)
    (hlets : v.LetsRename stale path newName file parentDir) (hl : v.firstSlot (ch q) test = some l)
    (hslot : v.view.slot l = file) (hw : v.StoresRecord w l (file.rename newName)) {other : List UInt8}
    (hnul : NoNul other) (hasks : ¬v.AsksFor other [file.nameStr, newName] parentDir) :
    fatFindDirEntryFromPath w other = fatFindDirEntryFromPath v other := by
  obtain ⟨hmem, hi, -⟩ := firstSlot_eq_some hl
  refine fatFindDirEntryFromPath_congr hw.fs fun index d hreached hlooks => ?_
  have hsegment : NoNul (segmentAt other index) :=
    hnul.mono fun b hb => List.mem_of_mem_drop ((List.takeWhile_prefix _).subset hb)
  refine hw.find hs (h.lt_length hq.node hmem) hi hsegment hlooks.2.1 ?_
  by_cases hname : segmentAt other index ∈ [file.nameStr, newName]
  · left
    intro i hcluster
    obtain ⟨j, hj⟩ := List.mem_iff_getElem?.1 hmem
    refine hasks ⟨index, d, hreached, hlooks, hname, i, j, l.1, hcluster, ?_⟩
    rw [getIthCluster_spec (hq.chain h), hj]
  · right
    simp only [List.mem_cons, List.not_mem_nil, or_false, not_or] at hname
    refine ⟨View.answersTo_eq_false ?_, View.answersTo_eq_false ?_⟩
    · rw [hslot]
      exact Ne.symm hname.1
    · rw [nameStr_rename file hlets.legal hlets.length]
      exact Ne.symm hname.2

end Volume

/-! ### The call on plain paths -/

/-- A rename that goes through at a plain path does what it should when there is room for the name, and only then where
the directory part does not look the old name up. -/
private theorem renamed_iff {v : Volume} {stale : ByteMem} {path newName directory name : List UInt8}
    {file parentDir r : DirEntry}
    (hs : v.fs.Sound) (hgeo : Separated v.fs) (hwf : v.view.WellFormed) (hin : v.NamesIn stale path directory name r)
    (hlets : v.LetsRename stale path newName file parentDir) :
    ∃ w, v.fatRename stale path newName = some (SUCCESS, w) ∧
      (v.RoomForName newName file parentDir → v.Renamed w path newName file parentDir) ∧
      (name ∉ components directory → v.Renamed w path newName file parentDir → v.RoomForName newName file parentDir) := by
  obtain ⟨ch, h⟩ := View.wellFormed_iff.1 hwf
  obtain ⟨q, hq⟩ := hin.leads.standsFor
  obtain ⟨l, w, rfl, hl, hslot, hname, hne, hcall, hstores, hdata⟩ := hlets.stores hs hgeo h hin hq
  have hfound := Volume.found_iff hs h hq hlets hl hstores
  have hmem : l ∈ v.view.locs (ch q) := List.mem_of_find?_eq_some hl
  have hanswers : (v.view.slot l).answersTo name := (Volume.firstSlot_eq_some hl).2.2
  refine ⟨w, hcall, fun hroom => ?_, fun hapart hright => ?_⟩
  · have hunique : ∀ l' ∈ v.view.locs (ch q), (v.view.slot l').answersTo name → l' = l := fun l' hl' hans =>
      hroom.unique _ (hq.chain h) l' hl' l hmem (hname ▸ hans) (hname ▸ hanswers)
    refine ⟨hfound.2 hroom.attr, fun e => ?_, fun other hnul hasks => ?_, hstores.table, hdata.sectors⟩
    · exact Volume.gone_of_unique hs h hin hq hlets hl hne hroom.attr hstores hunique e
    · exact Volume.others_resolve hs h hq hlets hl hslot hstores hnul hasks
  · have hattr := hfound.1 hright.found
    have hunique := Volume.unique_of_gone hs h hin hq hlets hl hne hattr hstores hapart hright.gone
    refine ⟨hattr, fun cs hcs l₁ h₁ l₂ h₂ hans₁ hans₂ => ?_⟩
    obtain rfl := Linked.Chain.functional v.view.terminates hcs (hq.chain h)
    rw [hname] at hans₁ hans₂
    exact (hunique l₁ h₁ hans₁).trans (hunique l₂ h₂ hans₂).symm

/-- A rename that is right has room for the name. -/
private theorem Volume.RenamesRight.roomForName {v : Volume} {stale : ByteMem}
    {path newName directory name : List UInt8}
    {file parentDir r : DirEntry} (hs : v.fs.Sound) (hgeo : Separated v.fs) (hwf : v.view.WellFormed)
    (hin : v.NamesIn stale path directory name r) (hapart : name ∉ components directory)
    (hright : v.RenamesRight stale path newName) (hlets : v.LetsRename stale path newName file parentDir) :
    v.RoomForName newName file parentDir := by
  obtain ⟨w, hcall, -, hroom⟩ := renamed_iff hs hgeo hwf hin hlets
  obtain ⟨file', parentDir', hlets', hrenamed⟩ := (hright _ _ hcall).2 rfl
  obtain ⟨rfl, rfl⟩ := hlets.unique hlets'
  exact hroom hapart hrenamed

/-- At any path a rename is right when a rename that goes through finds no record of the old name in the directory, or has
room for the new name at a plain path; at a plain path that looks the old name up once it is right only then. -/
theorem renamesRight_iff {v : Volume} (hs : v.fs.Sound) (hgeo : Separated v.fs) (hwf : v.view.WellFormed)
    (stale : ByteMem) (path newName : List UInt8) :
    ((∀ file parentDir, v.LetsRename stale path newName file parentDir → v.NoRecord file.nameStr parentDir ∨
        v.RoomForName newName file parentDir ∧ ∃ directory name, v.NamesIn stale path directory name parentDir) →
      v.RenamesRight stale path newName) ∧
    ∀ directory name r, v.NamesIn stale path directory name r → name ∉ components directory →
      (v.RenamesRight stale path newName ↔
        ∀ file parentDir, v.LetsRename stale path newName file parentDir → v.RoomForName newName file parentDir) := by
  have hright : (∀ file parentDir, v.LetsRename stale path newName file parentDir → v.NoRecord file.nameStr parentDir ∨
      v.RoomForName newName file parentDir ∧ ∃ directory name, v.NamesIn stale path directory name parentDir) →
      v.RenamesRight stale path newName := by
    intro hall r w hcall
    rcases Volume.fatRename_cases hcall with ⟨hr, rfl⟩ | ⟨rfl, file, parentDir, hlets⟩
    · exact ⟨fun _ => rfl, fun h => absurd h hr⟩
    rcases hall file parentDir hlets with hno | ⟨hroom, directory, name, hin⟩
    · rw [hlets.of_noRecord hs hno] at hcall
      exact absurd (Prod.mk.inj (Option.some.inj hcall)).1 (by decide)
    · obtain ⟨w', hcall', hrenamed, -⟩ := renamed_iff hs hgeo hwf hin hlets
      rw [hcall] at hcall'
      obtain rfl := (Prod.mk.inj (Option.some.inj hcall')).2
      exact ⟨fun h => absurd rfl h, fun _ => ⟨file, parentDir, hlets, hrenamed hroom⟩⟩
  refine ⟨hright, fun directory name r hin hapart => ⟨fun hrename file parentDir hlets => ?_, fun hall => ?_⟩⟩
  · exact hrename.roomForName hs hgeo hwf hin hapart hlets
  · refine hright fun file parentDir hlets => .inr ⟨hall file parentDir hlets, directory, name, ?_⟩
    obtain ⟨directory', hparent, hdir⟩ := hlets.parent
    rw [hin.parent] at hparent
    obtain rfl := Option.some.inj hparent
    rw [hin.leads.resolves hs] at hdir
    obtain rfl := Except.ok.inj (Option.some.inj hdir)
    exact hin

/-- A directory `a` without records in the cluster 2. -/
def smallDirectory : DirEntry :=
  { DirEntry.zero with name := DirEntry.nameOf [0x61], attr := attrDirectory, startCluster := 2 }

def directoryDisk : ByteMem :=
  image [0xFFF8, 0xFFFF, 0xFFF8] fun c => if c = 0 then smallDirectory.toBytes else []

/-- What a rename of `/a` meets on the mounted disk. -/
private theorem directoryDisk_lets {newName : List UInt8}
    (hnew : newName = [0x62] ∨ newName = List.replicate 11 0x62) :
    ∃ v, fatInit (some fun _ => 0) directoryDisk = some (some v) ∧ v.fs.Sound ∧ Separated v.fs ∧ v.view.WellFormed ∧
      (∀ stale, v.NamesIn stale [slash, 0x61] [slash] [0x61] (rootDir v.fs)) ∧
      (∀ stale, v.LetsRename stale [slash, 0x61] newName smallDirectory (rootDir v.fs)) ∧ v.view.Chain 0 [0] ∧
      ∀ l ∈ v.view.locs [0], (v.view.slot l).answersTo [0x61] → l = (0, 0) := by
  have hmount : ((fatInit (some fun _ => 0) directoryDisk).bind fun mounted => mounted.map fun v =>
      ([v.fs.bytesPerSector, v.fs.sectorsPerCluster, v.fs.numFats, v.fs.totalFatEntries, v.fs.slotsPerCluster,
          v.fs.reservedSectors, v.fs.rootDirStart],
        v.view.isTree [(none, [0]), (some (0, 0), [2])] && v.view.isChain 0 [0],
        v.fatFindDirEntry (subName [0x61]) (rootDir v.fs),
        decide (v.fatFindDirEntry (smallDirectory.rename newName).toBytes (rootDir v.fs) = some none) &&
          (List.range 16).all fun i => !(v.view.slot (0, i)).answersTo [0x61] || i == 0)) =
      some ([512, 1, 1, 256, 16, 1, 2], true, some (some smallDirectory), true) := by
    rcases hnew with rfl | rfl
    · decide +kernel
    · decide +kernel
  simp only [Option.bind_eq_some_iff, Option.map_eq_some_iff, Prod.mk.injEq, List.cons.injEq, and_true,
    Bool.and_eq_true, decide_eq_true_eq] at hmount
  obtain ⟨_, hinit, v, rfl, ⟨hsector, hspc, hfats, hentries, hslots, hreserved, hstart⟩, ⟨htree, hroot⟩, hfind, habsent,
    hunique⟩ := hmount
  have hs : v.fs.Sound := ⟨hsector, hspc.ge, hfats.ge, by rw [hentries]; decide⟩
  have hgeo : Separated v.fs := ⟨hsector, hreserved.ge, hfats.ge, by rw [hentries, hspc, hstart]; decide⟩
  have hin : ∀ stale, v.NamesIn stale [slash, 0x61] [slash] [0x61] (rootDir v.fs) := fun stale =>
    have hdir := @inDirectory_root [0x61] (by simp [NoNul]) (by decide) (by decide) v stale
    ⟨plain_root (by simp [NoNul]) (by decide) (by decide), hdir.parent, hdir.leads⟩
  refine ⟨v, hinit, hs, hgeo, (View.wellFormed_of_isTree htree).1, hin, fun stale => ?_, View.chain_of_isChain hroot, ?_⟩
  · have hresolves : fatFindDirEntryFromPath v [slash, 0x61] = some (.ok smallDirectory) := by
      rw [(hin stale).plain.find hs (hin stale).leads, walk, if_neg (by decide), if_neg (fun h => h.1 rfl), hfind]
      rfl
    refine ⟨hresolves, ⟨_, (hin stale).parent, fatFindDirEntryFromPath_root v⟩, rootDir_isDirectory v.fs, ?_, ?_, habsent⟩
    · rcases hnew with rfl | rfl <;> decide
    · rcases hnew with rfl | rfl <;> decide
  · intro l hl hanswers
    obtain ⟨c, i⟩ := l
    obtain ⟨hc, hi⟩ := View.mem_locs.1 hl
    obtain rfl := List.mem_singleton.1 hc
    rw [Volume.view_fs, hslots] at hi
    have hslot := List.all_eq_true.1 hunique i (List.mem_range.2 hi)
    rw [hanswers] at hslot
    simpa using hslot

/-- A directory that is given a name of 11 bytes is not found under it. -/
theorem not_renamesRight : ∃ v, fatInit (some fun _ => 0) directoryDisk = some (some v) ∧ v.view.WellFormed ∧
    ∀ stale, (v.fatRename stale [slash, 0x61] (List.replicate 11 0x62)).map Prod.fst = some SUCCESS ∧
      ¬v.RenamesRight stale [slash, 0x61] (List.replicate 11 0x62) := by
  obtain ⟨v, hinit, hs, hgeo, hwf, hin, hlets, -⟩ := directoryDisk_lets (.inr rfl)
  refine ⟨v, hinit, hwf, fun stale => ⟨?_, fun hright => ?_⟩⟩
  · obtain ⟨w, hcall, -⟩ := renamed_iff hs hgeo hwf (hin stale) (hlets stale)
    rw [hcall]
    rfl
  · have hroom := hright.roomForName hs hgeo hwf (hin stale) (by decide) (hlets stale)
    exact absurd (hroom.attr rfl) (by decide)

/-- A directory that is given a name of one byte. -/
theorem renamesRight_directoryDisk : ∃ v, fatInit (some fun _ => 0) directoryDisk = some (some v) ∧
    ∀ stale, v.LetsRename stale [slash, 0x61] [0x62] smallDirectory (rootDir v.fs) ∧
      v.RenamesRight stale [slash, 0x61] [0x62] := by
  obtain ⟨v, hinit, hs, hgeo, hwf, hin, hlets, hroot, hunique⟩ := directoryDisk_lets (.inl rfl)
  refine ⟨v, hinit, fun stale => ⟨hlets stale, ?_⟩⟩
  refine ((renamesRight_iff hs hgeo hwf stale [slash, 0x61] [0x62]).2 _ _ _ (hin stale) (by decide)).2 fun file parentDir hlets' => ?_
  obtain ⟨rfl, rfl⟩ := (hlets stale).unique hlets'
  refine ⟨fun h => absurd h (by decide), fun cs hcs l₁ h₁ l₂ h₂ hans₁ hans₂ => ?_⟩
  obtain rfl := Linked.Chain.functional v.view.terminates hcs hroot
  exact (hunique l₁ h₁ hans₁).trans (hunique l₂ h₂ hans₂).symm

end DBolOS.Fat
