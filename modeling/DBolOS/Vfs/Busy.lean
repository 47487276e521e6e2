import DBolOS.Vfs.StackBytes

/-!
# Removing open files

A removal has to refuse the directory entries that are open and leave the others to the driver.  `_unlink` looks for the
text of its path in the table of open files, and `_rmdir` refuses every directory: each is right exactly where the test it
makes comes out as the entries do (`removesRightly_iff`).
-/

namespace DBolOS.Vfs

open Failing
open Fat (DirEntry Volume slash)
open Proc (Manager)

private theorem deleteRefused_codes {dir : DirEntry} {isDirectory : Bool} {err : Int}
    (h : Volume.deleteRefused dir isDirectory = some err) :
    err = Fat.DIR_NOT_FOUND ∨ err = Fat.DIRECTORY_ISNT_EMPTY ∨ err = Fat.IS_DIR := by
  unfold Volume.deleteRefused at h
  split at h
  · split at h
    · cases h
      exact .inl rfl
    · split at h
      · cases h
        exact .inr (.inl rfl)
      · cases h
  · split at h
    · cases h
      exact .inr (.inr rfl)
    · cases h

/-- What a deletion returns: a name too long and a directory that is not empty have one code. -/
private theorem fatDelete_codes {v w : Volume} {stale : ByteMem} {path : List UInt8} {isDirectory : Bool} {ret : Int}
    (h : v.fatDelete stale path isDirectory = some (ret, w)) :
    ret = Fat.SUCCESS ∨ ret = Fat.DIR_NOT_FOUND ∨ ret = Fat.DIR_NAME_EXCEEDS_LENGTH ∨ ret = Fat.IS_DIR := by
  have hcode : ∀ {path : List UInt8} {err : Int}, Fat.fatFindDirEntryFromPath v path = some (.error err) →
      err = Fat.SUCCESS ∨ err = Fat.DIR_NOT_FOUND ∨ err = Fat.DIR_NAME_EXCEEDS_LENGTH ∨ err = Fat.IS_DIR := by
    intro path err herr
    rcases Fat.fatFindDirEntryFromPath_codes herr with rfl | rfl
    · exact .inr (.inl rfl)
    · exact .inr (.inr (.inl rfl))
  unfold Volume.fatDelete at h
  simp only [Option.bind_eq_bind, Option.bind_eq_some_iff] at h
  obtain ⟨dirName, -, parentDirName, -, parentParentDirName, -, r, hr, h⟩ := h
  cases r with
  | error err =>
    cases h
    exact hcode hr
  | ok dir =>
    dsimp only at h
    split at h
    · rename_i err hrefused
      cases h
      exact .inr (deleteRefused_codes hrefused)
    · simp only [Option.bind_eq_some_iff] at h
      obtain ⟨r, hr, h⟩ := h
      cases r with
      | error err =>
        cases h
        exact hcode hr
      | ok parentDir =>
        simp only [Option.bind_eq_some_iff] at h
        obtain ⟨r, hr, h⟩ := h
        cases r with
        | error err =>
          cases h
          exact hcode hr
        | ok parentParentDir =>
          simp only [Volume.deleteEntry, Option.bind_eq_bind, Option.bind_eq_some_iff] at h
          obtain ⟨⟨_, _⟩, -, ⟨_, _⟩, -, h⟩ := h
          cases h
          exact .inl rfl

/-- What the lookup of a file returns with the resolution of its path. -/
private theorem fatGetFileData_cases {v : Volume} {stale : ByteMem} {path : List UInt8} {r : Except Int Fat.FileData}
    (h : Volume.fatGetFileData stale v path = some r) :
    (∃ err, Fat.fatFindDirEntryFromPath v path = some (.error err) ∧ r = .error (-2)) ∨
      ∃ e, Fat.fatFindDirEntryFromPath v path = some (.ok e) ∧ ∀ err, r = .error err → err = -1 := by
  unfold Volume.fatGetFileData at h
  simp only [Option.bind_eq_bind, Option.bind_eq_some_iff] at h
  obtain ⟨r₁, hr₁, h⟩ := h
  cases r₁ with
  | error err =>
    cases h
    exact .inl ⟨err, hr₁, rfl⟩
  | ok e =>
    refine .inr ⟨e, hr₁, ?_⟩
    simp only [Option.bind_eq_some_iff] at h
    obtain ⟨parentPath, -, r₂, -, h⟩ := h
    rintro err rfl
    cases r₂ with
    | error err' =>
      cases h
      rfl
    | ok parentEntry => cases h

namespace Kernel

variable {k : Kernel} {path fullPath : List UInt8}

/-- A used entry of the table is open on the entry `e`. -/
def OpenOn (k : Kernel) (e : DirEntry) : Prop :=
  ∃ (g : Nat) (x : GlobalFd), k.globalFdTable[g]? = some x ∧ x.isUsed = true ∧ x.read = some .fatFs ∧
    x.file.fileEntry.startCluster = e.startCluster

/-- The path is that of an entry that is open. -/
def Busy (k : Kernel) (fullPath : List UInt8) : Prop :=
  ∃ e, Fat.fatFindDirEntryFromPath k.volume fullPath = some (.ok e) ∧ OpenOn k e

/-- A removal refuses what is open, and nothing else, with `EBUSY`; otherwise it returns what the driver's deletion
returns, and has its effect. -/
structure Answers (k : Kernel) (fullPath : List UInt8) (delete : List UInt8 → Option (Int × Volume)) (ret : Int)
    (k' : Kernel) : Prop where
  refuses : ret = -EBUSY ↔ Busy k fullPath
  keeps : Busy k fullPath → k' = k
  deletes : ¬Busy k fullPath → ∃ w, delete fullPath = some (ret, w) ∧ k' = { k with volume := w }

def RemovesRightly (k : Kernel) (path : List UInt8) (delete : List UInt8 → Option (Int × Volume))
    (call : Except Fault (Int × Kernel)) : Prop :=
  ∃ fullPath ret k', k.zeroedPath path = .ok fullPath ∧ call = .ok (ret, k') ∧ Answers k fullPath delete ret k'

/-- The text of the path is in the table exactly when its entry is open, and the driver can look up what it is asked for;
a path that leads nowhere is refused by the deletion as by the lookup. -/
def TextTells (stale : Nat → ByteMem) (k : Kernel) (fullPath : List UInt8) : Prop :=
  match Fat.fatFindDirEntryFromPath k.volume fullPath with
  | none => False
  | some (.error _) => Volume.fatDeleteFile (stale 1) k.volume fullPath = some (-2, k.volume)
  | some (.ok e) =>
    (∃ file, Volume.fatGetFileData (stale 0) k.volume fullPath = some (.ok file)) ∧
      ((k.getOpenedFd fullPath).isSome ↔ OpenOn k e) ∧
      (¬OpenOn k e → Volume.fatDeleteFile (stale 1) k.volume fullPath ≠ none)

private theorem fatDeleteFile_ne_busy {v w : Volume} {stale : ByteMem} {ret : Int}
    (h : Volume.fatDeleteFile stale v path = some (ret, w)) : ret ≠ -EBUSY ∧ ret ≠ -1 := by
  rcases fatDelete_codes h with rfl | rfl | rfl | rfl <;> decide

/-- `_unlink` once its path is in the buffer. -/
private theorem sysUnlink_eq {stale : Nat → ByteMem} (hpath : k.zeroedPath path = .ok fullPath) :
    sysUnlink stale k path =
      match Volume.fatGetFileData (stale 0) k.volume fullPath with
      | none => .error .fileSystem
      | some (.error err) => .ok (err, k)
      | some (.ok _) =>
        match k.getOpenedFd fullPath with
        | some _ => .ok (-EBUSY, k)
        | none =>
          match Volume.fatDeleteFile (stale 1) k.volume fullPath with
          | none => .error .fileSystem
          | some (ret, w) => .ok (ret, { k with volume := w }) := by
  unfold sysUnlink
  rw [hpath, ok_bind]
  cases Volume.fatGetFileData (stale 0) k.volume fullPath with
  | none => rfl
  | some r =>
    cases r with
    | error err => rfl
    | ok file =>
      rw [Fault.of, ok_bind]
      dsimp only
      cases k.getOpenedFd fullPath with
      | some g => rfl
      | none =>
        cases Volume.fatDeleteFile (stale 1) k.volume fullPath with
        | none => rfl
        | some r => rfl

private theorem busy_iff {e : DirEntry} (he : Fat.fatFindDirEntryFromPath k.volume fullPath = some (.ok e)) :
    Busy k fullPath ↔ OpenOn k e := by
  constructor
  · rintro ⟨e', he', hopen⟩
    rw [he] at he'
    cases he'
    exact hopen
  · exact fun hopen => ⟨e, he, hopen⟩

/-- The path leads nowhere: the lookup answers for the deletion. -/
private theorem answers_nowhere {err : Int} {delete : List UInt8 → Option (Int × Volume)}
    (herr : Fat.fatFindDirEntryFromPath k.volume fullPath = some (.error err)) :
    Answers k fullPath delete (-2) k ↔ delete fullPath = some (-2, k.volume) := by
  have hbusy : ¬Busy k fullPath := by
    rintro ⟨e, he, -⟩
    rw [herr] at he
    cases he
  constructor
  · intro h
    obtain ⟨w, hw, hk⟩ := h.deletes hbusy
    have hvolume : k.volume = w := congrArg Kernel.volume hk
    rw [hw, hvolume]
  · intro hdelete
    exact ⟨iff_of_false (by decide) hbusy, fun _ => rfl, fun _ => ⟨k.volume, hdelete, rfl⟩⟩

private theorem removesRightly_unlink (stale : Nat → ByteMem) (hpath : k.zeroedPath path = .ok fullPath) :
    (∃ ret k', sysUnlink stale k path = .ok (ret, k') ∧
      Answers k fullPath (Volume.fatDeleteFile (stale 1) k.volume) ret k') ↔ TextTells stale k fullPath := by
  rw [sysUnlink_eq hpath, TextTells]
  cases hfile : Volume.fatGetFileData (stale 0) k.volume fullPath with
  | none =>
    refine iff_of_false (by simp) ?_
    cases hfind : Fat.fatFindDirEntryFromPath k.volume fullPath with
    | none => exact id
    | some r =>
      cases r with
      | error err =>
        rw [Volume.fatGetFileData, hfind] at hfile
        cases hfile
      | ok e =>
        rintro ⟨⟨file, hsome⟩, -⟩
        cases hsome
  | some r =>
    rcases fatGetFileData_cases hfile with ⟨err, hfind, rfl⟩ | ⟨e, hfind, herror⟩
    · rw [hfind]
      constructor
      · rintro ⟨ret, k', hcall, h⟩
        cases hcall
        exact (answers_nowhere hfind).1 h
      · exact fun hdelete => ⟨-2, k, rfl, (answers_nowhere hfind).2 hdelete⟩
    · rw [hfind]
      have hbusy := busy_iff hfind
      cases r with
      | error err =>
        obtain rfl := herror err rfl
        refine iff_of_false ?_ (by simp)
        rintro ⟨ret, k', hcall, h⟩
        cases hcall
        by_cases hopen : Busy k fullPath
        · exact absurd (h.refuses.2 hopen) (by decide)
        · obtain ⟨w, hw, -⟩ := h.deletes hopen
          exact (fatDeleteFile_ne_busy hw).2 rfl
      | ok file =>
        dsimp only
        rw [and_iff_right (⟨file, rfl⟩ : ∃ file', some (Except.ok file) = some (Except.ok file'))]
        cases hopened : k.getOpenedFd fullPath with
        | some g =>
          constructor
          · rintro ⟨ret, k', hcall, h⟩
            cases hcall
            have hopen := hbusy.1 (h.refuses.1 rfl)
            exact ⟨iff_of_true rfl hopen, fun hno => absurd hopen hno⟩
          · rintro ⟨htext, -⟩
            have hopen := hbusy.2 (htext.1 rfl)
            exact ⟨-EBUSY, k, rfl, iff_of_true rfl hopen, fun _ => rfl, fun hno => absurd hopen hno⟩
        | none =>
          constructor
          · rintro ⟨ret, k', hcall, h⟩
            have hopen : ¬OpenOn k e := by
              intro hopen
              have hret := h.refuses.2 (hbusy.2 hopen)
              cases hdelete : Volume.fatDeleteFile (stale 1) k.volume fullPath with
              | none =>
                rw [hdelete] at hcall
                cases hcall
              | some r =>
                rw [hdelete] at hcall
                cases hcall
                exact (fatDeleteFile_ne_busy hdelete).1 hret
            refine ⟨iff_of_false (by simp) hopen, fun _ hnone => ?_⟩
            rw [hnone] at hcall
            cases hcall
          · rintro ⟨htext, hdefined⟩
            have hopen : ¬OpenOn k e := fun hopen => absurd (htext.2 hopen) (by simp)
            obtain ⟨⟨ret, w⟩, hdelete⟩ := Option.ne_none_iff_exists'.1 (hdefined hopen)
            rw [hdelete]
            have hne := (fatDeleteFile_ne_busy hdelete).1
            exact ⟨ret, _, rfl, iff_of_false hne (mt hbusy.1 hopen), fun h => absurd (hbusy.1 h) hopen,
              fun _ => ⟨w, hdelete, rfl⟩⟩

/-- `_rmdir` refuses whatever it is asked for. -/
private theorem sysRmdir_eq {stale : Nat → ByteMem} (hpath : k.zeroedPath path = .ok fullPath) :
    sysRmdir stale k path = .ok (-EBUSY, k) := by
  unfold sysRmdir pathBuffer
  unfold zeroedPath at hpath
  by_cases habsolute : path.head? = some slash
  · rw [if_pos habsolute]
    rfl
  · rw [if_neg habsolute] at hpath ⊢
    cases hcwd : k.cwd with
    | error f =>
      rw [hcwd] at hpath
      cases hpath
    | ok cwd =>
      rw [hcwd, ok_bind] at hpath
      rw [ok_bind, hpath]
      rfl

private theorem removesRightly_rmdir (stale : Nat → ByteMem) (hpath : k.zeroedPath path = .ok fullPath)
    {delete : List UInt8 → Option (Int × Volume)} :
    (∃ ret k', sysRmdir stale k path = .ok (ret, k') ∧ Answers k fullPath delete ret k') ↔ Busy k fullPath := by
  rw [sysRmdir_eq hpath]
  constructor
  · rintro ⟨ret, k', hcall, h⟩
    cases hcall
    exact h.refuses.1 rfl
  · intro hbusy
    exact ⟨-EBUSY, k, rfl, iff_of_true rfl hbusy, fun _ => rfl, fun hno => absurd hbusy hno⟩

/-- A removal is right exactly when the test that the call makes tells what is open: the text of the path for `_unlink`,
none for `_rmdir`. -/
theorem removesRightly_iff (k : Kernel) (stale : Nat → ByteMem) (path : List UInt8) :
    (RemovesRightly k path (Volume.fatDeleteFile (stale 1) k.volume) (sysUnlink stale k path) ↔
      ∃ fullPath, k.zeroedPath path = .ok fullPath ∧ TextTells stale k fullPath) ∧
    (RemovesRightly k path (Volume.fatDeleteDir (stale 1) k.volume) (sysRmdir stale k path) ↔
      ∃ fullPath, k.zeroedPath path = .ok fullPath ∧ Busy k fullPath) := by
  constructor
  · constructor
    · rintro ⟨fullPath, ret, k', hpath, hcall, h⟩
      exact ⟨fullPath, hpath, (removesRightly_unlink stale hpath).1 ⟨ret, k', hcall, h⟩⟩
    · rintro ⟨fullPath, hpath, htext⟩
      obtain ⟨ret, k', hcall, h⟩ := (removesRightly_unlink stale hpath).2 htext
      exact ⟨fullPath, ret, k', hpath, hcall, h⟩
  · constructor
    · rintro ⟨fullPath, ret, k', hpath, hcall, h⟩
      exact ⟨fullPath, hpath, (removesRightly_rmdir stale hpath).1 ⟨ret, k', hcall, h⟩⟩
    · rintro ⟨fullPath, hpath, hbusy⟩
      obtain ⟨ret, k', hcall, h⟩ := (removesRightly_rmdir stale hpath).2 hbusy
      exact ⟨fullPath, ret, k', hpath, hcall, h⟩

/-- A directory `d` beside a file `a`. -/
def fileBesideDisk : ByteMem :=
  Fat.image [0xFFF8, 0xFFFF, 0xFFF8, 0xFFF8] fun c =>
    if c = 0 then oneDirectory.toBytes ++
      { DirEntry.zero with name := DirEntry.nameOf [0x61], startCluster := 3, fileSize := 4 }.toBytes
    else if c = 2 then (Volume.dotEntry [Fat.dot] 2).toBytes ++ (Volume.dotEntry [Fat.dot, Fat.dot] 0).toBytes
    else []

/-- `/a` by way of `/d`. -/
def roundabout : List UInt8 := [slash, 0x64, slash, Fat.dot, Fat.dot, slash, 0x61]

/-- The file that is open as `/a` is removed as `/d/../a`, and `/d`, which is not open, is not removed. -/
theorem not_removesRightly : ∃ v k₀ k k', boot v = .ok k₀ ∧ Machine.Run exec (fun _ _ => True) k₀ startup k ∧
    k.perform (.open (fun _ _ => 0) [slash, 0x61] O_RDWR) = .ok (some 3, k') ∧
    (sysUnlink (fun _ _ => 0) k' roundabout).toOption.map Prod.fst = some 0 ∧
    ¬RemovesRightly k' roundabout (Volume.fatDeleteFile (fun _ => 0) k'.volume) (sysUnlink (fun _ _ => 0) k' roundabout) ∧
    ¬RemovesRightly k' [slash, 0x64] (Volume.fatDeleteDir (fun _ => 0) k'.volume)
      (sysRmdir (fun _ _ => 0) k' [slash, 0x64]) := by
  have hrun : ((Fat.fatInit (some fun _ => 0) fileBesideDisk).bind fun mounted => mounted.bind fun v =>
      (startup.foldlM exec ⟨Manager.boot, Vector.ofFn fun g => bootEntry g, v⟩).bind fun k =>
        (k.perform (.open (fun _ _ => 0) [slash, 0x61] O_RDWR)).toOption.bind fun r =>
          (sysUnlink (fun _ _ => 0) r.2 roundabout).toOption.bind fun u => r.2.globalFdTable[6]?.bind fun x =>
            (Fat.fatFindDirEntryFromPath r.2.volume roundabout).bind fun file => file.toOption.bind fun e =>
              (Fat.fatFindDirEntryFromPath r.2.volume [slash, 0x64]).bind fun dir => dir.toOption.map fun e' =>
                decide (r.1 = some 3 ∧ u.1 = 0 ∧ x.isUsed = true ∧ x.read = some .fatFs ∧
                  x.file.fileEntry.startCluster = e.startCluster ∧
                  ∀ y ∈ r.2.globalFdTable.toList, y.isUsed = true → y.read = some .fatFs →
                    y.file.fileEntry.startCluster ≠ e'.startCluster)) =
      some true := by
    decide +kernel
  simp only [Option.bind_eq_some_iff, Option.map_eq_some_iff, decide_eq_true_eq] at hrun
  obtain ⟨_, -, v, rfl, k, hk, ⟨r, k'⟩, hopen, ⟨ret, k₁⟩, hunlink, x, hx, file, hfile, e, he, dir, hdir, e', he', rfl,
    rfl, hused, hread, hsame, hothers⟩ := hrun
  have hok : ∀ {path : List UInt8} {r : Except Int DirEntry} {e : DirEntry},
      Fat.fatFindDirEntryFromPath k'.volume path = some r → r.toOption = some e →
        Fat.fatFindDirEntryFromPath k'.volume path = some (.ok e) := by
    intro path r e hr he
    cases r with
    | error err => cases he
    | ok e₁ =>
      cases he
      exact hr
  refine ⟨v, _, k, k', boot_eq v, Machine.run_iff_foldlM.2 hk, eq_ok_of_toOption hopen, ?_, ?_, ?_⟩
  · rw [hunlink]
    rfl
  · rintro ⟨fullPath, ret, k₂, hpath, hcall, h⟩
    cases hpath
    have hbusy : Busy k' roundabout := ⟨e, hok hfile he, 6, x, hx, hused, hread, hsame⟩
    have hret := h.refuses.2 hbusy
    rw [eq_ok_of_toOption hunlink] at hcall
    cases hcall
    exact absurd hret (by decide)
  · rintro ⟨fullPath, ret, k₂, hpath, hcall, h⟩
    cases hpath
    rw [sysRmdir_eq rfl] at hcall
    cases hcall
    obtain ⟨e₁, he₁, g, y, hy, hyused, hyread, hysame⟩ := h.refuses.1 rfl
    rw [hok hdir he'] at he₁
    cases he₁
    exact hothers y (List.mem_of_getElem? (Vector.getElem?_toList ▸ hy)) hyused hyread hysame

end Kernel

end DBolOS.Vfs
