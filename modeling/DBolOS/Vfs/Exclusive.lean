import DBolOS.Vfs.Access
import DBolOS.Vfs.Busy

/-!
# Exclusive opening

`_open` with `O_CREAT` and `O_EXCL` has to succeed exactly where it creates the file, and every `_open` that returns an
error has to leave what is open and the volume as they were.  The handler tests `O_EXCL` after it has created the file
and counted the reference, so an exclusive creation never succeeds (`opensRightly_iff` says when a call is right).
-/

namespace DBolOS.Vfs

open Failing
open Fat (FileData DirEntry Volume slash)
open Proc (Process FileDescriptor Manager MAX_LOCAL_FD)

/-- The path leads to an entry. -/
def Resolves (v : Volume) (path : List UInt8) : Prop := ∃ e, Fat.fatFindDirEntryFromPath v path = some (.ok e)

/-- The driver creates the file. -/
def Creatable (stale : ByteMem) (v : Volume) (path : List UInt8) : Prop :=
  path ≠ [] ∧ ∃ w, Volume.fatCreateFile stale v path = some (Fat.SUCCESS, w)

namespace Kernel

variable {k k' k'' : Kernel} {c fd g : Nat} {d : FileDescriptor} {x : GlobalFd} {p : Process} {stale : Nat → ByteMem}
  {path fullPath : List UInt8} {flags : UInt32}

/-! ### What is open -/

/-- The slots in use and the entries in use are the same. -/
structure SameTables (k k' : Kernel) : Prop where
  slots : ∀ c fd d, d.isUsed = true → (k'.slotAt c fd = some d ↔ k.slotAt c fd = some d)
  entries : ∀ (g : Nat) x, x.isUsed = true → (k'.globalFdTable[g]? = some x ↔ k.globalFdTable[g]? = some x)

/-- The tables and the volume are as before. -/
structure Untouched (k k' : Kernel) : Prop where
  tables : SameTables k k'
  volume : k'.volume = k.volume

private theorem SameTables.refl (k : Kernel) : SameTables k k := ⟨fun _ _ _ _ => Iff.rfl, fun _ _ _ => Iff.rfl⟩

private theorem SameTables.trans (h : SameTables k k') (h' : SameTables k' k'') : SameTables k k'' :=
  ⟨fun c fd d hd => (h'.slots c fd d hd).trans (h.slots c fd d hd),
    fun g x hx => (h'.entries g x hx).trans (h.entries g x hx)⟩

private theorem SameTables.withVolume (h : SameTables k k') (v : Volume) : SameTables k { k' with volume := v } :=
  ⟨h.slots, h.entries⟩

/-- An entry that is not in use is written. -/
private theorem sameTables_set (hg : g < MAX_FD) (hunused : (k.globalFdTable.get ⟨g, hg⟩).isUsed = false)
    (hx : x.isUsed = false) : SameTables k { k with globalFdTable := k.globalFdTable.set g x hg } := by
  refine ⟨fun _ _ _ _ => Iff.rfl, fun j y hy => ?_⟩
  show (k.globalFdTable.set g x hg)[j]? = some y ↔ _
  by_cases hj : g = j
  · subst hj
    rw [Vector.getElem?_set_self, Vector.getElem?_eq_getElem hg]
    constructor
    · intro h
      rw [Option.some.inj h, hy] at hx
      cases hx
    · intro h
      rw [Vector.get_eq_getElem, Option.some.inj h, hy] at hunused
      cases hunused
  · rw [Vector.getElem?_set_ne hg hj]

private theorem sameTables_allocate (k : Kernel) (path : List UInt8) : SameTables k (k.allocateGlobalFd path).2 := by
  unfold allocateGlobalFd
  split
  · exact SameTables.refl k
  · rename_i i hi
    exact sameTables_set i.isLt (unusedGlobal_eq_some_iff.1 hi).1 rfl

private theorem allocateGlobalFd_volume (k : Kernel) (path : List UInt8) :
    (k.allocateGlobalFd path).2.volume = k.volume := by
  unfold allocateGlobalFd
  split <;> rfl

/-- The entry that is allocated is not in use yet. -/
private theorem allocateGlobalFd_entry (k : Kernel) (path : List UInt8) :
    ((k.allocateGlobalFd path).1 = none ∧ k.unusedGlobal = none) ∨
      ∃ g : Fin MAX_FD, (k.allocateGlobalFd path).1 = some g.val ∧ k.unusedGlobal ≠ none ∧
        ∃ x, (k.allocateGlobalFd path).2.globalFdTable[g.val]? = some x ∧ x.isUsed = false := by
  unfold allocateGlobalFd
  split
  · rename_i hnone
    exact .inl ⟨rfl, hnone⟩
  · rename_i g hg
    refine .inr ⟨g, rfl, by rw [hg]; exact Option.some_ne_none g, _, Vector.getElem?_set_self g.isLt, rfl⟩

/-- A slot that is not in use is written. -/
private theorem sameTables_setSlot (hd : k.slotAt c fd = some d) (hunused : d.isUsed = false) (d' : FileDescriptor)
    (hd' : d'.isUsed = false) : ∃ k', k.setSlot c fd d' = .ok k' ∧ k'.slotAt c fd = some d' ∧ SameTables k k' ∧
      k'.globalFdTable = k.globalFdTable ∧ k'.volume = k.volume := by
  obtain ⟨k', hset, hslot, htouches, htable, hvolume, -⟩ := setSlot_eq hd d'
  refine ⟨k', hset, hslot, ⟨fun c' fd' e he => ?_, fun g x _ => by rw [htable]⟩, htable, hvolume⟩
  by_cases hat : c' = c ∧ fd' = fd
  · obtain ⟨rfl, rfl⟩ := hat
    rw [hslot, hd]
    constructor
    · intro h
      rw [Option.some.inj h, he] at hd'
      cases hd'
    · intro h
      rw [Option.some.inj h, he] at hunused
      cases hunused
  · rw [htouches c' fd' hat]

theorem modifyGlobal_ok (hx : k.globalFdTable[g]? = some x) (f : GlobalFd → GlobalFd) :
    ∃ k', k.modifyGlobal (some g) f = .ok k' ∧ k'.globalFdTable[g]? = some (f x) ∧ k'.manager = k.manager ∧
      k'.volume = k.volume ∧ (x.isUsed = false → (f x).isUsed = false → SameTables k k') := by
  obtain ⟨hg, rfl⟩ := Vector.getElem?_eq_some_iff.1 hx
  refine ⟨_, modifyGlobal_eq hg f, ?_, rfl, rfl, fun hunused hstay => sameTables_set hg hunused hstay⟩
  show (k.globalFdTable.set g _ hg)[g]? = _
  rw [Vector.getElem?_set_self, Vector.get_eq_getElem]

/-! ### The end of the call -/

/-- `O_TRUNC` has a defined effect on the file. -/
def Truncates (v : Volume) (file : FileData) (flags : UInt32) : Prop :=
  hasFlag flags O_DIRECTORY = false → hasFlag flags O_TRUNC → v.fatTruncate file 0 ≠ none

/-- Behind the test of `O_EXCL` the call goes through. -/
private theorem finishOpen_eq (flags : UInt32) (hd : k.slotAt c fd = some d) (hx : k.globalFdTable[g]? = some x)
    (hexcl : ¬(hasFlag flags O_DIRECTORY = false ∧ hasFlag flags O_EXCL = true)) :
    (Truncates k.volume x.file flags → ∃ k', k.finishOpen c fd g flags = .ok ((fd : Int), k')) ∧
      (¬Truncates k.volume x.file flags → k.finishOpen c fd g flags = .error .fileSystem) := by
  obtain ⟨hg, hget⟩ := Vector.getElem?_eq_some_iff.1 hx
  have hglobal : k.global g = .ok x := Fault.of_eq_ok.2 hx
  unfold finishOpen
  rw [if_neg hexcl]
  extract_lets store
  -- the stores do not fail
  have hstore : ∀ k' : Kernel, k'.manager = k.manager → ∃ k'', store k' = .ok ((fd : Int), k'') := by
    intro k' hmanager
    dsimp only [store]
    rw [global_eq hg, ok_bind, modifyGlobal_eq hg, ok_bind]
    have hd' : ({ k' with globalFdTable := k'.globalFdTable.set g { k'.globalFdTable.get ⟨g, hg⟩ with
        isUsed := true
        isDir := (k'.globalFdTable.get ⟨g, hg⟩).file.fileEntry.isDirectory } hg } : Kernel).slotAt c fd = some d := by
      rw [← hd, slotAt, slotAt, ← hmanager]
    obtain ⟨k'', hset, -⟩ := setSlot_eq hd' _
    rw [hset, ok_bind]
    exact ⟨k'', rfl⟩
  clear_value store
  by_cases htrunc : hasFlag flags O_DIRECTORY = false ∧ hasFlag flags O_TRUNC = true
  · rw [if_pos htrunc]
    unfold truncateOpened
    rw [hglobal, ok_bind]
    cases hcall : k.volume.fatTruncate x.file 0 with
    | none =>
      refine ⟨fun h => absurd hcall (h htrunc.1 htrunc.2), fun _ => ?_⟩
      rw [Fault.of, error_bind, error_bind]
    | some r =>
      obtain ⟨ret, file, volume⟩ := r
      refine ⟨fun _ => ?_, fun h => absurd (fun _ _ => by simp [hcall]) h⟩
      rw [Fault.of, ok_bind]
      dsimp only
      rw [modifyGlobal_eq hg, ok_bind, ok_bind]
      exact hstore _ rfl
  · rw [if_neg htrunc, ok_bind]
    exact ⟨fun _ => hstore k rfl, fun h => absurd (fun h₁ h₂ => absurd ⟨h₁, h₂⟩ htrunc) h⟩

/-! ### The call on a slot -/

/-- An exclusive creation returns a descriptor exactly when the file is `fresh`, and an error leaves everything as it
was. -/
def Right (k : Kernel) (exclusive fresh : Prop) (r : Except Fault (Int × Kernel)) : Prop :=
  ∃ ret k', r = .ok (ret, k') ∧ (exclusive → (0 ≤ ret ↔ fresh)) ∧ (ret < 0 → Untouched k k')

variable {exclusive fresh : Prop}

private theorem right_opened (fd : Nat) (k' : Kernel) :
    Right k exclusive fresh (.ok ((fd : Int), k')) ↔ (exclusive → fresh) := by
  constructor
  · rintro ⟨ret, k'', hr, hexcl, -⟩ he
    cases hr
    exact (hexcl he).1 (Int.natCast_nonneg fd)
  · intro h
    exact ⟨fd, k', rfl, fun he => iff_of_true (Int.natCast_nonneg fd) (h he), fun hneg => by omega⟩

private theorem right_refused {err : Int} (hneg : err < 0) (hk : SameTables k k') :
    Right k exclusive fresh (.ok (err, k')) ↔ (exclusive → ¬fresh) ∧ k'.volume = k.volume := by
  constructor
  · rintro ⟨ret, k'', hr, hexcl, huntouched⟩
    cases hr
    exact ⟨fun he hfresh => absurd ((hexcl he).2 hfresh) (by omega), (huntouched hneg).volume⟩
  · rintro ⟨hfresh, hvolume⟩
    exact ⟨err, k', rfl, fun he => iff_of_false (by omega) (hfresh he), fun _ => ⟨hk, hvolume⟩⟩

private theorem not_right_error {f : Fault} : ¬Right k exclusive fresh (.error f) := by
  rintro ⟨ret, k', hr, -⟩
  cases hr

/-- The path is open as entry `x`: a call of the other kind is refused, a directory is opened again, and a file unless
`O_EXCL` asks for a new one. -/
def FitsOpened (v : Volume) (x : GlobalFd) (flags : UInt32) (exclusive fresh : Prop) : Prop :=
  if x.isDir ≠ hasFlag flags O_DIRECTORY then exclusive → ¬fresh
  else if x.isDir then exclusive → fresh
  else hasFlag flags O_EXCL = false ∧ (hasFlag flags O_TRUNC = true → v.fatTruncate x.file 0 ≠ none)

/-- The path is not open: the call gives up without having created anything, or returns what it finds or creates. -/
def FitsFresh (stale : Nat → ByteMem) (k : Kernel) (fullPath : List UInt8) (flags : UInt32) (exclusive fresh : Prop) :
    Prop :=
  match findFile stale k.volume fullPath flags with
  | none => False
  | some (none, w) => (exclusive → ¬fresh) ∧ w = k.volume
  | some (some file, w) =>
    k.unusedGlobal ≠ none ∧
      if hasFlag flags O_DIRECTORY = false ∧ hasFlag flags O_EXCL = true then (exclusive → ¬fresh) ∧ w = k.volume
      else (exclusive → fresh) ∧ Truncates w file flags

private theorem right_openSlot_opened (hd : k.slotAt c fd = some d) (hunused : d.isUsed = false)
    (hg : k.getOpenedFd fullPath = some g) (hx : k.globalFdTable[g]? = some x)
    (hexclusive : exclusive → hasFlag flags O_EXCL = true) :
    Right k exclusive fresh (openSlot stale k c fd fullPath flags) ↔
      FitsOpened k.volume x flags exclusive fresh := by
  obtain ⟨hlt, hget⟩ := Vector.getElem?_eq_some_iff.1 hx
  obtain ⟨k₁, hset, hslot, hsame, htable, hvolume⟩ :=
    sameTables_setSlot hd hunused { FileDescriptor.zero with globalFd := some g } rfl
  have hglobal : k₁.global g = .ok x := by
    rw [Kernel.global, htable]
    exact Fault.of_eq_ok.2 hx
  have hused : x.isUsed = true := by
    obtain ⟨y, hy, hyused⟩ := inUse_iff.1 (inUse_getOpenedFd hg)
    rw [hx] at hy
    cases hy
    exact hyused
  obtain ⟨k₂, hcount, hentry, hmanager, hvolume₂, -⟩ :=
    modifyGlobal_ok (k := k₁) (htable ▸ hx) fun x => { x with refCount := x.refCount + 1 }
  have hslot₂ : k₂.slotAt c fd = some { FileDescriptor.zero with globalFd := some g } := by
    rw [← hslot, slotAt, slotAt, hmanager]
  have hfinish := finishOpen_eq flags hslot₂ hentry
  rw [hvolume₂, hvolume] at hfinish
  unfold openSlot
  rw [hg]
  dsimp only
  rw [hset, ok_bind, hglobal, ok_bind]
  unfold FitsOpened
  cases hisDir : x.isDir <;> cases hdir : hasFlag flags O_DIRECTORY
  · -- a file: the reference is counted in front of the test of `O_EXCL`
    rw [if_neg (by decide), if_neg (by decide), if_neg (by decide), if_neg (by decide), hcount, ok_bind]
    cases hexcl : hasFlag flags O_EXCL with
    | true =>
      refine iff_of_false ?_ (fun h => Bool.noConfusion h.1)
      unfold finishOpen
      rw [if_pos ⟨hdir, hexcl⟩]
      rintro ⟨ret, k', hr, -, huntouched⟩
      cases hr
      have hsame₂ := ((huntouched (by decide)).tables.entries g
        { x with refCount := x.refCount + 1 } hused).1 hentry
      rw [hx] at hsame₂
      have hcounted : x.refCount = x.refCount + 1 := congrArg GlobalFd.refCount (Option.some.inj hsame₂)
      omega
    | false =>
      obtain ⟨hopens, hfaults⟩ := hfinish (fun h => by rw [hexcl] at h; cases h.2)
      have hnone : exclusive → fresh := fun he => by
        rw [hexclusive he] at hexcl
        cases hexcl
      rw [and_iff_right rfl]
      by_cases htrunc : Truncates k.volume x.file flags
      · obtain ⟨k', hk'⟩ := hopens htrunc
        rw [hk', right_opened]
        exact iff_of_true hnone (htrunc hdir)
      · rw [hfaults htrunc]
        exact iff_of_false not_right_error (fun h => htrunc fun _ => h)
  · rw [if_neg (by decide), if_pos (by decide), if_pos (by decide)]
    rw [right_refused (by decide) hsame, and_iff_left hvolume]
  · rw [if_pos (by decide), if_pos (by decide)]
    rw [right_refused (by decide) hsame, and_iff_left hvolume]
  · -- a directory
    rw [if_neg (by decide), if_neg (by decide), if_neg (by decide), if_pos rfl, hcount, ok_bind]
    obtain ⟨hopens, -⟩ := hfinish (fun h => by rw [hdir] at h; cases h.1)
    obtain ⟨k', hk'⟩ := hopens (fun h => by rw [hdir] at h; cases h)
    rw [hk', right_opened]

private theorem right_openSlot_fresh (hd : k.slotAt c fd = some d) (hunused : d.isUsed = false)
    (hnone : k.getOpenedFd fullPath = none) :
    Right k exclusive fresh (openSlot stale k c fd fullPath flags) ↔
      FitsFresh stale k fullPath flags exclusive fresh := by
  unfold openSlot FitsFresh
  rw [hnone]
  dsimp only
  have hallocate := sameTables_allocate k fullPath
  have hmanager := allocateGlobalFd_manager k fullPath
  have hvolume := allocateGlobalFd_volume k fullPath
  have hentry := allocateGlobalFd_entry k fullPath
  generalize k.allocateGlobalFd fullPath = allocated at hallocate hmanager hvolume hentry
  obtain ⟨globalFd, k₀⟩ := allocated
  dsimp only at hallocate hmanager hvolume hentry ⊢
  have hd₀ : k₀.slotAt c fd = some d := by rw [← hd, slotAt, slotAt, hmanager]
  obtain ⟨k₁, hset, hslot, hsame, htable, hvolume₁⟩ :=
    sameTables_setSlot hd₀ hunused { FileDescriptor.zero with globalFd } rfl
  have hk₁ : SameTables k k₁ := hallocate.trans hsame
  rw [hset, ok_bind, hvolume₁, hvolume]
  cases hfind : findFile stale k.volume fullPath flags with
  | none => exact iff_of_false not_right_error id
  | some r =>
    obtain ⟨file, w⟩ := r
    rw [Fault.of, ok_bind]
    dsimp only
    cases file with
    | none => exact right_refused (by decide) (hk₁.withVolume w)
    | some file =>
      dsimp only
      rcases hentry with ⟨rfl, hfull⟩ | ⟨i, rfl, hfree, x, hx, hxunused⟩
      · -- no entry is left
        rw [hfull]
        exact iff_of_false not_right_error (fun h => h.1 rfl)
      rw [and_iff_right hfree]
      obtain ⟨k₂, hmodify, hentry₂, hmanager₂, hvolume₂, hkeeps⟩ :=
        modifyGlobal_ok (k := { k₁ with volume := w }) (g := i.val) (x := x) (by rw [← hx, ← htable])
          fun x => { x with file }
      have hk₂ : SameTables k k₂ := (hk₁.withVolume w).trans (hkeeps hxunused hxunused)
      have hslot₂ : k₂.slotAt c fd = some { FileDescriptor.zero with globalFd := some i.val } := by
        rw [← hslot, slotAt, slotAt, hmanager₂]
      rw [hmodify, ok_bind, Fault.of, ok_bind]
      by_cases hexcl : hasFlag flags O_DIRECTORY = false ∧ hasFlag flags O_EXCL = true
      · rw [if_pos hexcl]
        unfold finishOpen
        rw [if_pos hexcl, right_refused (by decide) hk₂, hvolume₂]
      · rw [if_neg hexcl]
        obtain ⟨hopens, hfaults⟩ := finishOpen_eq flags hslot₂ hentry₂ hexcl
        rw [hvolume₂] at hopens hfaults
        dsimp only at hopens hfaults
        by_cases htrunc : Truncates w file flags
        · obtain ⟨k', hk'⟩ := hopens htrunc
          rw [hk', right_opened, and_iff_left htrunc]
        · rw [hfaults htrunc]
          exact iff_of_false not_right_error (fun h => htrunc h.2)

/-! ### The call -/

/-- The path that is asked for: `_open` cuts an absolute one to the size of its buffer. -/
def asked (path fullPath : List UInt8) : List UInt8 := if path.head? = some slash then path else fullPath

/-- `O_CREAT` and `O_EXCL`. -/
def Exclusive (flags : UInt32) : Prop := hasFlag flags O_CREAT = true ∧ hasFlag flags O_EXCL = true

/-- The path does not resolve and can be created. -/
def Vacant (stale : Nat → ByteMem) (v : Volume) (path : List UInt8) : Prop :=
  ¬Resolves v path ∧ Creatable (stale 1) v path

/-- `_open` is exclusive and atomic. -/
def OpensRightly (stale : Nat → ByteMem) (k : Kernel) (p : Process) (path : List UInt8) (flags : UInt32) : Prop :=
  ∃ fullPath, openPath p.cwd path = .ok fullPath ∧
    Right k (Exclusive flags) (Vacant stale k.volume (asked path fullPath)) (sysOpen stale k path flags)

/-- The flags and the lookups of the call do not go against each other. -/
def FitsFlags (stale : Nat → ByteMem) (k : Kernel) (path fullPath : List UInt8) (flags : UInt32) : Prop :=
  let fresh := Vacant stale k.volume (asked path fullPath)
  match k.getOpenedFd fullPath with
  | some g => ∃ x, k.globalFdTable[g]? = some x ∧ FitsOpened k.volume x flags (Exclusive flags) fresh
  | none => FitsFresh stale k fullPath flags (Exclusive flags) fresh

/-- With every slot in use the search goes on behind the table. -/
private theorem unusedSlot_full {fdTable : Vector FileDescriptor MAX_LOCAL_FD}
    (hfull : ∀ i, (fdTable.get i).isUsed = true)
    {n : Nat} (hfd : fd ≤ MAX_LOCAL_FD) (hn : MAX_LOCAL_FD < fd + n) :
    unusedSlot fdTable n fd = .error (.fdTable MAX_LOCAL_FD) := by
  induction n generalizing fd with
  | zero => omega
  | succ n ih =>
    unfold unusedSlot slotOf
    rcases Nat.lt_or_ge fd MAX_LOCAL_FD with hlt | hge
    · have hused := hfull ⟨fd, hlt⟩
      rw [Vector.get_eq_getElem] at hused
      rw [Vector.getElem?_eq_getElem hlt, Fault.of, ok_bind, if_pos hused]
      exact ih hlt (by omega)
    · obtain rfl : fd = MAX_LOCAL_FD := by omega
      rw [Vector.getElem?_eq_none (Nat.le_refl _), Fault.of, error_bind]

private theorem not_vacant_nil {v : Volume} (hpath : openPath p.cwd path = .ok []) :
    ¬Vacant stale v (asked path []) := by
  rintro ⟨-, hne, -⟩
  unfold asked at hne
  split at hne
  · rename_i habsolute
    rw [openPath, if_pos habsolute] at hpath
    cases path with
    | nil => cases habsolute
    | cons b path => cases hpath
  · exact hne rfl

/-- An exclusive creation finds the file created and is refused: a call is right exactly where the table of open files
and the lookups of the driver agree with the flags. -/
theorem opensRightly_iff (hcurrent : k.manager.currentProcess = some c) (hp : k.manager.proc c = some p)
    (stale : Nat → ByteMem) (path : List UInt8) (flags : UInt32) :
    OpensRightly stale k p path flags ↔ ∃ fullPath, openPath p.cwd path = .ok fullPath ∧
      (fullPath = [] ∨ (∃ fd, (p.fdTable.get fd).isUsed = false) ∧ FitsFlags stale k path fullPath flags) := by
  refine exists_congr fun fullPath => and_congr_right fun hpath => ?_
  have hprocess : k.process c = .ok p := Fault.of_eq_ok.2 hp
  unfold sysOpen
  rw [hcurrent]
  dsimp only
  rw [hprocess, ok_bind, hpath, ok_bind]
  by_cases hnil : fullPath = []
  · subst hnil
    rw [if_pos rfl, right_refused (by decide) (SameTables.refl k)]
    exact iff_of_true ⟨fun _ => not_vacant_nil hpath, rfl⟩ (.inl rfl)
  rw [if_neg hnil, or_iff_right hnil]
  by_cases hslot : ∃ fd, (p.fdTable.get fd).isUsed = false
  · obtain ⟨fd, hfd⟩ := exists_lowestUnused hslot
    have hlocal : MAX_LOCAL_FD ≤ MAX_FD := by decide
    have hlt : fd < MAX_FD := Nat.lt_of_lt_of_le hfd.1.1 hlocal
    rw [unusedSlot_eq hfd (Nat.zero_le fd) (by omega), ok_bind, and_iff_right hslot]
    obtain ⟨⟨hfd, hunused⟩, -⟩ := hfd
    have hd : k.slotAt c fd = some (p.fdTable.get ⟨fd, hfd⟩) := by
      rw [slotAt, hp, Option.bind_some, Vector.getElem?_eq_getElem hfd]
      rfl
    unfold FitsFlags
    dsimp only
    cases hopened : k.getOpenedFd fullPath with
    | none => exact right_openSlot_fresh hd hunused hopened
    | some g =>
      obtain ⟨x, hx, -⟩ := inUse_iff.1 (inUse_getOpenedFd hopened)
      dsimp only
      rw [right_openSlot_opened hd hunused hopened hx (fun h => h.2)]
      constructor
      · exact fun h => ⟨x, hx, h⟩
      · rintro ⟨y, hy, h⟩
        rw [hx] at hy
        cases hy
        exact h
  · have hfull : ∀ i, (p.fdTable.get i).isUsed = true := by simpa using hslot
    rw [unusedSlot_full hfull (Nat.zero_le _) (by decide), error_bind]
    exact iff_of_false not_right_error (fun h => hslot h.1)

/-- A file that is not there. -/
def missing : List UInt8 := [slash, 0x62]

/-- The first process runs on a volume where the file is missing and could be created. -/
private theorem startup_missing : ∃ v k₀ k p, boot v = .ok k₀ ∧ Machine.Run exec (fun _ _ => True) k₀ startup k ∧
    k.manager.currentProcess = some 10 ∧ k.manager.proc 10 = some p ∧ (∃ fd, (p.fdTable.get fd).isUsed = false) ∧
    k.getOpenedFd missing = none ∧ Vacant (fun _ _ => 0) k.volume missing ∧
    (∃ err, Volume.fatGetFileData (fun _ => 0) k.volume missing = some (.error err)) ∧
    ∃ k', sysOpen (fun _ _ => 0) k missing (O_CREAT ||| O_EXCL ||| O_RDWR) = .ok (-EEXIST, k') ∧
      Resolves k'.volume missing := by
  have hrun : ((Fat.fatInit (some fun _ => 0) fileBesideDisk).bind fun mounted => mounted.bind fun v =>
      (startup.foldlM exec ⟨Manager.boot, Vector.ofFn fun g => bootEntry g, v⟩).bind fun k =>
        (k.manager.proc 10).bind fun p =>
          (Volume.fatGetFileData (fun _ => 0) k.volume missing).bind fun file =>
            (Fat.fatFindDirEntryFromPath k.volume missing).bind fun before =>
              (Volume.fatCreateFile (fun _ => 0) k.volume missing).bind fun created =>
                (sysOpen (fun _ _ => 0) k missing (O_CREAT ||| O_EXCL ||| O_RDWR)).toOption.bind fun r =>
                  (Fat.fatFindDirEntryFromPath r.2.volume missing).bind fun after => after.toOption.map fun _ =>
                    decide (k.manager.currentProcess = some 10 ∧ (p.fdTable.get ⟨3, by decide⟩).isUsed = false ∧
                      k.getOpenedFd missing = none ∧ file.toOption = none ∧ before.toOption = none ∧
                      created.1 = Fat.SUCCESS ∧ r.1 = -EEXIST)) = some true := by
    decide +kernel
  simp only [Option.bind_eq_some_iff, Option.map_eq_some_iff, decide_eq_true_eq] at hrun
  obtain ⟨_, -, v, rfl, k, hk, p, hp, file, hfile, before, hbefore, ⟨ret, w⟩, hcreated, ⟨ret', k'⟩, hopen, after, hafter,
    e, he, hcurrent, hunused, hopened, hnofile, hnone, rfl, rfl⟩ := hrun
  refine ⟨v, _, k, p, boot_eq v, Machine.run_iff_foldlM.2 hk, hcurrent, hp, ⟨_, hunused⟩, hopened,
    ⟨?_, by decide, w, hcreated⟩, ?_, k', eq_ok_of_toOption hopen, e, ?_⟩
  · rintro ⟨e', he'⟩
    rw [hbefore] at he'
    cases he'
    cases hnone
  · cases file with
    | error err => exact ⟨err, hfile⟩
    | ok file => cases hnofile
  · cases after with
    | error err => cases he
    | ok e' =>
      cases he
      exact hafter

/-- The exclusive creation of the missing file is refused, with the file created. -/
theorem not_opensRightly : ∃ v k₀ k p k', boot v = .ok k₀ ∧ Machine.Run exec (fun _ _ => True) k₀ startup k ∧
    k.manager.currentProcess = some 10 ∧ k.manager.proc 10 = some p ∧
    sysOpen (fun _ _ => 0) k missing (O_CREAT ||| O_EXCL ||| O_RDWR) = .ok (-EEXIST, k') ∧
    Resolves k'.volume missing ∧ ¬OpensRightly (fun _ _ => 0) k p missing (O_CREAT ||| O_EXCL ||| O_RDWR) := by
  obtain ⟨v, k₀, k, p, h₀, hrun, hcurrent, hp, -, -, hfresh, -, k', hopen, hresolves⟩ := startup_missing
  refine ⟨v, k₀, k, p, k', h₀, hrun, hcurrent, hp, hopen, hresolves, ?_⟩
  rintro ⟨fullPath, -, ret, k'', hcall, hexcl, -⟩
  rw [hopen] at hcall
  cases hcall
  have hcreates := (hexcl ⟨by decide, by decide⟩).2 hfresh
  exact absurd hcreates (by decide)

/-- Without `O_CREAT` the missing file is refused, and nothing changes. -/
theorem opensRightly_missing : ∃ v k₀ k p, boot v = .ok k₀ ∧ Machine.Run exec (fun _ _ => True) k₀ startup k ∧
    k.manager.currentProcess = some 10 ∧ k.manager.proc 10 = some p ∧
    OpensRightly (fun _ _ => 0) k p missing O_RDONLY := by
  obtain ⟨v, k₀, k, p, h₀, hrun, hcurrent, hp, hslot, hopened, -, ⟨err, hfile⟩, -⟩ := startup_missing
  refine ⟨v, k₀, k, p, h₀, hrun, hcurrent, hp, ?_⟩
  refine (opensRightly_iff hcurrent hp _ _ _).2 ⟨missing, rfl, .inr ⟨hslot, ?_⟩⟩
  have hfind : findFile (fun _ _ => 0) k.volume missing O_RDONLY = some (none, k.volume) := by
    unfold findFile
    rw [if_neg (by decide), hfile]
    rfl
  unfold FitsFlags FitsFresh
  rw [hopened]
  dsimp only
  rw [hfind]
  exact ⟨fun h => absurd h.1 (by decide), rfl⟩

end Kernel

end DBolOS.Vfs
