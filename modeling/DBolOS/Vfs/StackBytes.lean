import DBolOS.Vfs.Cwd
import DBolOS.Vfs.Simplify

/-!
# Bytes left on the stack

The calls on a path fill local buffers that nothing has initialised.  In runs of a call that differ in these bytes alone,
`_rmdir` never gets to look at its buffer, `_chdir` and `_mkdir` find the end of a relative path only, and `_rename` splits
copies of its paths that nothing ends (`independent_iff`).
-/

namespace DBolOS.Vfs

open Failing
open Fat (Volume slash)
open Proc (Manager)

namespace Kernel

/-! ### `_rmdir` -/

/-- The bytes of the buffer that a call fills with its path. -/
def pathBuffer (stale : ByteMem) (k : Kernel) (path : List UInt8) : Except Fault (List UInt8) :=
  if path.head? = some slash then .ok (copyOver stale pathSize path)
  else do
    let cwd ← k.cwd
    let fullPath ← Fault.fileSystem.of (joinPath cwd path)
    .ok (copyOver (if fullPath = [] then stale else fun _ => 0) pathSize fullPath)

/-- The argument that `get_glob_fd` is called with is not one of its parameters: it points to the table. -/
def getGlobFd : Option Nat := some 0

def sysRmdir (stale : Nat → ByteMem) (k : Kernel) (path : List UInt8) : Except Fault (Int × Kernel) := do
  let newPath ← k.pathBuffer (stale 0) path
  match getGlobFd with
  | some _ => .ok (-EBUSY, k)
  | none => do
    let newPath ← Fault.fileSystem.of (bufferString newPath)
    let (ret, volume) ← Fault.fileSystem.of (Volume.fatDeleteDir (stale 1) k.volume newPath)
    .ok (ret, { k with volume })

/-! ### Two runs of a call -/

/-- The calls whose buffers are not initialised. -/
inductive PathCall
  | chdir (path : List UInt8) (noNul : NoNul path)
  | mkdir (path : List UInt8) (noNul : NoNul path)
  | rmdir (path : List UInt8) (noNul : NoNul path)
  | rename (oldPath newPath : List UInt8) (noNul : NoNul oldPath) (noNul' : NoNul newPath)

def PathCall.perform (stale : Nat → ByteMem) (k : Kernel) : PathCall → Except Fault (Int × Kernel)
  | .chdir path _ => sysChdir stale k path
  | .mkdir path _ => sysMkdir stale k path
  | .rmdir path _ => sysRmdir stale k path
  | .rename oldPath newPath _ _ => sysRename stale k oldPath newPath

/-- Where the driver finds its own bytes on the stack. -/
def PathCall.driver : PathCall → Nat
  | .rename _ _ _ _ => 7
  | _ => 1

/-- The call has a result, the same in all runs that differ in the bytes of its buffers alone. -/
def Independent (k : Kernel) (call : PathCall) : Prop :=
  ∀ driver, ∃ r, ∀ stale, stale call.driver = driver → call.perform stale k = .ok r

/-- The path is relative and the driver has a result for its join to the working directory `wd`. -/
def Settled (k : Kernel) (wd : List UInt8) : PathCall → Prop
  | .chdir path _ => path.head? ≠ some slash ∧
      ∀ s driver, joinPath wd path = some s → Volume.fatGetDirData driver k.volume s ≠ none
  | .mkdir path _ => path.head? ≠ some slash ∧
      ∀ s driver, joinPath wd path = some s → Volume.fatCreateDirectory driver k.volume s ≠ none
  | .rmdir _ _ => True
  | .rename _ _ _ _ => False

variable {k : Kernel} {c : Nat} {wd path : List UInt8}

/-- The join to a working directory is written down. -/
private theorem WorkingDir.joinPath (h : WorkingDir k c wd) (path : List UInt8) : ∃ s, joinPath wd path = some s := by
  unfold Vfs.joinPath
  rw [if_neg h.ne_nil]
  split
  · exact ⟨_, rfl⟩
  · split
    · exact ⟨_, rfl⟩
    · exact ⟨_, rfl⟩

private theorem WorkingDir.stackPath_relative (h : WorkingDir k c wd) (hrelative : path.head? ≠ some slash)
    {s : List UInt8}
    (hs : Vfs.joinPath wd path = some s) (stale : ByteMem) : k.stackPath stale path = .ok s := by
  rw [Kernel.stackPath, if_neg hrelative, h.cwd, ok_bind, hs]
  rfl

/-- A buffer without a zero behind the path has no string. -/
private theorem stackPath_endless (hpath : NoNul path) (habsolute : path.head? = some slash) :
    k.stackPath (fun _ => 1) path = .error .fileSystem := by
  have hne : path ≠ [] := by
    rintro rfl
    cases habsolute
  have hnul : NoNul (ByteMem.readBytes (fun _ => 1) path.length (pathSize - path.length)) := by
    intro b hb
    obtain ⟨i, -, rfl⟩ := List.mem_map.1 hb
    exact (by decide : (1 : UInt8) ≠ 0)
  rw [stackPath, if_pos habsolute, bufferString_copyOver _ _ hpath hne, bufferString_of_noNul hnul]
  rfl

/-- A call that reads the string of its buffer is independent for a relative path for which there is a result. -/
private theorem readsPath_iff {α : Type} (h : WorkingDir k c wd) (hpath : NoNul path)
    (read : ByteMem → List UInt8 → Except Fault α) :
    (∀ driver, ∃ r, ∀ stale : Nat → ByteMem, stale 1 = driver →
        (k.stackPath (stale 0) path >>= read (stale 1)) = .ok r) ↔
      path.head? ≠ some slash ∧ ∀ s driver, Vfs.joinPath wd path = some s → ∃ r, read driver s = .ok r := by
  constructor
  · intro hall
    have hrelative : path.head? ≠ some slash := by
      intro habsolute
      obtain ⟨r, hr⟩ := hall fun _ => 0
      have hone := hr (fun i => if i = 1 then fun _ => 0 else fun _ => 1) rfl
      simp only [if_neg zero_ne_one, stackPath_endless hpath habsolute, error_bind] at hone
      cases hone
    refine ⟨hrelative, fun s driver hs => ?_⟩
    obtain ⟨r, hr⟩ := hall driver
    have hone := hr (fun _ => driver) rfl
    rw [h.stackPath_relative hrelative hs, ok_bind] at hone
    exact ⟨r, hone⟩
  · rintro ⟨hrelative, hall⟩ driver
    obtain ⟨s, hs⟩ := h.joinPath path
    obtain ⟨r, hr⟩ := hall s driver hs
    refine ⟨r, ?_⟩
    rintro stale rfl
    rw [h.stackPath_relative hrelative hs, ok_bind, hr]

/-! ### The calls -/

/-- What `_chdir` does with the string of its buffer. -/
def enterPath (k : Kernel) (driver : ByteMem) (newPath : List UInt8) : Except Fault (Int × Kernel) := do
  match ← Fault.fileSystem.of (Volume.fatGetDirData driver k.volume newPath) with
  | .error _ => .ok (-ENOENT, k)
  | .ok tmpDir =>
    if tmpDir.fileEntry.isDirectory then do
      let c ← Fault.process.of k.manager.currentProcess
      let k ← k.setCwd c newPath
      .ok (0, k)
    else .ok (-ENOTDIR, k)

private theorem independent_chdir (h : WorkingDir k c wd) (hpath : NoNul path) :
    Independent k (.chdir path hpath) ↔ Settled k wd (.chdir path hpath) := by
  have hiff := readsPath_iff h hpath (enterPath k)
  refine hiff.trans (and_congr_right fun _ => ?_)
  refine forall_congr' fun s => forall_congr' fun driver => forall_congr' fun hs => ?_
  cases hdir : Volume.fatGetDirData driver k.volume s with
  | none =>
    refine iff_of_false ?_ (by simp)
    rintro ⟨r, hr⟩
    rw [enterPath, hdir, Fault.of, error_bind] at hr
    cases hr
  | some r =>
    refine iff_of_true ?_ (Option.some_ne_none r)
    rw [enterPath, hdir]
    cases r with
    | error err => exact ⟨_, rfl⟩
    | ok dir =>
      obtain ⟨hdirectory, hne⟩ := fatGetDirData_ok hdir
      obtain ⟨hnul, hends⟩ := joinPath_ends h.noNul hpath hs
      obtain ⟨k', hk', -⟩ := h.setCwd hnul hne hends
      simp only [Fault.of, hdirectory, if_true, h.running, ok_bind, hk']
      exact ⟨_, rfl⟩

private theorem independent_mkdir (h : WorkingDir k c wd) (hpath : NoNul path) :
    Independent k (.mkdir path hpath) ↔ Settled k wd (.mkdir path hpath) := by
  have hiff := readsPath_iff h hpath fun driver newPath => do
    let (ret, volume) ← Fault.fileSystem.of (Volume.fatCreateDirectory driver k.volume newPath)
    .ok (ret, { k with volume })
  refine hiff.trans (and_congr_right fun _ => ?_)
  refine forall_congr' fun s => forall_congr' fun driver => forall_congr' fun hs => ?_
  cases Volume.fatCreateDirectory driver k.volume s with
  | none =>
    refine iff_of_false ?_ (by simp)
    rintro ⟨r, hr⟩
    cases hr
  | some r => exact iff_of_true ⟨_, rfl⟩ (Option.some_ne_none r)

/-- `_rmdir` fills its buffer and does not look at it. -/
private theorem WorkingDir.sysRmdir (h : WorkingDir k c wd) (stale : Nat → ByteMem) (path : List UInt8) :
    k.sysRmdir stale path = .ok (-EBUSY, k) := by
  unfold Kernel.sysRmdir pathBuffer
  by_cases habsolute : path.head? = some slash
  · rw [if_pos habsolute]
    rfl
  · obtain ⟨s, hs⟩ := h.joinPath path
    rw [if_neg habsolute, h.cwd, ok_bind, hs]
    rfl

/-- `_rename` splits a copy of the old path that a zero has to end. -/
theorem sysRename_endless {oldPath : List UInt8} (h : WorkingDir k c wd) (hold : NoNul oldPath) (newPath : List UInt8) :
    ∃ f, k.sysRename (fun i => if i = 1 then fun _ => 1 else fun _ => 0) oldPath newPath = .error f := by
  unfold Kernel.sysRename
  cases hs : k.stackPath ((fun i => if i = 1 then fun _ => 1 else fun _ => 0 : Nat → ByteMem) 0) oldPath with
  | error f => exact ⟨f, rfl⟩
  | ok s =>
    rw [ok_bind, h.cwd, ok_bind]
    cases Vfs.joinPath wd newPath with
    | none => exact ⟨_, rfl⟩
    | some s' =>
      have hnone : splitCopy (fun _ => 1) (simplifyPath s) = none :=
        splitCopy_eq_none (noNul_simplifyPath (h.stackPath hold hs).1) (.inl fun _ => by decide)
      refine ⟨.fileSystem, ?_⟩
      rw [Fault.of, ok_bind, renameSimplified, if_pos rfl, getParentDir, hnone]
      rfl

/-- What a call returns and does is independent of the bytes on the stack exactly when it is settled without them. -/
theorem independent_iff (h : WorkingDir k c wd) (call : PathCall) : Independent k call ↔ Settled k wd call := by
  cases call with
  | chdir path hpath => exact independent_chdir h hpath
  | mkdir path hpath => exact independent_mkdir h hpath
  | rmdir path hpath => exact iff_of_true (fun _ => ⟨_, fun stale _ => h.sysRmdir stale path⟩) trivial
  | rename oldPath newPath hold hnew =>
    refine iff_of_false ?_ id
    intro hall
    obtain ⟨r, hr⟩ := hall fun _ => 0
    obtain ⟨f, hf⟩ := sysRename_endless h hold newPath
    have hone := hr (fun i => if i = 1 then fun _ => 1 else fun _ => 0) rfl
    rw [PathCall.perform, hf] at hone
    cases hone

/-- A byte behind the path in the buffer of `_chdir`. -/
def byteBehind : Nat → ByteMem := fun i a => if i = 0 ∧ a = 2 then 0x78 else 0

/-- `_chdir` to `/d` fails with a byte behind the path. -/
theorem not_independent : ∃ v k₀ k, boot v = .ok k₀ ∧ Machine.Run exec (fun _ _ => True) k₀ startup k ∧
    (sysChdir (fun _ _ => 0) k enter.path).toOption.map Prod.fst = some 0 ∧
    (sysChdir byteBehind k enter.path).toOption.map Prod.fst = some (-ENOENT) ∧
    ¬Independent k (.chdir enter.path enter.noNul) := by
  have hrun : ((Fat.fatInit (some fun _ => 0) oneDirectoryDisk).bind fun mounted => mounted.bind fun v =>
      (startup.foldlM exec ⟨Manager.boot, Vector.ofFn fun g => bootEntry g, v⟩).map fun k =>
        ((sysChdir (fun _ _ => 0) k enter.path).toOption.map Prod.fst,
          (sysChdir byteBehind k enter.path).toOption.map Prod.fst)) = some (some 0, some (-ENOENT)) := by
    decide +kernel
  simp only [Option.bind_eq_some_iff, Option.map_eq_some_iff, Prod.mk.injEq] at hrun
  obtain ⟨_, -, v, rfl, k, hk, hzero, hbehind⟩ := hrun
  refine ⟨v, _, k, boot_eq v, Machine.run_iff_foldlM.2 hk, Option.map_eq_some_iff.2 hzero,
    Option.map_eq_some_iff.2 hbehind, ?_⟩
  intro hall
  obtain ⟨r, hr, hret⟩ := hzero
  obtain ⟨r', hr', hret'⟩ := hbehind
  obtain ⟨r'', hsame⟩ := hall fun _ => 0
  have hone := hsame (fun _ _ => 0) rfl
  have hother := hsame byteBehind (funext fun _ => if_neg (by simp [PathCall.driver]))
  rw [PathCall.perform] at hone hother
  rw [hone] at hr
  rw [hother] at hr'
  cases hr
  cases hr'
  rw [hret] at hret'
  exact absurd hret' (by decide)

/-- `_chdir` to `d` from the root. -/
theorem independent_iff_relative : ∃ v k₀ k, boot v = .ok k₀ ∧ Machine.Run exec (fun _ _ => True) k₀ startup k ∧
    ∀ hpath : NoNul [0x64], Independent k (.chdir [0x64] hpath) := by
  have hrun : ((Fat.fatInit (some fun _ => 0) oneDirectoryDisk).bind fun mounted => mounted.bind fun v =>
      (startup.foldlM exec ⟨Manager.boot, Vector.ofFn fun g => bootEntry g, v⟩).map fun k =>
        (decide (k.manager.currentProcess = some 10 ∧ (k.manager.proc 10).map Proc.Process.cwd = some [slash]),
          (Volume.fatGetDirData (fun _ => 0) k.volume [slash, 0x64]).isSome)) = some (true, true) := by
    decide +kernel
  simp only [Option.bind_eq_some_iff, Option.map_eq_some_iff, Prod.mk.injEq, decide_eq_true_eq] at hrun
  obtain ⟨_, -, v, rfl, k, hk, ⟨hcurrent, hcwd⟩, hdir⟩ := hrun
  have hwd : WorkingDir k 10 [slash] :=
    ⟨hcurrent, Option.map_eq_some_iff.2 hcwd, by simp [NoNul, slash], by simp, by simp [pathSize]⟩
  refine ⟨v, _, k, boot_eq v, Machine.run_iff_foldlM.2 hk, fun hpath => (independent_iff hwd (.chdir [0x64] hpath)).2 ?_⟩
  refine ⟨by decide, fun s driver hs => ?_⟩
  have hjoin : Vfs.joinPath [slash] [0x64] = some [slash, 0x64] := by decide
  rw [hjoin] at hs
  cases hs
  -- the parent is found before the bytes behind the copy of the path
  have hparent : ∀ stale, Fat.getParentDir stale [slash, 0x64] = some [slash] := fun stale =>
    @Fat.getParentDir_slash stale [] [0x64] (by simp [NoNul, slash]) (by decide)
  have hsame : Volume.fatGetDirData driver k.volume [slash, 0x64] =
      Volume.fatGetDirData (fun _ => 0) k.volume [slash, 0x64] := by
    unfold Volume.fatGetDirData
    rw [hparent, hparent]
  rw [hsame]
  exact Option.isSome_iff_ne_none.1 hdir

end Kernel

end DBolOS.Vfs
