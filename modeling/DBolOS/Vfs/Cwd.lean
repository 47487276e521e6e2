import DBolOS.Vfs.Buffers
import DBolOS.Vfs.Listing

/-!
# The working directory

`_chdir` copies the path that it looked up over the `cwd` of the process without its terminator, and looks an absolute
path up in a buffer that it does not end.  The directory that `_getcwd` gives is the path that was named exactly when the
byte behind an absolute path is zero and the path is no shorter than the directory before (`tracks_iff_fits`).
-/

namespace DBolOS.Vfs

open Failing
open Fat (Volume FileData slash)
open Proc (Process Manager)

def ERANGE : Int := 34

/-- The bytes of `cwd`: behind the string they are zero. -/
def cwdBuffer (cwd : List UInt8) : List UInt8 := cwd ++ List.replicate (pathSize - cwd.length) 0

namespace Kernel

/-- `strncpy` of `path` over the `cwd` of process `c`. -/
def setCwd (k : Kernel) (c : Nat) (path : List UInt8) : Except Fault Kernel := do
  let manager ← Fault.process.of (k.manager.modifyProc c fun p => { p with cwd := overwritePath p.cwd path })
  .ok { k with manager }

def sysChdir (stale : Nat → ByteMem) (k : Kernel) (path : List UInt8) : Except Fault (Int × Kernel) := do
  let newPath ← k.stackPath (stale 0) path
  match ← Fault.fileSystem.of (Volume.fatGetDirData (stale 1) k.volume newPath) with
  | .error _ => .ok (-ENOENT, k)
  | .ok tmpDir =>
    if tmpDir.fileEntry.isDirectory then do
      let c ← Fault.process.of k.manager.currentProcess
      let k ← k.setCwd c newPath
      .ok (0, k)
    else .ok (-ENOTDIR, k)

/-- `_getcwd`: the return value and the bytes stored in the buffer. -/
def sysGetcwd (k : Kernel) (size : Nat) : Except Fault (Int × List UInt8) := do
  let cwd ← k.cwd
  if size < cwd.length + 1 then .ok (-ERANGE, [])
  else do
    let buf ← Fault.fileSystem.of (strcpy (cwdBuffer cwd))
    .ok (0, buf)

end Kernel

section Strings

open Kernel (overwritePath)

variable {old path : List UInt8}

private theorem overwritePath_eq (hne : path ≠ []) (hlen : path.length < pathSize) :
    overwritePath old path = path ++ old.drop path.length := by
  rw [overwritePath, if_neg hne, List.take_of_length_le hlen.le]

private theorem overwritePath_eq_self_iff (hne : path ≠ []) (hlen : path.length < pathSize) :
    overwritePath old path = path ↔ old.length ≤ path.length := by
  rw [overwritePath_eq hne hlen, List.append_right_eq_self, List.drop_eq_nil_iff]

private theorem length_overwritePath (old : List UInt8) (hne : path ≠ []) (hlen : path.length < pathSize) :
    (overwritePath old path).length = max path.length old.length := by
  rw [overwritePath_eq hne hlen, List.length_append, List.length_drop]
  omega

/-- A joined path is a string that ends inside its buffer. -/
theorem joinPath_ends {cwd s : List UInt8} (hcwd : NoNul cwd) (hpath : NoNul path) (h : joinPath cwd path = some s) :
    NoNul s ∧ s.length < pathSize := by
  unfold joinPath at h
  split at h
  · cases h
    exact ⟨by simp [NoNul], by decide⟩
  rename_i hfits
  split at h
  · cases h
    exact ⟨hpath, by omega⟩
  split at h
  · cases h
  have hslash : NoNul [slash] := by simp [NoNul, slash]
  obtain ⟨full, hfull, hnul, hlen⟩ : ∃ full, full = (if cwd.getLast? = some slash then cwd else cwd ++ [slash]) ++ path ∧
      NoNul full ∧ full.length < pathSize := by
    refine ⟨_, rfl, ?_⟩
    split
    · exact ⟨noNul_append hcwd hpath, by rw [List.length_append]; omega⟩
    · refine ⟨noNul_append (noNul_append hcwd hslash) hpath, ?_⟩
      rw [List.length_append, List.length_append, List.length_singleton]
      omega
  rw [← hfull] at h
  dsimp only at h
  -- the dot behind the last slash goes with it
  obtain ⟨short, hshort, hsubset, hle⟩ : ∃ short,
      short = (if [slash, Fat.dot].isSuffixOf full then full.dropLast.dropLast else full) ∧ short ⊆ full ∧
        short.length ≤ full.length := by
    refine ⟨_, rfl, ?_⟩
    split
    · refine ⟨fun b hb => List.dropLast_subset _ (List.dropLast_subset _ hb), ?_⟩
      rw [List.length_dropLast, List.length_dropLast]
      omega
    · exact ⟨List.Subset.refl _, Nat.le_refl _⟩
  rw [← hshort, Option.some.injEq] at h
  rw [← h]
  split
  · exact ⟨hslash, by decide⟩
  · exact ⟨hnul.mono hsubset, by omega⟩

end Strings

namespace Kernel

variable {k k' : Kernel} {c : Nat} {wd : List UInt8}

/-- The running process `c` has the working directory `wd`, a string that ends inside its field. -/
structure WorkingDir (k : Kernel) (c : Nat) (wd : List UInt8) : Prop where
  running : k.manager.currentProcess = some c
  process : (k.manager.proc c).map Process.cwd = some wd
  noNul : NoNul wd
  ne_nil : wd ≠ []
  ends : wd.length < pathSize

/-- A call of `_chdir` with the bytes on the stack. -/
structure Chdir where
  stale : Nat → ByteMem
  path : List UInt8
  noNul : NoNul path

def chdirStep (k : Kernel) (call : Chdir) : Option Kernel :=
  (k.sysChdir call.stale call.path).toOption.map Prod.snd

/-- Where a call returns 0, `_getcwd` gives the path that was looked up: the absolute argument, or its join to the
directory before.  Where it returns an error, nothing has changed. -/
def Tracks (k : Kernel) (call : Chdir) : Prop :=
  ∀ ret k', k.sysChdir call.stale call.path = .ok (ret, k') →
    (ret = 0 → ∃ p, k.zeroedPath call.path = .ok p ∧
      ∀ size, k'.sysGetcwd size = .ok (if size < p.length + 1 then (-ERANGE, []) else (0, p ++ [0]))) ∧
    (ret ≠ 0 → k' = k)

/-- Where the path in the buffer is that of a directory, the byte behind an absolute argument is zero, and the path is
no shorter than the directory before. -/
def Replaces (k : Kernel) (wd : List UInt8) (call : Chdir) : Prop :=
  ∀ newPath dir, k.stackPath (call.stale 0) call.path = .ok newPath →
    Volume.fatGetDirData (call.stale 1) k.volume newPath = some (.ok dir) →
    (call.path.head? = some slash → call.stale 0 call.path.length = 0) ∧ wd.length ≤ newPath.length

private theorem stackPath_absolute {stale : ByteMem} {path : List UInt8} (hpath : NoNul path)
    (habsolute : path.head? = some slash)
    (hlen : path.length < pathSize) (hzero : stale path.length = 0) : k.stackPath stale path = .ok path := by
  have hne : path ≠ [] := by
    rintro rfl
    cases habsolute
  rw [stackPath, if_pos habsolute]
  exact Fault.of_eq_ok.2 (bufferString_copyOver_zero hpath hne hlen hzero)

theorem WorkingDir.cwd (h : WorkingDir k c wd) : k.cwd = .ok wd := by
  obtain ⟨p, hp, hcwd⟩ := Option.map_eq_some_iff.1 h.process
  have hprocess : k.process c = .ok p := Fault.of_eq_ok.2 hp
  unfold Kernel.cwd
  rw [Fault.of_eq_ok.2 h.running, ok_bind, hprocess, ok_bind, hcwd]

/-- The path that a call looks up in its buffer, and the one that its argument names. -/
theorem WorkingDir.stackPath (h : WorkingDir k c wd) {stale : ByteMem} {path newPath : List UInt8} (hpath : NoNul path)
    (hnew : k.stackPath stale path = .ok newPath) :
    NoNul newPath ∧ newPath.length < pathSize ∧ ∃ p, k.zeroedPath path = .ok p ∧
      ((path.head? = some slash → stale path.length = 0) → newPath = p) ∧
      (¬(path.head? = some slash → stale path.length = 0) → p.length < newPath.length) := by
  unfold Kernel.stackPath at hnew
  unfold Kernel.zeroedPath
  by_cases habsolute : path.head? = some slash
  · have hne : path ≠ [] := by
      rintro rfl
      cases habsolute
    rw [if_pos habsolute] at hnew ⊢
    have hstring := Fault.of_eq_ok.1 hnew
    obtain ⟨hnul, -⟩ := bufferString_eq_some hstring
    rw [bufferString_copyOver stale pathSize hpath hne, Option.map_eq_some_iff] at hstring
    obtain ⟨g, hg, hnewPath⟩ := hstring
    have hlen := (bufferString_eq_some hg).2
    rw [ByteMem.length_readBytes] at hlen
    have hends : newPath.length < pathSize := by
      rw [← hnewPath, List.length_append]
      omega
    refine ⟨hnul, hends, path, if_pos (by omega), ?_, ?_⟩
    · intro hzero
      have hself : bufferString (copyOver stale pathSize path) = some path :=
        bufferString_copyOver_zero hpath hne (by omega) (hzero habsolute)
      rw [Fault.of_eq_ok.1 hnew] at hself
      exact Option.some.inj hself
    · intro hzero
      exact length_lt_of_copyOver hpath hne (fun h => hzero fun _ => h) (Fault.of_eq_ok.1 hnew)
  · rw [if_neg habsolute, h.cwd, ok_bind] at hnew ⊢
    obtain ⟨hnul, hends⟩ := joinPath_ends h.noNul hpath (Fault.of_eq_ok.1 hnew)
    exact ⟨hnul, hends, newPath, hnew, fun _ => rfl, fun hno => absurd (fun h => absurd h habsolute) hno⟩

/-- The copy over the working directory. -/
theorem WorkingDir.setCwd (h : WorkingDir k c wd) {path : List UInt8} (hpath : NoNul path) (hne : path ≠ [])
    (hlen : path.length < pathSize) :
    ∃ k', k.setCwd c path = .ok k' ∧ WorkingDir k' c (overwritePath wd path) := by
  obtain ⟨p, hp, rfl⟩ := Option.map_eq_some_iff.1 h.process
  obtain ⟨n, hn, rfl⟩ := Option.map_eq_some_iff.1 hp
  obtain ⟨m, hm⟩ : ∃ m, k.manager.modifyProc c (fun p => { p with cwd := overwritePath p.cwd path }) = some m := by
    rw [Manager.modifyProc, Manager.modify, hn]
    exact ⟨_, rfl⟩
  refine ⟨{ k with manager := m }, ?_, ?_⟩
  · rw [Kernel.setCwd, Fault.of_eq_ok.2 hm, ok_bind]
  · obtain ⟨n', hn', rfl⟩ := Proc.modify_eq hm
    rw [hn] at hn'
    cases hn'
    have hends := h.ends
    refine ⟨h.running, ?_, ?_, ?_, ?_⟩
    · rw [Manager.proc, Proc.node_insert, if_pos rfl]
      rfl
    · rw [overwritePath_eq hne hlen]
      exact noNul_append hpath (h.noNul.mono (List.drop_subset _ _))
    · rw [overwritePath_eq hne hlen]
      exact List.append_ne_nil_of_left_ne_nil hne _
    · rw [length_overwritePath _ hne hlen]
      omega

/-- `_getcwd` gives the working directory. -/
private theorem WorkingDir.sysGetcwd (h : WorkingDir k c wd) (size : Nat) :
    k.sysGetcwd size = .ok (if size < wd.length + 1 then (-ERANGE, []) else (0, wd ++ [0])) := by
  have hends := h.ends
  obtain ⟨n, hn⟩ : ∃ n, pathSize - wd.length = n + 1 := ⟨pathSize - wd.length - 1, by omega⟩
  have hcopy : strcpy (cwdBuffer wd) = some (wd ++ [0]) := by
    rw [cwdBuffer, hn, List.replicate_succ, strcpy_eq h.noNul h.ne_nil]
  unfold Kernel.sysGetcwd
  rw [h.cwd, ok_bind]
  by_cases hsize : size < wd.length + 1
  · rw [if_pos hsize, if_pos hsize]
  · rw [if_neg hsize, if_neg hsize, hcopy, Fault.of, ok_bind]

/-- The driver finds a directory, and no path that is empty: its splitter goes on behind the terminator of one. -/
theorem fatGetDirData_ok {stale : ByteMem} {v : Volume} {path : List UInt8} {dir : FileData}
    (h : Volume.fatGetDirData stale v path = some (.ok dir)) : dir.fileEntry.isDirectory = true ∧ path ≠ [] := by
  unfold Volume.fatGetDirData at h
  simp only [Option.bind_eq_bind, Option.bind_eq_some_iff] at h
  obtain ⟨r, -, h⟩ := h
  cases r with
  | error err => cases h
  | ok e =>
    dsimp only at h
    split at h
    · cases h
    rename_i hflag
    simp only [Option.bind_eq_some_iff] at h
    obtain ⟨parentPath, hparent, r, -, h⟩ := h
    cases r with
    | error err => cases h
    | ok parentEntry =>
      cases h
      refine ⟨by simpa using hflag, ?_⟩
      rintro rfl
      cases hparent

/-- A call with the path of a directory in its buffer copies it over the working directory. -/
private theorem WorkingDir.sysChdir (h : WorkingDir k c wd) (call : Chdir) {newPath : List UInt8} {dir : FileData}
    (hnew : k.stackPath (call.stale 0) call.path = .ok newPath)
    (hdir : Volume.fatGetDirData (call.stale 1) k.volume newPath = some (.ok dir)) :
    ∃ k', k.sysChdir call.stale call.path = .ok (0, k') ∧ WorkingDir k' c (overwritePath wd newPath) := by
  obtain ⟨hnul, hends, -⟩ := h.stackPath call.noNul hnew
  obtain ⟨hdirectory, hne⟩ := fatGetDirData_ok hdir
  obtain ⟨k', hk', hwd⟩ := h.setCwd hnul hne hends
  refine ⟨k', ?_, hwd⟩
  unfold Kernel.sysChdir
  rw [hnew, ok_bind, hdir]
  simp only [Fault.of, ok_bind, hdirectory, if_true]
  rw [h.running]
  simp only [ok_bind, hk']

/-- Any other call that returns fails and changes nothing. -/
private theorem sysChdir_cases (call : Chdir) {ret : Int} (hcall : k.sysChdir call.stale call.path = .ok (ret, k')) :
    ∃ newPath r, k.stackPath (call.stale 0) call.path = .ok newPath ∧
      Volume.fatGetDirData (call.stale 1) k.volume newPath = some r ∧
      ∀ err, r = .error err → ret ≠ 0 ∧ k' = k := by
  unfold Kernel.sysChdir at hcall
  cases hnew : k.stackPath (call.stale 0) call.path with
  | error f =>
    rw [hnew, error_bind] at hcall
    cases hcall
  | ok newPath =>
    rw [hnew, ok_bind] at hcall
    cases hdir : Volume.fatGetDirData (call.stale 1) k.volume newPath with
    | none =>
      rw [hdir, Fault.of, error_bind] at hcall
      cases hcall
    | some r =>
      refine ⟨newPath, r, rfl, hdir, ?_⟩
      rintro err rfl
      rw [hdir, Fault.of, ok_bind] at hcall
      cases hcall
      exact ⟨by decide, rfl⟩

/-! ### Runs -/

/-- A call that returns leaves a working directory that ends inside its field. -/
private theorem WorkingDir.step (h : WorkingDir k c wd) (call : Chdir) (hstep : chdirStep k call = some k') :
    ∃ wd', WorkingDir k' c wd' := by
  obtain ⟨⟨ret, k''⟩, hcall, rfl⟩ := Option.map_eq_some_iff.1 hstep
  replace hcall := eq_ok_of_toOption hcall
  obtain ⟨newPath, r, hnew, hdir, herror⟩ := sysChdir_cases call hcall
  cases r with
  | error err =>
    obtain ⟨-, rfl⟩ := herror err rfl
    exact ⟨wd, h⟩
  | ok dir =>
    obtain ⟨k₁, hk₁, hwd⟩ := h.sysChdir call hnew hdir
    rw [hcall] at hk₁
    cases hk₁
    exact ⟨_, hwd⟩

/-- A call keeps track of the directory exactly when its path ends where it should and covers the one before. -/
private theorem WorkingDir.tracks_iff (h : WorkingDir k c wd) (call : Chdir) : Tracks k call ↔ Replaces k wd call := by
  constructor
  · intro htracks newPath dir hnew hdir
    obtain ⟨k', hcall, hwd⟩ := h.sysChdir call hnew hdir
    obtain ⟨p, hp, hget⟩ := (htracks 0 k' hcall).1 rfl
    obtain ⟨hnul, hends, p', hp', hzero, hlonger⟩ := h.stackPath call.noNul hnew
    have hne := (fatGetDirData_ok hdir).2
    rw [hp] at hp'
    cases hp'
    -- with a large buffer the two strings are compared
    have hlarge := hget (p.length + (overwritePath wd newPath).length + 1)
    rw [hwd.sysGetcwd, if_neg (by omega), if_neg (by omega)] at hlarge
    have hsame : overwritePath wd newPath = p := by simpa using hlarge
    have hlength := length_overwritePath wd hne hends
    by_cases hends' : call.path.head? = some slash → call.stale 0 call.path.length = 0
    · refine ⟨hends', (overwritePath_eq_self_iff hne hends).1 ?_⟩
      rw [hsame, hzero hends']
    · have := hlonger hends'
      rw [hsame] at hlength
      omega
  · intro hreplaces ret k' hcall
    obtain ⟨newPath, r, hnew, hdir, herror⟩ := sysChdir_cases call hcall
    cases r with
    | error err =>
      obtain ⟨hret, rfl⟩ := herror err rfl
      exact ⟨fun hzero => absurd hzero hret, fun _ => rfl⟩
    | ok dir =>
      obtain ⟨k₁, hk₁, hwd⟩ := h.sysChdir call hnew hdir
      rw [hcall] at hk₁
      cases hk₁
      refine ⟨fun _ => ?_, fun hne => absurd rfl hne⟩
      obtain ⟨hends', hle⟩ := hreplaces newPath dir hnew hdir
      obtain ⟨hnul, hends, p, hp, hzero, -⟩ := h.stackPath call.noNul hnew
      have hne := (fatGetDirData_ok hdir).2
      refine ⟨p, hp, fun size => ?_⟩
      rw [hwd.sysGetcwd, (overwritePath_eq_self_iff hne hends).2 hle, hzero hends']

/-- The working directory of the running process. -/
def wdOf (k : Kernel) : List UInt8 :=
  match k.cwd with
  | .ok wd => wd
  | .error _ => []

/-- In every run of calls the working directory ends inside its field, and the calls keep track of it all along exactly
when each copies a path that ends where it should and covers the one before. -/
theorem tracks_iff_replaces (h : WorkingDir k c wd) (calls : List Chdir) (k' : Kernel) :
    (Machine.Run chdirStep (fun _ _ => True) k calls k' → ∃ wd', WorkingDir k' c wd') ∧
      (Machine.Run chdirStep Tracks k calls k' ↔
        Machine.Run chdirStep (fun k call => Replaces k (wdOf k) call) k calls k') := by
  have hstep : ∀ C : Kernel → Chdir → Prop, ∀ s i s', (∃ wd, WorkingDir s c wd) → C s i → chdirStep s i = some s' →
      ∃ wd, WorkingDir s' c wd := by
    rintro C s i s' ⟨wd, hs⟩ - hi
    exact hs.step i hi
  have hiff : ∀ s i, (∃ wd, WorkingDir s c wd) → (Tracks s i ↔ Replaces s (wdOf s) i) := by
    rintro s i ⟨wd, hs⟩
    rw [wdOf, hs.cwd]
    exact hs.tracks_iff i
  refine ⟨fun hrun => hrun.inv (hstep _) ⟨wd, h⟩, ?_, ?_⟩
  · intro hrun
    exact hrun.mono_inv (hstep _) (fun s i hs => (hiff s i hs).1) ⟨wd, h⟩
  · intro hrun
    exact hrun.mono_inv (hstep _) (fun s i hs => (hiff s i hs).2) ⟨wd, h⟩

/-- `_chdir` to `/d` and to `/` with zeros on the stack. -/
def enter : Chdir := ⟨fun _ _ => 0, [slash, 0x64], by simp [NoNul, slash]⟩
def leave : Chdir := ⟨fun _ _ => 0, [slash], by simp [NoNul, slash]⟩

/-- The first process goes to `/d` and back. -/
private theorem enter_leave : ∃ v k₀ k k₁ k₂, boot v = .ok k₀ ∧ Machine.Run exec (fun _ _ => True) k₀ startup k ∧
    WorkingDir k 10 [slash] ∧ chdirStep k enter = some k₁ ∧ WorkingDir k₁ 10 [slash, 0x64] ∧
    chdirStep k₁ leave = some k₂ ∧ ∃ dir, Volume.fatGetDirData (fun _ => 0) k₁.volume [slash] = some (.ok dir) := by
  have hrun : ((Fat.fatInit (some fun _ => 0) oneDirectoryDisk).bind fun mounted => mounted.bind fun v =>
      (startup.foldlM exec ⟨Manager.boot, Vector.ofFn fun g => bootEntry g, v⟩).bind fun k =>
        (chdirStep k enter).bind fun k₁ => (chdirStep k₁ leave).bind fun _ =>
          ((Volume.fatGetDirData (fun _ => 0) k₁.volume [slash]).bind Except.toOption).map fun _ =>
            decide (k.manager.currentProcess = some 10 ∧ (k.manager.proc 10).map Process.cwd = some [slash] ∧
              k₁.manager.currentProcess = some 10 ∧ (k₁.manager.proc 10).map Process.cwd = some [slash, 0x64])) =
      some true := by
    decide +kernel
  simp only [Option.bind_eq_some_iff, Option.map_eq_some_iff, decide_eq_true_eq] at hrun
  obtain ⟨_, -, v, rfl, k, hk, k₁, henter, k₂, hleave, dir, ⟨r, hr, hdir⟩, hcurrent, hcwd, hcurrent₁, hcwd₁⟩ := hrun
  refine ⟨v, _, k, k₁, k₂, boot_eq v, Machine.run_iff_foldlM.2 hk,
    ⟨hcurrent, Option.map_eq_some_iff.2 hcwd, by simp [NoNul, slash], by simp, by simp [pathSize]⟩, henter,
    ⟨hcurrent₁, Option.map_eq_some_iff.2 hcwd₁, by simp [NoNul, slash], by simp, by simp [pathSize]⟩, hleave, dir, ?_⟩
  cases r with
  | error err => cases hdir
  | ok dir' =>
    cases hdir
    exact hr

/-- Back in `/`, the directory is still `/d`. -/
theorem not_tracks : ∃ v k₀ k k', boot v = .ok k₀ ∧ Machine.Run exec (fun _ _ => True) k₀ startup k ∧
    Machine.Run chdirStep (fun _ _ => True) k [enter, leave] k' ∧ ¬Machine.Run chdirStep Tracks k [enter, leave] k' := by
  obtain ⟨v, k₀, k, k₁, k₂, h₀, hrun, -, henter, h₁, hleave, dir, hdir⟩ := enter_leave
  refine ⟨v, k₀, k, k₂, h₀, hrun, .cons trivial henter (.single trivial hleave), ?_⟩
  intro htracks
  cases htracks with
  | cons _ hstep htracks =>
    rw [henter] at hstep
    cases hstep
    cases htracks with
    | cons htracks _ _ =>
      have hnew : k₁.stackPath (leave.stale 0) leave.path = .ok [slash] :=
        stackPath_absolute leave.noNul rfl (by simp [leave, pathSize]) rfl
      obtain ⟨-, hle⟩ := (h₁.tracks_iff leave).1 htracks [slash] dir hnew hdir
      exact absurd hle (by simp)

/-- `tracks_iff_replaces` for the way to `/d`. -/
theorem tracks_enter : ∃ v k₀ k k', boot v = .ok k₀ ∧ Machine.Run exec (fun _ _ => True) k₀ startup k ∧
    Machine.Run chdirStep Tracks k [enter] k' := by
  obtain ⟨v, k₀, k, k₁, k₂, h₀, hrun, h, henter, -⟩ := enter_leave
  refine ⟨v, k₀, k, k₁, h₀, hrun, (tracks_iff_replaces h [enter] k₁).2.2 (.single ?_ henter)⟩
  intro newPath dir hnew hdir
  have hpath : k.stackPath (enter.stale 0) enter.path = .ok [slash, 0x64] :=
    stackPath_absolute enter.noNul rfl (by simp [enter, pathSize]) rfl
  rw [hpath] at hnew
  cases hnew
  refine ⟨fun _ => rfl, ?_⟩
  rw [wdOf, h.cwd]
  simp

end Kernel

end DBolOS.Vfs
