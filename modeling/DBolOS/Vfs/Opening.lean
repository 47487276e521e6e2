import DBolOS.Vfs.WellFormed

/-!
# Opening a file

With a slot of the process and an entry of the table to use, `_open` returns the lowest unused slot or an error, keeps
the tables well-formed and changes no other slot (`sysOpen_meets`).  With it, every run of sound steps keeps the tables
well-formed (`tables_wellFormed`).
-/

namespace DBolOS.Vfs

open Failing
open Proc (Process FileDescriptor Manager Terminal NoneBeyondStdio MAX_LOCAL_FD)

/-- The slot that `_open` uses. -/
def LowestUnused (fdTable : Vector FileDescriptor MAX_LOCAL_FD) (fd : Nat) : Prop :=
  (∃ h : fd < MAX_LOCAL_FD, (fdTable.get ⟨fd, h⟩).isUsed = false) ∧
    ∀ j : Fin MAX_LOCAL_FD, j.val < fd → (fdTable.get j).isUsed = true

namespace Kernel

variable {k k' k'' : Kernel} {c g fd : Nat} {p : Process} {d : FileDescriptor} {v : Fat.Volume} {used : Bool}
  {fdTable : Vector FileDescriptor MAX_LOCAL_FD}

/-! ### The search -/

theorem exists_lowestUnused (h : ∃ fd, (fdTable.get fd).isUsed = false) : ∃ fd, LowestUnused fdTable fd := by
  have hex : ∃ fd, ∃ h : fd < MAX_LOCAL_FD, (fdTable.get ⟨fd, h⟩).isUsed = false := by
    obtain ⟨fd, hfd⟩ := h
    exact ⟨fd.val, fd.isLt, hfd⟩
  classical
  refine ⟨Nat.find hex, Nat.find_spec hex, ?_⟩
  intro j hj
  have := Nat.find_min hex hj
  by_contra hused
  exact this ⟨j.isLt, by simpa using hused⟩

/-- The search passes the used slots below the lowest unused one. -/
theorem unusedSlot_eq {i n : Nat} (h : LowestUnused fdTable i) (hfd : fd ≤ i) (hn : i < fd + n) :
    unusedSlot fdTable n fd = .ok (some i) := by
  induction n generalizing fd with
  | zero => omega
  | succ n ih =>
    obtain ⟨⟨hi, hunused⟩, hlow⟩ := h
    have hlt : fd < MAX_LOCAL_FD := by omega
    have hslot : slotOf fdTable fd = .ok (fdTable.get ⟨fd, hlt⟩) := by
      unfold slotOf
      rw [Vector.getElem?_eq_getElem hlt]
      rfl
    unfold unusedSlot
    rw [hslot]
    show (if (fdTable.get ⟨fd, hlt⟩).isUsed then _ else _) = _
    by_cases heq : fd = i
    · subst heq
      rw [hunused]
      rfl
    · rw [hlow ⟨fd, hlt⟩ (by show fd < i; omega), if_pos rfl]
      apply ih
      · omega
      · omega

/-! ### The call -/

/-- From `k` to `k'` at most slot `fd` of process `c` changed, which is now used or not. -/
structure Opening (k k' : Kernel) (c fd : Nat) (used : Bool) : Prop where
  wellFormed : WellFormed k'
  others : ∀ c', c' ≠ c → k'.manager.proc c' = k.manager.proc c'
  slots : ∃ p p', k.manager.proc c = some p ∧ k'.manager.proc c = some p' ∧
    (∀ j, j.val ≠ fd → p'.fdTable.get j = p.fdTable.get j) ∧ ∀ j, j.val = fd → (p'.fdTable.get j).isUsed = used

private theorem Opening.set (o : Opening k k' c fd used) (hg : g < MAX_FD) (x : GlobalFd) (v : Fat.Volume)
    (hx : k'.inUse g = true → x.isUsed = true) :
    Opening k { k' with globalFdTable := k'.globalFdTable.set g x hg, volume := v } c fd used :=
  ⟨o.wellFormed.set hg x v hx, o.others, o.slots⟩

private theorem Opening.volume (o : Opening k k' c fd used) (v : Fat.Volume) :
    Opening k { k' with volume := v } c fd used :=
  ⟨o.wellFormed.volume v, o.others, o.slots⟩

private theorem Opening.setSlot (o : Opening k k' c fd used) (hfd : fd < MAX_LOCAL_FD)
    (hd : d.isUsed = true → k'.ToUsed d.globalFd) :
    Meets Fault.Elsewhere (fun k'' => Opening k k'' c fd d.isUsed) (k'.setSlot c fd d) := by
  apply (setSlot_meets k' c hfd d).mono
  intro k'' hset
  refine ⟨o.wellFormed.slotSet hset hd, ?_, ?_⟩
  · intro c' hc'
    rw [hset.others c' hc', o.others c' hc']
  · obtain ⟨p, p', hp, hp', hsame, -⟩ := o.slots
    obtain ⟨q, q', hq, hq', hget⟩ := hset.slot
    obtain rfl := Option.some.inj (hp'.symm.trans hq)
    refine ⟨p, q', hp, hq', ?_, ?_⟩
    · intro j hj
      rw [hget, if_neg hj, hsame j hj]
    · intro j hj
      rw [hget, if_pos hj]

/-- The value that `_open` returns with the state it leaves. -/
def Opened (k : Kernel) (c fd : Nat) (r : Int × Kernel) : Prop :=
  (r.1 < 0 ∧ Opening k r.2 c fd false) ∨ (r.1 = fd ∧ Opening k r.2 c fd true)

private theorem finishOpen_meets (o : Opening k k' c fd false) (hfd : fd < MAX_LOCAL_FD) (hg : g < MAX_FD)
    (flags : UInt32) :
    Meets Fault.Elsewhere (Opened k c fd) (k'.finishOpen c fd g flags) := by
  unfold finishOpen
  split
  · left
    refine ⟨?_, o⟩
    show -EEXIST < 0
    decide
  · extract_lets store
    have hstore : ∀ k'', Opening k k'' c fd false → Meets Fault.Elsewhere (Opened k c fd) (store k'') := by
      intro k'' o'
      dsimp only [store]
      rw [global_eq hg]
      apply Meets.ok_bind
      rw [modifyGlobal_eq hg]
      apply Meets.ok_bind
      have o'' := o'.set hg { k''.globalFdTable.get ⟨g, hg⟩ with
        isUsed := true
        isDir := (k''.globalFdTable.get ⟨g, hg⟩).file.fileEntry.isDirectory } k''.volume fun _ => rfl
      refine Meets.bind (o''.setSlot hfd ?_) ?_
      · intro _
        refine ⟨g, rfl, ?_⟩
        rw [inUse_set hg _ k''.volume, if_pos rfl]
      · intro k₃ o₃
        right
        exact ⟨rfl, o₃⟩
    clear_value store
    split
    · have htruncate : Meets Fault.Elsewhere (fun k'' => Opening k k'' c fd false) (k'.truncateOpened g) := by
        unfold truncateOpened
        rw [global_eq hg]
        apply Meets.ok_bind
        refine (meets_fileSystem _).bind ?_
        intro ⟨ret, file, volume⟩ _
        dsimp only
        rw [modifyGlobal_eq hg]
        apply Meets.ok_bind
        apply o.set hg
        intro hused
        show (k'.globalFdTable.get ⟨g, hg⟩).isUsed = true
        rw [inUse_get]
        exact hused
      exact htruncate.bind hstore
    · exact (hstore k' o).ok_bind

/-- `_open` has an entry to use: one for the path, or an unused one. -/
def HasEntry (k : Kernel) (fullPath : List UInt8) : Prop := k.getOpenedFd fullPath ≠ none ∨ k.unusedGlobal ≠ none

theorem inUse_getOpenedFd {path : List UInt8} (h : k.getOpenedFd path = some g) : k.inUse g = true := by
  unfold getOpenedFd at h
  obtain ⟨i, hi, rfl⟩ := Option.map_eq_some_iff.1 h
  have hused := (findFinIdx?_eq_some_iff.1 hi).1
  rw [Bool.and_eq_true] at hused
  rw [← inUse_get i.isLt]
  exact hused.1

private theorem openSlot_meets (o : Opening k k c fd false) (hfd : fd < MAX_LOCAL_FD) {fullPath : List UInt8}
    (hentry : k.HasEntry fullPath) (stale : Nat → ByteMem) (flags : UInt32) :
    Meets Fault.Elsewhere (Opened k c fd) (openSlot stale k c fd fullPath flags) := by
  unfold openSlot
  split
  · rename_i hnone
    obtain ⟨i, hi⟩ := Option.ne_none_iff_exists'.1 (hentry.resolve_left fun h => h hnone)
    have hunused : k.inUse i.val = false := by
      rw [← inUse_get i.isLt]
      exact (unusedGlobal_eq_some_iff.1 hi).1
    unfold allocateGlobalFd
    rw [hi]
    dsimp only
    have o₁ := o.set i.isLt
      { GlobalFd.zero with path := fullPath.take (pathSize - 1), read := some .fatFs, refCount := 1 } k.volume
      fun h => by rw [hunused] at h; cases h
    refine Meets.bind (o₁.setSlot hfd fun h => by cases h) ?_
    intro k₂ o₂
    refine (meets_fileSystem _).bind ?_
    intro ⟨file, volume⟩ _
    have o₃ := o₂.volume volume
    dsimp only
    split
    · left
      refine ⟨?_, o₃⟩
      show -ENOENT < 0
      decide
    · rename_i file _
      rw [modifyGlobal_eq i.isLt]
      apply Meets.ok_bind
      refine finishOpen_meets (o₃.set i.isLt _ volume ?_) hfd i.isLt flags
      intro hused
      show ((k₂.globalFdTable.get ⟨i.val, i.isLt⟩)).isUsed = true
      rw [inUse_get]
      exact hused
  · rename_i g hg
    have hguse := inUse_getOpenedFd hg
    have hlt := lt_of_inUse hguse
    refine (o.setSlot hfd fun h => by cases h).bind ?_
    intro k₁ o₁
    rw [global_eq hlt]
    apply Meets.ok_bind
    split
    · left
      refine ⟨?_, o₁⟩
      show -EISDIR < 0
      decide
    split
    · left
      refine ⟨?_, o₁⟩
      show -ENOTDIR < 0
      decide
    · rw [modifyGlobal_eq hlt]
      apply Meets.ok_bind
      refine finishOpen_meets (o₁.set hlt _ k₁.volume ?_) hfd hlt flags
      intro hused
      show (k₁.globalFdTable.get ⟨g, hlt⟩).isUsed = true
      rw [inUse_get]
      exact hused

/-- What the caller of `_open` needs: a slot that is not used, and an entry of the table. -/
def SoundOpen (k : Kernel) (path : List UInt8) : Prop :=
  ∀ c p fullPath, k.manager.currentProcess = some c → k.manager.proc c = some p →
    openPath p.cwd path = .ok fullPath → fullPath ≠ [] →
    (∃ fd, (p.fdTable.get fd).isUsed = false) ∧ k.HasEntry fullPath

/-- `_open` returns the lowest unused slot or an error, and no other slot of any process changes. -/
def OpensLowest (k : Kernel) (r : Int × Kernel) : Prop :=
  (r.1 < 0 ∧ r.2 = k) ∨
    ∃ c p fd, k.manager.currentProcess = some c ∧ k.manager.proc c = some p ∧ LowestUnused p.fdTable fd ∧
      Opened k c fd r

private theorem openPath_meets (cwd path : List UInt8) :
    Meets Fault.Elsewhere (fun fullPath => openPath cwd path = .ok fullPath) (openPath cwd path) := by
  apply Meets.self
  intro f hf
  unfold openPath at hf
  split at hf
  · cases hf
  · exact (meets_fileSystem _).error hf

private theorem sysOpen_meets (h : WellFormed k) {path : List UInt8} (hopen : SoundOpen k path) (stale : Nat → ByteMem)
    (flags : UInt32) : Meets Fault.Elsewhere (OpensLowest k) (sysOpen stale k path flags) := by
  unfold sysOpen
  split
  · left
    refine ⟨?_, rfl⟩
    show -ESRCH < 0
    decide
  · rename_i c hc
    refine (meets_process _).bind ?_
    intro p hp
    refine (openPath_meets p.cwd path).bind ?_
    intro fullPath hpath
    split
    · left
      refine ⟨?_, rfl⟩
      show -ENOMEM < 0
      decide
    · rename_i hne
      obtain ⟨hslot, hentry⟩ := hopen c p fullPath hc hp hpath hne
      obtain ⟨fd, hfd⟩ := exists_lowestUnused hslot
      obtain ⟨⟨hlt, hunused⟩, -⟩ := id hfd
      have hmax : fd < 0 + MAX_FD := by
        have : MAX_LOCAL_FD ≤ MAX_FD := by decide
        omega
      rw [unusedSlot_eq hfd (Nat.zero_le fd) hmax]
      apply Meets.ok_bind
      have o : Opening k k c fd false := by
        refine ⟨h, fun _ _ => rfl, p, p, hp, hp, fun _ _ => rfl, ?_⟩
        intro j hj
        have hjfd : j = ⟨fd, hlt⟩ := Fin.ext hj
        rw [hjfd, hunused]
      apply (openSlot_meets o hlt hentry stale flags).mono
      intro r hr
      right
      exact ⟨c, p, fd, hc, hp, hfd, hr⟩

private theorem OpensLowest.wellFormed {r : Int × Kernel} (h : WellFormed k) (hr : OpensLowest k r) :
    WellFormed r.2 := by
  obtain ⟨-, heq⟩ | ⟨c, p, fd, -, -, -, ⟨-, o⟩ | ⟨-, o⟩⟩ := hr
  · rw [heq]
    exact h
  · exact o.wellFormed
  · exact o.wellFormed

/-! ### Calls on a path -/

private theorem cwd_meets (k : Kernel) : Meets Fault.Elsewhere (fun _ => True) k.cwd := by
  unfold cwd
  refine (meets_process _).bind ?_
  intro c _
  refine (meets_process _).bind ?_
  intro p _
  trivial

private theorem zeroedPath_meets (k : Kernel) (path : List UInt8) :
    Meets Fault.Elsewhere (fun _ => True) (k.zeroedPath path) := by
  unfold zeroedPath
  split
  · split
    · trivial
    · exact Or.inr rfl
  · refine (cwd_meets k).bind ?_
    intro cwd _
    exact (meets_fileSystem _).mono fun _ _ => trivial

private theorem stackPath_meets (stale : ByteMem) (k : Kernel) (path : List UInt8) :
    Meets Fault.Elsewhere (fun _ => True) (k.stackPath stale path) := by
  unfold stackPath
  split
  · exact (meets_fileSystem _).mono fun _ _ => trivial
  · refine (cwd_meets k).bind ?_
    intro cwd _
    exact (meets_fileSystem _).mono fun _ _ => trivial

private theorem sysTruncate_meets (h : WellFormed k) (stale : Nat → ByteMem) (path : List UInt8) (length : UInt32) :
    Meets Fault.Elsewhere (fun r => WellFormed r.2) (sysTruncate stale k path length) := by
  unfold sysTruncate
  refine (zeroedPath_meets k path).bind ?_
  intro fullPath _
  refine (meets_fileSystem _).bind ?_
  intro found _
  split
  · exact h
  · refine (meets_fileSystem _).bind ?_
    intro ⟨ret, file, volume⟩ _
    exact h.volume volume

private theorem sysMkdir_meets (h : WellFormed k) (stale : Nat → ByteMem) (path : List UInt8) :
    Meets Fault.Elsewhere (fun r => WellFormed r.2) (sysMkdir stale k path) := by
  unfold sysMkdir
  refine (stackPath_meets (stale 0) k path).bind ?_
  intro newPath _
  refine (meets_fileSystem _).bind ?_
  intro ⟨ret, volume⟩ _
  exact h.volume volume

private theorem sysUnlink_meets (h : WellFormed k) (stale : Nat → ByteMem) (path : List UInt8) :
    Meets Fault.Elsewhere (fun r => WellFormed r.2) (sysUnlink stale k path) := by
  unfold sysUnlink
  refine (zeroedPath_meets k path).bind ?_
  intro fullPath _
  refine (meets_fileSystem _).bind ?_
  intro found _
  split
  · exact h
  · split
    · exact h
    · refine (meets_fileSystem _).bind ?_
      intro ⟨ret, volume⟩ _
      exact h.volume volume

private theorem sysRename_meets (h : WellFormed k) (stale : Nat → ByteMem) (oldPath newPath : List UInt8) :
    Meets Fault.Elsewhere (fun r => WellFormed r.2) (sysRename stale k oldPath newPath) := by
  unfold sysRename
  refine (stackPath_meets (stale 0) k oldPath).bind ?_
  intro fullOldPath _
  refine (cwd_meets k).bind ?_
  intro cwd _
  refine (meets_fileSystem _).bind ?_
  intro fullNewPath _
  unfold renameSimplified
  refine (meets_fileSystem _).bind ?_
  intro oldDir _
  refine (meets_fileSystem _).bind ?_
  intro newDir _
  split
  · exact h
  · refine (meets_fileSystem _).bind ?_
    intro newName _
    refine (meets_fileSystem _).bind ?_
    intro ⟨ret, volume⟩ _
    have h' := h.volume volume
    dsimp only
    split
    · exact h'
    · split
      · exact h'
      · rename_i g hg
        refine Meets.bind (h'.modifyGlobal (inUse_getOpenedFd hg) fun x hx => ?_) ?_
        · exact hx
        · intro k' ⟨h'', _⟩
          exact h''

/-! ### Runs -/

/-- The calls that stay within the tables. -/
def SoundCall (k : Kernel) : Syscall → Prop
  | .open _ path _ => SoundOpen k path
  | .close fd => SoundClose k fd
  | .read fd _ => SoundRead k fd
  | .write fd _ => InTable fd
  | .lseek fd _ _ => InTable fd
  | .fstat fd => InTable fd
  | .ftruncate fd _ => InTable fd
  | .truncate _ _ _ => True
  | .mkdir _ _ => True
  | .unlink _ _ => True
  | .rename _ _ _ => True

/-- A sound call, or an entry to the process manager that makes no process of memory with an old descriptor. -/
def Sound (k : Kernel) : Event → Prop
  | .manager e => ∀ a stale, e.creates = some (a, stale) → NoneBeyondStdio stale.fdTable
  | .syscall c => SoundCall k c

private theorem perform_meets (h : WellFormed k) {call : Syscall} (hcall : SoundCall k call) :
    Meets Fault.Elsewhere (fun r => WellFormed r.2) (k.perform call) := by
  cases call with
  | «open» stale path flags =>
    exact (sysOpen_meets h hcall stale flags).map fun r hr => hr.wellFormed h
  | close fd => exact (sysClose_meets h hcall).map fun _ hr => hr
  | read fd count => exact (sysRead_meets h hcall count).map fun _ hr => hr
  | write fd buf => exact (sysWrite_meets h hcall buf).map fun _ hr => hr
  | lseek fd offset whence => exact (sysLseek_meets h hcall offset whence).map fun _ hr => hr
  | fstat fd => exact (sysFstat_meets h hcall).map fun _ _ => h
  | ftruncate fd length => exact (sysFtruncate_meets h hcall length).map fun _ hr => hr
  | truncate stale path length => exact (sysTruncate_meets h stale path length).map fun _ hr => hr
  | mkdir stale path => exact (sysMkdir_meets h stale path).map fun _ hr => hr
  | unlink stale path => exact (sysUnlink_meets h stale path).map fun _ hr => hr
  | rename stale oldPath newPath => exact (sysRename_meets h stale oldPath newPath).map fun _ hr => hr

theorem WellFormed.exec (h : WellFormed k) {e : Event} (he : Sound k e) (hk : k.exec e = some k') : WellFormed k' := by
  obtain ⟨e', m, o, rfl, hm, rfl⟩ | ⟨call, r, rfl, -, hr⟩ := exec_eq hk
  · cases hcreates : e'.creates with
    | none => exact h.keeps (Proc.step_keeps hm hcreates)
    | some new =>
      obtain ⟨p, hp, hadds⟩ := Proc.step_adds hm hcreates
      exact h.adds hp hadds (he _ _ hcreates)
  · exact (perform_meets h he).value hr

theorem boot_wellFormed {k₀ : Kernel} (h : boot v = .ok k₀) : WellFormed k₀ := by
  rw [boot_eq] at h
  cases h
  have hto : ∀ g, 3 ≤ g → g < 6 →
      (⟨Manager.boot, Vector.ofFn fun g => bootEntry g, v⟩ : Kernel).ToUsed (some g) := by
    intro g hge hlt
    refine ⟨g, rfl, inUse_iff.2 ⟨bootEntry g, ?_, ?_⟩⟩
    · show (Vector.ofFn fun g : Fin MAX_FD => bootEntry g)[g]? = _
      rw [Vector.getElem?_ofFn, dif_pos (hlt.trans (by decide))]
    · interval_cases g <;> rfl
  have hactive : Manager.boot.activeTerminal = some ⟨1, false, some 3, some 4, some 5⟩ := rfl
  refine ⟨?_, _, hactive, rfl, ?_, ?_, ?_⟩
  · intro c p fd hp
    cases hp
  · exact hto 3 (by decide) (by decide)
  · exact hto 4 (by decide) (by decide)
  · exact hto 5 (by decide) (by decide)

/-- Along a run of sound steps from boot the tables are well-formed; a sound call has no access outside them and calls
no missing handler, and `_open` takes the lowest unused slot. -/
theorem tables_wellFormed {k₀ : Kernel} {es : List Event} (h₀ : boot v = .ok k₀)
    (hrun : Machine.Run Kernel.exec Sound k₀ es k) :
    WellFormed k ∧
      (∀ call f, SoundCall k call → k.perform call = .error f → f = .process ∨ f = .fileSystem) ∧
      ∀ stale path flags r, SoundOpen k path → sysOpen stale k path flags = .ok r → OpensLowest k r := by
  have h : WellFormed k := hrun.inv (fun k e k' hk he hstep => hk.exec he hstep) (boot_wellFormed h₀)
  refine ⟨h, ?_, ?_⟩
  · intro call f hcall hf
    exact (perform_meets h hcall).error hf
  · intro stale path flags r hopen hr
    exact (sysOpen_meets h hopen stale flags).value hr

/-- `kmain` creates the first process, and a timer interrupt switches to it. -/
def startup : List Event := [.manager (.create (.created 10 .zero)), .manager .enableProcesses, .manager .tick]

/-- Where the first process closes descriptor 200, `_close` reads `fd_table[200]`. -/
theorem close_beyond_table : ∃ k₀ k, boot blankVolume = .ok k₀ ∧
    Machine.Run Kernel.exec (fun _ _ => True) k₀ startup k ∧ k.manager.currentProcess = some 10 ∧
    k.perform (.close 200) = .error (.fdTable 200) := by
  have hrun : ((startup.foldlM Kernel.exec ⟨Manager.boot, Vector.ofFn fun g => bootEntry g, blankVolume⟩).map fun k =>
      (k.manager.currentProcess, match k.perform (.close 200) with | .error f => some f | .ok _ => none)) =
      some (some 10, some (.fdTable 200)) := rfl
  obtain ⟨k, hk, heq⟩ := Option.map_eq_some_iff.1 hrun
  obtain ⟨hcurrent, hclose⟩ := Prod.mk.inj heq
  refine ⟨_, k, boot_eq blankVolume, Machine.run_iff_foldlM.2 hk, hcurrent, ?_⟩
  cases hperform : k.perform (.close 200) with
  | error f =>
    rw [hperform] at hclose
    rw [Option.some.inj hclose]
  | ok r =>
    rw [hperform] at hclose
    cases hclose

/-- The first process creates `/a` and moves in it. -/
def creates : List Event :=
  [.syscall (.open (fun _ _ => 0) [Fat.slash, 0x61] O_CREAT), .syscall (.lseek 3 2 .cur)]

/-- No process of the startup is made of used memory. -/
private theorem startup_sound : ∀ k, ∀ e ∈ startup, True → Sound k e := by
  have hzero : NoneBeyondStdio Process.zero.fdTable := by
    intro fd _
    simp [Process.zero, FileDescriptor.zero, Vector.get_eq_getElem]
  intro k e he _
  simp only [startup, List.mem_cons, List.not_mem_nil, or_false] at he
  obtain rfl | rfl | rfl := he
  · intro a stale hcreates
    obtain ⟨-, rfl⟩ := Prod.mk.inj (Option.some.inj hcreates)
    exact hzero
  · intro a stale hcreates
    cases hcreates
  · intro a stale hcreates
    cases hcreates

theorem tables_wellFormed_creates : ∃ k₀ k, boot blankVolume = .ok k₀ ∧
    Machine.Run Kernel.exec Sound k₀ (startup ++ creates) k ∧
    (k.manager.proc 10).map (fun p => p.fdTable[3]?.map fun d => (d.isUsed, d.offset)) = some (some (true, 2)) ∧
    WellFormed k := by
  have hrun : ((startup.foldlM Kernel.exec ⟨Manager.boot, Vector.ofFn fun g => bootEntry g, blankVolume⟩).bind fun k₁ =>
      (creates.foldlM Kernel.exec k₁).map fun k =>
        ((k₁.manager.currentProcess, k₁.unusedGlobal.isSome),
          (k₁.manager.proc 10).map fun p => p.fdTable[3]?.map FileDescriptor.isUsed,
          (k.manager.proc 10).map fun p => p.fdTable[3]?.map fun d => (d.isUsed, d.offset))) =
      some ((some 10, true), some (some false), some (some (true, 2))) := by
    decide +kernel
  obtain ⟨k₁, hk₁, hrun⟩ := Option.bind_eq_some_iff.1 hrun
  obtain ⟨k, hk, hrun⟩ := Option.map_eq_some_iff.1 hrun
  simp only [Prod.mk.injEq] at hrun
  obtain ⟨⟨hcurrent, hunused⟩, hslot, hopened⟩ := hrun
  have hstart := (Machine.run_iff_foldlM.2 hk₁).mono_mem startup_sound
  have hopen : SoundOpen k₁ [Fat.slash, 0x61] := by
    intro c p fullPath hc hp _ _
    rw [hcurrent, Option.some.injEq] at hc
    subst hc
    rw [hp, Option.map_some, Option.some.injEq] at hslot
    obtain ⟨d, hd, hfree⟩ := Option.map_eq_some_iff.1 hslot
    obtain ⟨h, rfl⟩ := Vector.getElem?_eq_some_iff.1 hd
    exact ⟨⟨⟨3, h⟩, hfree⟩, .inr (Option.isSome_iff_ne_none.1 hunused)⟩
  have hcreates : Machine.Run Kernel.exec (fun _ _ => True) k₁ creates k := Machine.run_iff_foldlM.2 hk
  have hsound : Machine.Run Kernel.exec Sound k₁ creates k := by
    unfold creates at hcreates ⊢
    cases hcreates with
    | cons _ hstep hrest =>
      refine .cons hopen hstep (hrest.mono_mem ?_)
      intro k' e he _
      rw [List.mem_singleton.1 he]
      show ¬ (MAX_LOCAL_FD ≤ (3 : Int) ∧ (3 : Int) < MAX_FD)
      decide
  have hall := hstart.append hsound
  exact ⟨_, k, boot_eq blankVolume, hall, hopened, (tables_wellFormed (boot_eq blankVolume) hall).1⟩

end Kernel

end DBolOS.Vfs
