import DBolOS.Fat.Calls
import DBolOS.Vfs.Opening
import DBolOS.Vfs.Slots

/-!
# Access modes

What `_read` and `_write` make of the mode that a descriptor was opened with.  `O_RDONLY` is zero, so that no flags
have it, and `_read` tests for no other mode: the mode is enforced on the descriptors of directories and on those that
`_write` never serves, and on no other (`enforced_iff`).
-/

namespace DBolOS.Vfs

open Failing
open Fat (DirEntry Volume)
open Proc (Process FileDescriptor Manager MAX_LOCAL_FD)

def O_WRONLY : UInt32 := 0x0001
def O_RDWR : UInt32 := 0x0002

/-- The access mode: the low two bits of the flags. -/
def accessMode (flags : UInt32) : UInt32 := flags &&& 3

theorem hasFlag_rdonly (flags : UInt32) : hasFlag flags O_RDONLY = false := by simp [hasFlag, O_RDONLY]

namespace Kernel

variable {k k' t t' : Kernel} {c fd : Nat} {d : FileDescriptor} {flags : UInt32}

/-- `_write` returns a negative error, and the volume, the records of the open file and the offset stay as they are. -/
def RefusesWrite (k : Kernel) (c fd : Nat) (buf : List UInt8) : Prop :=
  ∃ ret k', k.sysWrite fd buf = .ok (ret, k') ∧ ret < 0 ∧ k'.volume = k.volume ∧
    k'.globalFdTable = k.globalFdTable ∧
    (k'.slotAt c fd).map FileDescriptor.offset = (k.slotAt c fd).map FileDescriptor.offset

/-- `_read` returns a negative error and changes nothing. -/
def RefusesRead (k : Kernel) (fd : Nat) (count : UInt32) : Prop :=
  ∃ ret, k.sysRead fd count = .ok (some (ret, []), k) ∧ ret < 0

/-- What the mode of descriptor `fd` promises. -/
structure Enforced (k : Kernel) (c fd : Nat) (flags : UInt32) : Prop where
  rdonly : accessMode flags = O_RDONLY → ∀ buf, RefusesWrite k c fd buf
  wronly : accessMode flags = O_WRONLY → ∀ count, RefusesRead k fd count
  readable : accessMode flags = O_RDONLY ∨ accessMode flags = O_RDWR →
    ∀ count bytes, k.sysRead fd count ≠ .ok (some (-EPERM, bytes), k)

theorem slotAt_lt (hd : k.slotAt c fd = some d) : fd < MAX_LOCAL_FD := by
  obtain ⟨p, -, hslot⟩ := Option.bind_eq_some_iff.1 hd
  exact (Vector.getElem?_eq_some_iff.1 hslot).1

/-- The checks let a used slot through. -/
theorem usedSlot_eq {refused : List Int} (hc : k.manager.currentProcess = some c) (hd : k.slotAt c fd = some d)
    (hused : d.isUsed = true) (hrefused : (fd : Int) ∉ refused) : k.usedSlot refused fd = .ok (.ok (c, d)) := by
  have hlt := slotAt_lt hd
  obtain ⟨p, hp, hslot⟩ := Option.bind_eq_some_iff.1 hd
  have hpass : ¬((fd : Int) ∈ refused ∨ (fd : Int) < 0 ∨ (MAX_FD : Int) ≤ fd) := by
    have hmax : MAX_LOCAL_FD ≤ MAX_FD := by decide
    simp only [hrefused, false_or]
    omega
  have hprocess : k.process c = .ok p := Fault.of_eq_ok.2 hp
  have hslotOf : slotOf p.fdTable (fd : Int).toNat = .ok d := Fault.of_eq_ok.2 hslot
  unfold usedSlot
  simp only [hc, if_neg hpass, hprocess, bind, Except.bind, hslotOf, hused, if_true]

/-- The store of a descriptor into its slot. -/
theorem setSlot_eq (hd : k.slotAt c fd = some d) (d' : FileDescriptor) :
    ∃ k', k.setSlot c fd d' = .ok k' ∧ k'.slotAt c fd = some d' ∧ Touches k k' c fd ∧
      k'.globalFdTable = k.globalFdTable ∧ k'.volume = k.volume ∧
      k'.manager.currentProcess = k.manager.currentProcess := by
  have hlt := slotAt_lt hd
  obtain ⟨p, hp, -⟩ := Option.bind_eq_some_iff.1 hd
  have hproc := hp
  rw [Manager.proc, Option.map_eq_some_iff] at hproc
  obtain ⟨n, hn, -⟩ := hproc
  obtain ⟨k', hk'⟩ : ∃ k', k.setSlot c fd d' = .ok k' := by
    unfold setSlot
    rw [dif_pos hlt]
    simp only [Manager.modifyProc, Manager.modify, hn]
    exact ⟨_, rfl⟩
  exact ⟨k', hk', (setSlot_touches k c fd d').value hk'⟩

theorem fatRead_ret {v : Volume} {file : DirEntry} {offset size : Nat} {ret : Int} {bytes : List UInt8}
    (h : v.fatRead file offset size = some (ret, bytes)) : -2 ^ 31 ≤ ret ∧ ret < 2 ^ 31 := by
  unfold Fat.Volume.fatRead at h
  split at h
  · cases h
    norm_num
  split at h
  · cases h
    norm_num
  dsimp only at h
  split at h
  · cases h
  obtain ⟨seek, -, h⟩ := Option.bind_eq_some_iff.1 h
  split at h
  · cases h
    norm_num
  · obtain ⟨read, -, h⟩ := Option.bind_eq_some_iff.1 h
    obtain ⟨rfl, -⟩ := Prod.mk.inj (Option.some.inj h)
    have hle := @Int.le_bmod read.length (2 ^ 32) (by decide)
    have hlt := @Int.bmod_lt read.length (2 ^ 32) (by decide)
    omega

theorem toNat_ofInt_ne_zero {ret : Int} (hle : -2 ^ 31 ≤ ret) (hneg : ret < 0) : UInt32.ofInt ret ≠ 0 := by
  intro hzero
  have hnat := congrArg UInt32.toNat hzero
  rw [UInt32.ofInt, UInt32.toNat_ofNat'] at hnat
  simp only [UInt32.toNat_zero] at hnat
  omega

/-- An error of `_read` that leaves the kernel as it was is that of a directory. -/
private theorem sysRead_unchanged (hc : k.manager.currentProcess = some c) (hd : k.slotAt c fd = some d)
    (hused : d.isUsed = true) (hglobal : d.globalFd ≠ none) (count : UInt32) :
    Meets Any (fun r => ∀ ret bytes, r = (some (ret, bytes), k) →
      0 ≤ ret ∨ (ret = -EISDIR ∧ hasFlag d.flags O_DIRECTORY = true)) (k.sysRead fd count) := by
  unfold sysRead
  rw [usedSlot_eq hc hd hused (by simp)]
  apply Meets.ok_bind
  dsimp only
  split
  · rename_i hdir
    rintro ret bytes ⟨⟩
    exact Or.inr ⟨rfl, hdir⟩
  simp only [hasFlag_rdonly, Bool.false_eq_true, if_false]
  refine (meets_eq _).bind ?_
  intro ⟨g, x⟩ _
  dsimp only
  split
  · trivial
  · refine (meets_eq _).bind ?_
    intro ⟨m, o⟩ _ ret bytes h
    cases h
  · refine (meets_eq _).bind ?_
    intro ⟨ret, bytes⟩ hread
    refine (setSlot_touches k c _ _).bind ?_
    rintro k' ⟨hslot, -⟩ ret' bytes' heq
    obtain ⟨hle, -⟩ := fatRead_ret (Fault.of_eq_ok.1 hread)
    obtain ⟨hret, hk⟩ := Prod.mk.inj heq
    obtain ⟨rfl, rfl⟩ : ret = ret' ∧ bytes = bytes' := by simpa using hret
    left
    by_contra hneg
    dsimp only at hk hslot
    rw [hk, Int.toNat_natCast, hd, Option.some.injEq] at hslot
    have hoffset := congrArg FileDescriptor.offset hslot
    exact toNat_ofInt_ne_zero hle (by omega) (by simpa using hoffset)

private theorem refusesRead_of_directory (hc : k.manager.currentProcess = some c) (hd : k.slotAt c fd = some d)
    (hused : d.isUsed = true) (hdir : hasFlag d.flags O_DIRECTORY = true) (count : UInt32) : RefusesRead k fd count := by
  refine ⟨-EISDIR, ?_, by decide⟩
  unfold sysRead
  rw [usedSlot_eq hc hd hused (by simp)]
  show (if hasFlag d.flags O_DIRECTORY = true then _ else _) = _
  rw [if_pos hdir]

/-- The descriptors on which `_write` returns an error: those of directories, but for descriptor 1, and 0 and 2. -/
def Unwritable (d : FileDescriptor) (fd : Nat) : Prop :=
  (hasFlag d.flags O_DIRECTORY = true ∧ fd ≠ 1) ∨ fd = 0 ∨ fd = 2

private theorem refusesWrite_of_unwritable (hc : k.manager.currentProcess = some c) (hd : k.slotAt c fd = some d)
    (hused : d.isUsed = true) (h : Unwritable d fd) (buf : List UInt8) : RefusesWrite k c fd buf := by
  unfold Unwritable at h
  have hone : ¬(k.manager.currentProcess ≠ none ∧ (fd : Int) = 1) := by omega
  by_cases hrefused : (fd : Int) ∈ [(0 : Int), 2]
  · refine ⟨-EBADF, k, ?_, by decide, rfl, rfl, rfl⟩
    have hslot : k.usedSlot [0, 2] fd = .ok (.error (-EBADF)) := by
      unfold usedSlot
      simp only [hc, hrefused, true_or, if_true]
    unfold sysWrite
    rw [if_neg hone, hslot]
    rfl
  · have hdir : hasFlag d.flags O_DIRECTORY = true := by
      simp only [List.mem_cons, List.not_mem_nil, or_false, not_or] at hrefused
      obtain ⟨hdir, -⟩ | hzero | htwo := h
      · exact hdir
      · omega
      · omega
    refine ⟨-EISDIR, k, ?_, by decide, rfl, rfl, rfl⟩
    unfold sysWrite
    rw [if_neg hone, usedSlot_eq hc hd hused hrefused]
    show (if hasFlag d.flags O_DIRECTORY = true then _ else _) = _
    rw [if_pos hdir]

/-- On the others it has no negative result for no bytes. -/
private theorem sysWrite_nonneg (hc : k.manager.currentProcess = some c) (hd : k.slotAt c fd = some d)
    (hused : d.isUsed = true)
    (h : ¬Unwritable d fd) : Meets Any (fun r => 0 ≤ r.1) (k.sysWrite fd []) := by
  unfold Unwritable at h
  unfold sysWrite
  split
  · exact show (0 : Int) ≤ Int.bmod 0 (2 ^ 32) by decide
  · rename_i hone
    have hone' : fd ≠ 1 := by
      rintro rfl
      exact hone ⟨by rw [hc]; exact Option.some_ne_none c, rfl⟩
    have hdir : hasFlag d.flags O_DIRECTORY = false := by
      by_contra hdir
      exact h (Or.inl ⟨by simpa using hdir, hone'⟩)
    rw [usedSlot_eq hc hd hused (by simp; omega)]
    apply Meets.ok_bind
    simp only [hdir, hasFlag_rdonly, Bool.false_eq_true, if_false]
    refine (meets_eq _).bind ?_
    intro ⟨g, x⟩ _
    refine (meets_eq _).bind ?_
    intro ⟨ret, fileEntry, volume⟩ _
    dsimp only
    refine (meets_eq _).bind ?_
    intro k' _
    split
    · exact show 0 ≤ EAGAIN by decide
    · rename_i hret
      refine (meets_eq _).bind ?_
      intro k'' _
      exact not_lt.1 hret

/-- The mode is enforced on a used slot exactly when a read-only one is unwritable and a write-only one is a
directory's. -/
private theorem enforced_iff_slot (hc : k.manager.currentProcess = some c) (hd : k.slotAt c fd = some d)
    (hused : d.isUsed = true) (hglobal : d.globalFd ≠ none) : Enforced k c fd flags ↔
      (accessMode flags = O_RDONLY → Unwritable d fd) ∧
        (accessMode flags = O_WRONLY → hasFlag d.flags O_DIRECTORY = true) := by
  constructor
  · intro ⟨hrdonly, hwronly, _⟩
    refine ⟨?_, ?_⟩
    · intro hmode
      by_contra hwritable
      obtain ⟨ret, k', hret, hneg, -⟩ := hrdonly hmode []
      exact absurd ((sysWrite_nonneg hc hd hused hwritable).value hret) (not_le.2 hneg)
    · intro hmode
      obtain ⟨ret, hret, hneg⟩ := hwronly hmode 0
      obtain hpos | ⟨-, hdir⟩ := (sysRead_unchanged hc hd hused hglobal 0).value hret ret [] rfl
      · exact absurd hpos (not_le.2 hneg)
      · exact hdir
  · intro ⟨hrdonly, hwronly⟩
    refine ⟨?_, ?_, ?_⟩
    · intro hmode buf
      exact refusesWrite_of_unwritable hc hd hused (hrdonly hmode) buf
    · intro hmode count
      exact refusesRead_of_directory hc hd hused (hwronly hmode) count
    · intro _ count bytes h
      obtain hpos | ⟨heq, -⟩ := (sysRead_unchanged hc hd hused hglobal count).value h (-EPERM) bytes rfl
      · exact absurd hpos (by decide)
      · exact absurd heq (by decide)

private theorem exists_of_reading {r : Bool} (h : k.manager.reading = some (c, r)) :
    ∃ p, k.manager.proc c = some p ∧ k.manager.currentProcess = some c := by
  obtain ⟨c', hc', hproc⟩ := Option.bind_eq_some_iff.1 h
  obtain ⟨p, hp, heq⟩ := Option.bind_eq_some_iff.1 hproc
  obtain ⟨rfl, -⟩ := Prod.mk.inj (Option.some.inj heq)
  exact ⟨p, hp, hc'⟩

/-- A process opens a file with `flags` and gets `fd`; in every later state in which it runs and has not closed `fd`,
the mode is enforced exactly when the slot is one of the refused ones. -/
theorem enforced_iff {post : List Event} {stale : Nat → ByteMem} {path : List UInt8}
    (hcaller : t.manager.reading = some (c, false))
    (hopen : t.perform (.open stale path flags) = .ok (some (fd : Int), t'))
    (hpost : Machine.Run exec (KeepsOpen c fd) t' post k) (hrunning : k.manager.reading = some (c, false)) :
    ∃ d, k.slotAt c fd = some d ∧ OpenedWith flags d ∧ (Enforced k c fd flags ↔
      (accessMode flags = O_RDONLY → Unwritable d fd) ∧
        (accessMode flags = O_WRONLY → hasFlag d.flags O_DIRECTORY = true)) := by
  obtain ⟨p, hp, hc⟩ := exists_of_reading hrunning
  obtain ⟨-, -, hct⟩ := exists_of_reading hcaller
  -- the slot that the call returned
  obtain ⟨d₀, hd₀, hused₀, hglobal₀, hflags₀⟩ : ∃ d₀, t'.slotAt c fd = some d₀ ∧ OpenedWith flags d₀ := by
    have h := ((sysOpen_opens stale t path flags).map (f := Prod.map some id) (R := fun r =>
      r.1 = some (fd : Int) → ∃ d₀, r.2.slotAt c fd = some d₀ ∧ OpenedWith flags d₀) ?_).value hopen rfl
    · exact h
    · rintro r (⟨hneg, -⟩ | ⟨c', i, d, hc', -, -, -, hneg | ⟨hfd, d', hd', hopened⟩⟩) heq
      · have : r.1 = fd := Option.some.inj heq
        omega
      · have : r.1 = fd := Option.some.inj heq
        omega
      · obtain rfl := Option.some.inj (hct.symm.trans hc')
        obtain rfl : i = fd := Int.natCast_inj.1 (hfd.symm.trans (Option.some.inj heq))
        exact ⟨d', hd', hopened⟩
  have hstays : StaysUsed t' c fd := by
    intro d hd
    obtain rfl := Option.some.inj (hd₀.symm.trans hd)
    exact hused₀
  have hlt : fd < MAX_LOCAL_FD := slotAt_lt hd₀
  have hd : k.slotAt c fd = some p.fdTable[fd] := by
    rw [slotAt, hp]
    exact Vector.getElem?_eq_getElem hlt
  obtain ⟨d, hd', hglobal, hflags, hused⟩ := stays_open hpost hstays _ hd
  obtain rfl := Option.some.inj (hd₀.symm.trans hd')
  rw [← hglobal] at hglobal₀
  rw [← hflags] at hflags₀
  rw [← hused] at hused₀
  exact ⟨_, hd, ⟨hused₀, hglobal₀, hflags₀⟩, enforced_iff_slot hc hd hused₀ hglobal₀⟩

theorem eq_ok_of_toOption {α : Type} {r : Except Fault α} {a : α} (h : r.toOption = some a) : r = .ok a := by
  cases r with
  | error f => cases h
  | ok b => rw [Option.some.inj h]

/-- The first process opens `/a` with `flags`. -/
private theorem open_file (flags : UInt32) (hflags : flags = O_RDONLY ∨ flags = O_RDWR) :
    ∃ v k₀ k k', boot v = .ok k₀ ∧ Machine.Run exec (fun _ _ => True) k₀ startup k ∧
      k.manager.reading = some (10, false) ∧
      k.perform (.open (fun _ _ => 0) [Fat.slash, 0x61] flags) = .ok (some ((3 : Nat) : Int), k') ∧
      k'.manager.reading = some (10, false) ∧
      ∃ d, k'.slotAt 10 3 = some d ∧ d.isUsed = true ∧ d.globalFd = some 6 ∧ d.flags = flags := by
  have hrun : ((Fat.fatInit (some fun _ => 0) Fat.twoClusterDisk).bind fun mounted => mounted.bind fun v =>
      (startup.foldlM exec ⟨Manager.boot, Vector.ofFn fun g => bootEntry g, v⟩).bind fun k =>
        (k.perform (.open (fun _ _ => 0) [Fat.slash, 0x61] flags)).toOption.bind fun r =>
          (r.2.slotAt 10 3).map fun d => decide (k.manager.reading = some (10, false) ∧ r.1 = some 3 ∧
            r.2.manager.reading = some (10, false) ∧ d.isUsed = true ∧ d.globalFd = some 6 ∧ d.flags = flags)) =
      some true := by
    obtain rfl | rfl := hflags
    · decide +kernel
    · decide +kernel
  simp only [Option.bind_eq_some_iff, Option.map_eq_some_iff, decide_eq_true_eq] at hrun
  obtain ⟨_, -, v, rfl, k, hk, ⟨r, k'⟩, hopen, d, hd, hreading, rfl, hreading', hused, hglobal, hflags'⟩ := hrun
  exact ⟨v, _, k, k', boot_eq v, Machine.run_iff_foldlM.2 hk, hreading, eq_ok_of_toOption hopen, hreading', d, hd, hused,
    hglobal, hflags'⟩

/-- The file `/a` opened for reading only is written. -/
theorem rdonly_not_enforced : ∃ v k₀ k k', boot v = .ok k₀ ∧ Machine.Run exec (fun _ _ => True) k₀ startup k ∧
    k.manager.reading = some (10, false) ∧
    k.perform (.open (fun _ _ => 0) [Fat.slash, 0x61] O_RDONLY) = .ok (some ((3 : Nat) : Int), k') ∧
    k'.manager.reading = some (10, false) ∧ ¬Enforced k' 10 3 O_RDONLY := by
  obtain ⟨v, k₀, k, k', h₀, hrun, hreading, hopen, hreading', d, hd, hused, hglobal, hflags⟩ :=
    open_file O_RDONLY (Or.inl rfl)
  refine ⟨v, k₀, k, k', h₀, hrun, hreading, hopen, hreading', ?_⟩
  obtain ⟨-, -, hc⟩ := exists_of_reading hreading'
  rw [enforced_iff_slot hc hd hused (by rw [hglobal]; exact Option.some_ne_none 6)]
  rintro ⟨hunwritable, -⟩
  obtain ⟨hdir, -⟩ | hzero | htwo := hunwritable rfl
  · rw [hflags] at hdir
    exact absurd hdir (by decide)
  · exact absurd hzero (by decide)
  · exact absurd htwo (by decide)

theorem enforced_iff_rdwr : ∃ v k₀ k k', boot v = .ok k₀ ∧ Machine.Run exec (fun _ _ => True) k₀ startup k ∧
    k.perform (.open (fun _ _ => 0) [Fat.slash, 0x61] O_RDWR) = .ok (some ((3 : Nat) : Int), k') ∧
    Enforced k' 10 3 O_RDWR := by
  obtain ⟨v, k₀, k, k', h₀, hrun, hreading, hopen, hreading', -⟩ := open_file O_RDWR (Or.inr rfl)
  obtain ⟨d, -, -, hiff⟩ := enforced_iff hreading hopen (Machine.Run.nil k') hreading'
  refine ⟨v, k₀, k, k', h₀, hrun, hopen, hiff.2 ⟨?_, ?_⟩⟩
  · intro hmode
    exact absurd hmode (by decide)
  · intro hmode
    exact absurd hmode (by decide)

end Kernel

end DBolOS.Vfs
