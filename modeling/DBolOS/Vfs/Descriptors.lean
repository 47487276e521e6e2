import DBolOS.Proc.Tables
import DBolOS.Vfs.Syscalls

/-!
# Accesses to the descriptor tables

What the searches of the table of open files find, what a store into an entry or a slot changes, and the table that
`boot` leaves (`boot_eq`).
-/

namespace DBolOS.Vfs

open Fat (Volume)
open Proc (Process FileDescriptor Manager Terminal MAX_LOCAL_FD)

/-- A search for the first index finds the least one. -/
theorem findFinIdx?_eq_some_iff {α : Type} {n : Nat} {xs : Vector α n} {p : α → Bool} {i : Fin n} :
    xs.findFinIdx? p = some i ↔ p (xs.get i) = true ∧ ∀ j < i, p (xs.get j) = false := by
  obtain ⟨xs, rfl⟩ := xs
  rw [Vector.findFinIdx?_mk]
  simp only [Fin.cast_refl, Option.map_id_fun, id_eq, Array.findFinIdx?_eq_some_iff, Vector.get_eq_getElem]
  constructor
  · intro ⟨hi, hlt⟩
    refine ⟨hi, ?_⟩
    intro j hj
    simpa using hlt j hj
  · intro ⟨hi, hlt⟩
    refine ⟨hi, ?_⟩
    intro j hj
    simpa using hlt j hj

/-- A used entry. -/
def GlobalFd.opened : GlobalFd := { GlobalFd.zero with isUsed := true }

def GlobalFd.device : GlobalFd := { GlobalFd.zero with refCount := 1, isDevice := true, isUsed := true }

/-- The table after `boot`: the entries that `proc_manager_init` marks used, and the three devices of the terminal. -/
def bootEntry (g : Nat) : GlobalFd :=
  if g < 3 then .opened
  else if g = 3 then { GlobalFd.device with read := some .terminalInput }
  else if g < 6 then .device
  else .zero

namespace Kernel

variable {k k' : Kernel} {c g fd : Nat}

/-! ### Entries -/

theorem unusedGlobal_eq_some_iff {g : Fin MAX_FD} : k.unusedGlobal = some g ↔
    (k.globalFdTable.get g).isUsed = false ∧ ∀ j < g, (k.globalFdTable.get j).isUsed = true := by
  unfold unusedGlobal
  rw [findFinIdx?_eq_some_iff]
  simp

/-! ### Steps -/

/-- A step is an entry to the process manager, or a call by the process that runs. -/
theorem exec_eq {e : Event} (hk : k.exec e = some k') :
    (∃ e' m o, e = .manager e' ∧ k.manager.step e' = some (m, o) ∧ k' = { k with manager := m }) ∨
      ∃ call r, e = .syscall call ∧ k.manager.reading ≠ none ∧ k.perform call = .ok (r, k') := by
  have htoOption : k.step e = .ok k' := by
    unfold exec at hk
    cases hstep : k.step e with
    | error f => simp [hstep, Except.toOption] at hk
    | ok k'' =>
      rw [hstep] at hk
      obtain rfl := Option.some.inj hk
      rfl
  cases e with
  | manager e =>
    left
    have hstep : (Fault.process.of (k.manager.step e) >>= fun r => .ok { k with manager := r.1 }) = .ok k' := by
      cases e with
      | read => cases htoOption
      | _ => exact htoOption
    cases hm : k.manager.step e with
    | none =>
      rw [hm] at hstep
      cases hstep
    | some r =>
      obtain ⟨m, o⟩ := r
      rw [hm] at hstep
      cases hstep
      exact ⟨e, m, o, rfl, hm, rfl⟩
  | syscall call =>
    right
    unfold step at htoOption
    dsimp only at htoOption
    split at htoOption
    · rename_i c hreading
      cases hperform : k.perform call with
      | error f =>
        rw [hperform] at htoOption
        cases htoOption
      | ok r =>
        rw [hperform] at htoOption
        obtain ⟨r, k''⟩ := r
        cases htoOption
        exact ⟨call, r, rfl, by rw [hreading]; simp, hperform⟩
    · cases htoOption

/-! ### Boot -/

/-- In a table whose first `n` entries are used and whose next one is not, the next one is allocated. -/
private theorem allocateDeviceFd_of {n : Nat} (hn : n < MAX_FD)
    (hused : ∀ g < n, k.globalFdTable[g]?.any GlobalFd.isUsed)
    (hfree : k.globalFdTable[n].isUsed = false) :
    k.allocateDeviceFd = (some n, { k with globalFdTable := k.globalFdTable.set n .device }) := by
  have hunused : k.unusedGlobal = some ⟨n, hn⟩ := by
    rw [unusedGlobal_eq_some_iff]
    refine ⟨hfree, ?_⟩
    intro j hj
    have h := hused j hj
    rw [Vector.getElem?_eq_getElem j.isLt] at h
    exact h
  unfold allocateDeviceFd
  rw [hunused]
  rfl

theorem boot_eq (v : Volume) : boot v = .ok ⟨Manager.boot, Vector.ofFn fun g => bootEntry g, v⟩ := by
  let zero : Vector GlobalFd MAX_FD := Vector.replicate MAX_FD .zero
  let init := ((zero.set 0 .opened (by decide)).set 1 .opened (by decide)).set 2 .opened (by decide)
  let k₀ : Kernel := { zeroed v with globalFdTable := init }
  let k₁ : Kernel := { k₀ with globalFdTable := init.set 3 .device (by decide) }
  let k₂ : Kernel := { k₁ with globalFdTable := k₁.globalFdTable.set 4 .device (by decide) }
  let k₃ : Kernel := { k₂ with globalFdTable := k₂.globalFdTable.set 5 .device (by decide) }
  have h₀ : (zeroed v).procManagerInit = .ok k₀ := rfl
  have h₁ : k₀.allocateDeviceFd = (some 3, k₁) := by
    refine allocateDeviceFd_of (by decide) ?_ rfl
    intro g hg
    interval_cases g <;> rfl
  have h₂ : k₁.allocateDeviceFd = (some 4, k₂) := by
    refine allocateDeviceFd_of (by decide) ?_ rfl
    intro g hg
    interval_cases g <;> rfl
  have h₃ : k₂.allocateDeviceFd = (some 5, k₃) := by
    refine allocateDeviceFd_of (by decide) ?_ rfl
    intro g hg
    interval_cases g <;> rfl
  have hfree : k₃.manager.terminals.findFinIdx? (·.id = 0) = some ⟨0, by decide⟩ := by
    rw [findFinIdx?_eq_some_iff]
    refine ⟨rfl, ?_⟩
    intro j hj
    exact absurd hj (Nat.not_lt_zero j.val)
  have hterminal : k₃.manager.createTerminal (some 3) (some 4) (some 5) =
      some ({ Manager.boot with activeTerminalId := 0 }, 1) := by
    unfold Manager.createTerminal
    rw [hfree]
    rfl
  let stdin : GlobalFd := { GlobalFd.device with read := some .terminalInput }
  let k₄ : Kernel := { k₃ with globalFdTable := k₃.globalFdTable.set 3 stdin (by decide) }
  have h₄ : createTerminal k₀ = .ok (1, { k₄ with manager := { Manager.boot with activeTerminalId := 0 } }) := by
    unfold createTerminal
    simp only [h₁, h₂, h₃]
    show (Fault.process.of (k₃.manager.createTerminal (some 3) (some 4) (some 5)) >>= fun p =>
      Except.ok (p.2, { k₄ with manager := p.1 })) = _
    rw [hterminal]
    rfl
  have htable : k₄.globalFdTable = Vector.ofFn fun g => bootEntry g := by
    refine Vector.ext fun g hg => ?_
    simp only [k₄, k₃, k₂, k₁, init, zero, Vector.getElem_set, Vector.getElem_replicate, Vector.getElem_ofFn]
    unfold bootEntry
    split_ifs <;> first | rfl | omega
  unfold boot
  rw [h₀]
  show (createTerminal k₀ >>= _) = _
  rw [h₄, ← htable]
  rfl

/-- A volume of one FAT sector with nothing on it. -/
def blankVolume : Volume where
  fs :=
    { bytesPerSector := 512
      sectorsPerCluster := 1
      reservedSectors := 1
      numFats := 1
      rootDirEntries := 16
      totalSectors := 64
      sectorsPerFat := 1
      bytesPerSector_pos := Fat.Fat16Fs.sector_pos
      bytesPerSector_lt := Fat.Fat16Fs.sector_lt
      sectorsPerCluster_lt := Fat.Fat16Fs.one_lt_byte
      reservedSectors_lt := Fat.Fat16Fs.one_lt_word
      numFats_lt := Fat.Fat16Fs.one_lt_byte
      rootDirEntries_lt := by decide
      totalSectors_lt := by decide
      sectorsPerFat_lt := Fat.Fat16Fs.one_lt_word }
  fatTable := List.replicate 256 0
  disk := fun _ => 0
  fatTable_length := List.length_replicate

end Kernel

end DBolOS.Vfs
