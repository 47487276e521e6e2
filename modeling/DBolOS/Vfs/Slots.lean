import DBolOS.Lib.Meets
import DBolOS.Lib.Run
import DBolOS.Vfs.Descriptors

/-!
# What the calls leave of the slots

No call but `_close` changes the file or the flags of a used slot, and `_open` stores to an unused one
(`sysOpen_opens`): a descriptor keeps its flags until it is closed (`stays_open`).
-/

namespace DBolOS.Vfs

open Failing
open Proc (Process FileDescriptor Manager MAX_LOCAL_FD)

theorem Fault.of_eq_ok {α : Type} {f : Fault} {x : Option α} {a : α} : f.of x = .ok a ↔ x = some a := by
  cases x with
  | none => simp [Fault.of]
  | some b => simp [Fault.of]

namespace Kernel

variable {k k' k'' : Kernel} {c c' g fd fd' i : Nat} {d d' : FileDescriptor} {v : Fat.Volume}

/-- Slot `fd` of process `c`. -/
def slotAt (k : Kernel) (c fd : Nat) : Option FileDescriptor := (k.manager.proc c).bind fun p => p.fdTable[fd]?

/-! ### What a call leaves of the slots -/

/-- The same open file with the same flags. -/
def SameOpen (d d' : FileDescriptor) : Prop :=
  d'.globalFd = d.globalFd ∧ d'.flags = d.flags ∧ d'.isUsed = d.isUsed

/-- What slot `fd` of process `c` is after a step, it was before. -/
def SameSlot (k k' : Kernel) (c fd : Nat) : Prop :=
  ∀ d', k'.slotAt c fd = some d' → ∃ d, k.slotAt c fd = some d ∧ SameOpen d d'

private theorem SameSlot.of_eq (h : k'.slotAt c fd = k.slotAt c fd) : SameSlot k k' c fd := by
  intro d hd
  exact ⟨d, h ▸ hd, rfl, rfl, rfl⟩

private theorem SameSlot.trans (h : SameSlot k k' c fd) (h' : SameSlot k' k'' c fd) : SameSlot k k'' c fd := by
  intro d'' hd''
  obtain ⟨d', hd', hglobal', hflags', hused'⟩ := h' d'' hd''
  obtain ⟨d, hd, hglobal, hflags, hused⟩ := h d' hd'
  exact ⟨d, hd, hglobal'.trans hglobal, hflags'.trans hflags, hused'.trans hused⟩

/-- At most slot `i` of process `c` changes. -/
def Touches (k k' : Kernel) (c i : Nat) : Prop :=
  ∀ c' fd, ¬(c' = c ∧ fd = i) → k'.slotAt c' fd = k.slotAt c' fd

private theorem Touches.of_manager (h : k'.manager = k.manager) : Touches k k' c i := by
  intro c' fd _
  rw [slotAt, slotAt, h]

private theorem Touches.trans (h : Touches k k' c i) (h' : Touches k' k'' c i) : Touches k k'' c i := by
  intro c' fd hne
  rw [h' c' fd hne, h c' fd hne]

/-- Any fault. -/
abbrev Any : Fault → Prop := fun _ => True

theorem meets_of_ok {α : Type} {P : α → Prop} {x : Except Fault α} (h : ∀ a, x = .ok a → P a) : Meets Any P x := by
  cases x with
  | error f => trivial
  | ok a => exact h a rfl

theorem meets_eq {α : Type} (x : Except Fault α) : Meets Any (fun a => x = .ok a) x := meets_of_ok fun _ h => h

theorem setSlot_touches (k : Kernel) (c i : Nat) (d : FileDescriptor) :
    Meets Any (fun k' => k'.slotAt c i = some d ∧ Touches k k' c i ∧ k'.globalFdTable = k.globalFdTable ∧
      k'.volume = k.volume ∧ k'.manager.currentProcess = k.manager.currentProcess) (k.setSlot c i d) := by
  unfold setSlot
  split
  · rename_i hi
    refine (meets_eq _).bind ?_
    intro m hm
    obtain ⟨n, hn, rfl⟩ := Proc.modify_eq (Fault.of_eq_ok.1 hm)
    refine ⟨?_, ?_, rfl, rfl, rfl⟩
    · rw [slotAt, Manager.proc, Proc.node_insert, if_pos rfl]
      show (n.proc.fdTable.set i d hi)[i]? = _
      rw [Vector.getElem?_set_self]
    · intro c' fd hne
      rw [slotAt, slotAt, Manager.proc, Manager.proc, Proc.node_insert]
      split
      · rename_i hc
        subst hc
        rw [hn]
        show (n.proc.fdTable.set i d hi)[fd]? = n.proc.fdTable[fd]?
        rw [Vector.getElem?_set_ne]
        rintro rfl
        exact hne ⟨rfl, rfl⟩
      · rfl
  · trivial

private theorem modifyGlobal_manager (k : Kernel) (globalFd : Option Nat) (f : GlobalFd → GlobalFd) :
    Meets Any (fun k' => k'.manager = k.manager ∧ k'.volume = k.volume) (k.modifyGlobal globalFd f) := by
  unfold modifyGlobal
  split
  · trivial
  · split
    · exact ⟨rfl, rfl⟩
    · trivial

/-- A slot that the checks of a call let through. -/
theorem usedSlot_meets_slotAt (k : Kernel) (refused : List Int) (fd : Int) :
    Meets Any (fun r => ∀ c d, r = .ok (c, d) → k.manager.currentProcess = some c ∧
      k.slotAt c fd.toNat = some d ∧ d.isUsed = true ∧ 0 ≤ fd) (k.usedSlot refused fd) := by
  have herror : ∀ err : Int, Meets Any (fun r : Except Int (Nat × FileDescriptor) => ∀ c d, r = .ok (c, d) →
      k.manager.currentProcess = some c ∧ k.slotAt c fd.toNat = some d ∧ d.isUsed = true ∧ 0 ≤ fd)
      (.ok (.error err)) := by
    intro err c d h
    cases h
  unfold usedSlot
  split
  · exact herror _
  · rename_i c hc
    split
    · exact herror _
    · rename_i hpass
      refine (meets_eq _).bind ?_
      intro p hp
      refine (meets_eq _).bind ?_
      intro d hd
      split
      · rename_i hused
        intro c' d' h
        cases h
        refine ⟨hc, ?_, hused, by omega⟩
        rw [slotAt, Fault.of_eq_ok.1 hp]
        exact Fault.of_eq_ok.1 hd
      · exact herror _

private theorem SameSlot.of_manager (h : k'.manager = k.manager) : SameSlot k k' c fd :=
  SameSlot.of_eq (by rw [slotAt, slotAt, h])

/-- A store that keeps the file and the flags of a slot. -/
private theorem setSlot_same (hd : k.slotAt c i = some d) (hsame : SameOpen d d') :
    Meets Any (fun k' => ∀ c' fd, SameSlot k k' c' fd) (k.setSlot c i d') := by
  refine (setSlot_touches k c i d').mono ?_
  intro k' ⟨hself, hothers, _⟩ c' fd
  by_cases hat : c' = c ∧ fd = i
  · obtain ⟨rfl, rfl⟩ := hat
    intro e he
    obtain rfl := Option.some.inj (hself.symm.trans he)
    exact ⟨d, hd, hsame⟩
  · exact SameSlot.of_eq (hothers c' fd hat)

/-! ### Calls -/

/-- No slot of any process has another file or other flags. -/
def SameSlots (k k' : Kernel) : Prop := ∀ c fd, SameSlot k k' c fd

private theorem SameSlots.refl (k : Kernel) : SameSlots k k := fun _ _ => SameSlot.of_eq rfl

private theorem SameSlots.of_manager (h : k'.manager = k.manager) : SameSlots k k' := fun _ _ => SameSlot.of_manager h

private theorem SameSlots.trans (h : SameSlots k k') (h' : SameSlots k' k'') : SameSlots k k'' :=
  fun c fd => (h c fd).trans (h' c fd)

private theorem SameSlots.of_keeps {m : Manager} (h : Proc.Keeps k.manager m) :
    SameSlots k { k with manager := m } := by
  intro c fd d' hd'
  obtain ⟨q, hq, hslot⟩ := Option.bind_eq_some_iff.1 hd'
  obtain ⟨p, hp, heq⟩ := h.proc c q hq
  refine ⟨d', ?_, rfl, rfl, rfl⟩
  rw [slotAt, hp]
  show p.fdTable[fd]? = some d'
  rw [← heq]
  exact hslot

private theorem sysRead_same (k : Kernel) (fd : Int) (count : UInt32) :
    Meets Any (fun r => SameSlots k r.2) (k.sysRead fd count) := by
  unfold sysRead
  refine (usedSlot_meets_slotAt k [] fd).bind ?_
  intro r hr
  split
  · exact SameSlots.refl k
  · rename_i c d
    obtain ⟨-, hd, -⟩ := hr c d rfl
    split
    · exact SameSlots.refl k
    split
    · exact SameSlots.refl k
    split
    · exact SameSlots.refl k
    refine (meets_eq _).bind ?_
    intro ⟨g, x⟩ _
    dsimp only
    split
    · trivial
    · refine (meets_eq _).bind ?_
      intro ⟨m, o⟩ hm
      exact SameSlots.of_keeps (Proc.step_keeps (Fault.of_eq_ok.1 hm) rfl)
    · refine (meets_eq _).bind ?_
      intro ⟨ret, bytes⟩ _
      refine Meets.bind (setSlot_same hd ⟨rfl, rfl, rfl⟩) ?_
      intro k' hk'
      exact hk'

private theorem sysWrite_same (k : Kernel) (fd : Int) (buf : List UInt8) :
    Meets Any (fun r => SameSlots k r.2) (k.sysWrite fd buf) := by
  unfold sysWrite
  split
  · exact SameSlots.refl k
  refine (usedSlot_meets_slotAt k [0, 2] fd).bind ?_
  intro r hr
  split
  · exact SameSlots.refl k
  · rename_i c d
    obtain ⟨-, hd, -⟩ := hr c d rfl
    split
    · exact SameSlots.refl k
    split
    · exact SameSlots.refl k
    refine (meets_eq _).bind ?_
    intro ⟨g, x⟩ _
    refine (meets_eq _).bind ?_
    intro ⟨ret, fileEntry, volume⟩ _
    dsimp only
    refine (modifyGlobal_manager k (some g) _).bind ?_
    intro k' ⟨hmanager, _⟩
    split
    · exact SameSlots.of_manager hmanager
    · have hd' : ({ k' with volume := volume } : Kernel).slotAt c fd.toNat = some d := by
        rw [slotAt]
        show (k'.manager.proc c).bind _ = _
        rw [hmanager]
        exact hd
      refine Meets.bind (setSlot_same hd' ⟨rfl, rfl, rfl⟩) ?_
      intro k'' hk''
      exact (SameSlots.of_manager hmanager).trans hk''

private theorem sysLseek_same (k : Kernel) (fd offset : Int) (whence : Whence) :
    Meets Any (fun r => SameSlots k r.2) (k.sysLseek fd offset whence) := by
  unfold sysLseek
  refine (usedSlot_meets_slotAt k [0, 1, 2] fd).bind ?_
  intro r hr
  split
  · exact SameSlots.refl k
  · rename_i c d
    obtain ⟨-, hd, -⟩ := hr c d rfl
    extract_lets store
    -- what follows once the new offset is known
    have hstore : ∀ newOffset, Meets Any (fun r : Int × Kernel => SameSlots k r.2) (store newOffset) := by
      intro newOffset
      dsimp only [store]
      split
      · exact SameSlots.refl k
      rename_i newOffset
      generalize toInt newOffset = n
      split
      · exact SameSlots.refl k
      have hfinish : ∀ past : Bool, Meets Any (fun r : Int × Kernel => SameSlots k r.2)
          (if past = true then .ok (-EINVAL, k) else do
            let k ← k.setSlot c fd.toNat { d with offset := newOffset }
            .ok (n, k)) := by
        intro past
        split
        · exact SameSlots.refl k
        · refine Meets.bind (setSlot_same hd ⟨rfl, rfl, rfl⟩) ?_
          intro k' hk'
          exact hk'
      split
      · refine (meets_eq _).bind ?_
        intro ⟨g, x⟩ _
        exact hfinish _
      · exact hfinish false
    clear_value store
    cases whence with
    | «end» =>
      refine (meets_eq _).bind ?_
      intro ⟨g, x⟩ _
      exact (hstore _).ok_bind
    | _ => exact (hstore _).ok_bind

private theorem sysFtruncate_same (k : Kernel) (fd : Int) (length : UInt32) :
    Meets Any (fun r => SameSlots k r.2) (k.sysFtruncate fd length) := by
  unfold sysFtruncate
  refine (meets_eq _).bind ?_
  intro r _
  split
  · exact SameSlots.refl k
  · refine (meets_eq _).bind ?_
    intro ⟨g, x⟩ _
    refine (meets_eq _).bind ?_
    intro ⟨ret, file, volume⟩ _
    refine (modifyGlobal_manager k (some g) _).bind ?_
    intro k' ⟨hmanager, _⟩
    exact SameSlots.of_manager hmanager

private theorem sysTruncate_same (stale : Nat → ByteMem) (k : Kernel) (path : List UInt8) (length : UInt32) :
    Meets Any (fun r => SameSlots k r.2) (sysTruncate stale k path length) := by
  unfold sysTruncate
  refine (meets_eq _).bind ?_
  intro fullPath _
  refine (meets_eq _).bind ?_
  intro found _
  split
  · exact SameSlots.refl k
  · refine (meets_eq _).bind ?_
    intro ⟨ret, file, volume⟩ _
    exact SameSlots.of_manager rfl

private theorem sysMkdir_same (stale : Nat → ByteMem) (k : Kernel) (path : List UInt8) :
    Meets Any (fun r => SameSlots k r.2) (sysMkdir stale k path) := by
  unfold sysMkdir
  refine (meets_eq _).bind ?_
  intro newPath _
  refine (meets_eq _).bind ?_
  intro ⟨ret, volume⟩ _
  exact SameSlots.of_manager rfl

private theorem sysUnlink_same (stale : Nat → ByteMem) (k : Kernel) (path : List UInt8) :
    Meets Any (fun r => SameSlots k r.2) (sysUnlink stale k path) := by
  unfold sysUnlink
  refine (meets_eq _).bind ?_
  intro fullPath _
  refine (meets_eq _).bind ?_
  intro found _
  split
  · exact SameSlots.refl k
  · split
    · exact SameSlots.refl k
    · refine (meets_eq _).bind ?_
      intro ⟨ret, volume⟩ _
      exact SameSlots.of_manager rfl

private theorem sysRename_same (stale : Nat → ByteMem) (k : Kernel) (oldPath newPath : List UInt8) :
    Meets Any (fun r => SameSlots k r.2) (sysRename stale k oldPath newPath) := by
  unfold sysRename
  refine (meets_eq _).bind ?_
  intro fullOldPath _
  refine (meets_eq _).bind ?_
  intro cwd _
  refine (meets_eq _).bind ?_
  intro fullNewPath _
  unfold renameSimplified
  refine (meets_eq _).bind ?_
  intro oldDir _
  refine (meets_eq _).bind ?_
  intro newDir _
  split
  · exact SameSlots.refl k
  · refine (meets_eq _).bind ?_
    intro newName _
    refine (meets_eq _).bind ?_
    intro ⟨ret, volume⟩ _
    dsimp only
    split
    · exact SameSlots.of_manager rfl
    · split
      · exact SameSlots.of_manager rfl
      · rename_i g hg
        refine (modifyGlobal_manager _ (some g) _).bind ?_
        intro k' ⟨hmanager, _⟩
        exact SameSlots.of_manager hmanager

/-- `_close` clears the slot it is given. -/
private theorem sysClose_touches (k : Kernel) (fd : Int) : Meets Any (fun r => r.2 = k ∨
    ∃ c, k.manager.currentProcess = some c ∧ 0 ≤ fd ∧ Touches k r.2 c fd.toNat) (k.sysClose fd) := by
  unfold sysClose
  refine (usedSlot_meets_slotAt k [0, 1] fd).bind ?_
  intro r hr
  split
  · exact Or.inl rfl
  · rename_i c d
    obtain ⟨hc, -, -, hpos⟩ := hr c d rfl
    refine (meets_eq _).bind ?_
    intro ⟨g, x⟩ _
    refine (modifyGlobal_manager k (some g) _).bind ?_
    intro k' ⟨hmanager, _⟩
    refine (setSlot_touches k' c fd.toNat .zero).bind ?_
    intro k'' ⟨_, htouches, _⟩
    right
    exact ⟨c, hc, hpos, (Touches.of_manager hmanager).trans htouches⟩

/-! ### Opening -/

/-- A slot as `_open` leaves it when it was called with `flags`. -/
def OpenedWith (flags : UInt32) (d : FileDescriptor) : Prop :=
  d.isUsed = true ∧ d.globalFd ≠ none ∧ (d.flags = flags ∨ d.flags = flags ||| O_DIRECTORY)

/-- The outcomes of `_open` on slot `i` of process `c`. -/
def OpensSlot (k : Kernel) (c i : Nat) (flags : UInt32) (r : Int × Kernel) : Prop :=
  Touches k r.2 c i ∧ (r.1 < 0 ∨ r.1 = i ∧ ∃ d, r.2.slotAt c i = some d ∧ OpenedWith flags d)

private theorem finishOpen_opens (hk : Touches k k' c i) (g : Nat) (flags : UInt32) :
    Meets Any (OpensSlot k c i flags) (k'.finishOpen c i g flags) := by
  unfold finishOpen
  split
  · exact ⟨hk, Or.inl (show -EEXIST < 0 by decide)⟩
  · extract_lets store
    have hstore : ∀ k'', Touches k k'' c i → Meets Any (OpensSlot k c i flags) (store k'') := by
      intro k'' hk''
      dsimp only [store]
      refine (meets_eq _).bind ?_
      intro x _
      refine (modifyGlobal_manager k'' (some g) _).bind ?_
      intro k₂ ⟨hmanager, _⟩
      refine (setSlot_touches k₂ c i _).bind ?_
      intro k₃ ⟨hslot, htouches, _⟩
      refine ⟨(hk''.trans (Touches.of_manager hmanager)).trans htouches, Or.inr ⟨rfl, _, hslot, rfl, ?_, ?_⟩⟩
      · exact Option.some_ne_none g
      · dsimp only
        split
        · exact Or.inr rfl
        · exact Or.inl rfl
    clear_value store
    split
    · have htruncate : Meets Any (fun k'' => Touches k k'' c i) (k'.truncateOpened g) := by
        unfold truncateOpened
        refine (meets_eq _).bind ?_
        intro x _
        refine (meets_eq _).bind ?_
        intro ⟨ret, file, volume⟩ _
        refine (modifyGlobal_manager k' (some g) _).bind ?_
        intro k'' ⟨hmanager, _⟩
        exact hk.trans (Touches.of_manager hmanager)
      exact htruncate.bind hstore
    · exact (hstore k' hk).ok_bind

theorem allocateGlobalFd_manager (k : Kernel) (path : List UInt8) :
    (k.allocateGlobalFd path).2.manager = k.manager := by
  unfold allocateGlobalFd
  split <;> rfl

private theorem openSlot_opens (stale : Nat → ByteMem) (k : Kernel) (c i : Nat) (fullPath : List UInt8)
    (flags : UInt32) :
    Meets Any (OpensSlot k c i flags) (openSlot stale k c i fullPath flags) := by
  unfold openSlot
  split
  · have hallocate := allocateGlobalFd_manager k fullPath
    generalize k.allocateGlobalFd fullPath = allocated at hallocate
    obtain ⟨globalFd, k₁⟩ := allocated
    refine (setSlot_touches k₁ c i _).bind ?_
    intro k₂ ⟨_, htouches, _⟩
    have hk₂ : Touches k k₂ c i := (Touches.of_manager hallocate).trans htouches
    refine (meets_eq _).bind ?_
    intro ⟨file, volume⟩ _
    dsimp only
    split
    · exact ⟨hk₂.trans (Touches.of_manager rfl), Or.inl (show -ENOENT < 0 by decide)⟩
    · refine (modifyGlobal_manager _ globalFd _).bind ?_
      intro k₃ ⟨hmanager, _⟩
      refine (meets_eq _).bind ?_
      intro g _
      exact finishOpen_opens (hk₂.trans (Touches.of_manager hmanager)) g flags
  · rename_i g hg
    refine (setSlot_touches k c i _).bind ?_
    intro k₁ ⟨_, hk₁, _⟩
    refine (meets_eq _).bind ?_
    intro x _
    split
    · exact ⟨hk₁, Or.inl (show -EISDIR < 0 by decide)⟩
    split
    · exact ⟨hk₁, Or.inl (show -ENOTDIR < 0 by decide)⟩
    · refine (modifyGlobal_manager k₁ (some g) _).bind ?_
      intro k₂ ⟨hmanager, _⟩
      exact finishOpen_opens (hk₁.trans (Touches.of_manager hmanager)) g flags

private theorem unusedSlot_unused {fdTable : Vector FileDescriptor MAX_LOCAL_FD} {n : Nat}
    (h : unusedSlot fdTable n fd = .ok (some i)) : ∃ d, fdTable[i]? = some d ∧ d.isUsed = false := by
  induction n generalizing fd with
  | zero => cases h
  | succ n ih =>
    unfold unusedSlot at h
    cases hslot : fdTable[fd]? with
    | none =>
      rw [slotOf, hslot] at h
      cases h
    | some d =>
      rw [slotOf, hslot] at h
      replace h : (if d.isUsed then unusedSlot fdTable n (fd + 1) else .ok (some fd)) = .ok (some i) := h
      split at h
      · exact ih h
      · rename_i hunused
        cases h
        exact ⟨d, hslot, by simpa using hunused⟩

/-- `_open` stores to an unused slot of the process that calls it. -/
theorem sysOpen_opens (stale : Nat → ByteMem) (k : Kernel) (path : List UInt8) (flags : UInt32) :
    Meets Any (fun r => (r.1 < 0 ∧ r.2 = k) ∨ ∃ c i d, k.manager.currentProcess = some c ∧ k.slotAt c i = some d ∧
      d.isUsed = false ∧ OpensSlot k c i flags r) (sysOpen stale k path flags) := by
  unfold sysOpen
  split
  · exact Or.inl ⟨show -ESRCH < 0 by decide, rfl⟩
  · rename_i c hc
    refine (meets_eq _).bind ?_
    intro p hp
    refine (meets_eq _).bind ?_
    intro fullPath _
    split
    · exact Or.inl ⟨show -ENOMEM < 0 by decide, rfl⟩
    · refine (meets_eq _).bind ?_
      intro found hfound
      split
      · exact Or.inl ⟨show -EMFILE < 0 by decide, rfl⟩
      · rename_i i
        obtain ⟨d, hd, hunused⟩ := unusedSlot_unused hfound
        apply (openSlot_opens stale k c i fullPath flags).mono
        intro r hr
        right
        refine ⟨c, i, d, hc, ?_, hunused, hr⟩
        rw [slotAt, Fault.of_eq_ok.1 hp]
        exact hd

/-! ### Runs -/

/-- The entry does not close descriptor `fd` of process `c`, and makes no process of its memory. -/
def KeepsOpen (c fd : Nat) (k : Kernel) : Event → Prop
  | .manager e => ∀ a stale, e.creates = some (a, stale) → a ≠ c
  | .syscall (.close fd') => ¬(k.manager.currentProcess = some c ∧ fd' = fd)
  | .syscall _ => True

/-- Slot `fd` of process `c` is used, where the process still is. -/
def StaysUsed (k : Kernel) (c fd : Nat) : Prop := ∀ d, k.slotAt c fd = some d → d.isUsed = true

private theorem perform_same {call : Syscall} {r : Option Int} (hused : StaysUsed k c fd)
    (hcall : KeepsOpen c fd k (.syscall call)) (h : k.perform call = .ok (r, k')) : SameSlot k k' c fd := by
  have hsame : ∀ {α : Type} {x : Except Fault (α × Kernel)} {f : α → Option Int},
      Meets Any (fun r => SameSlots k r.2) x → Prod.map f id <$> x = .ok (r, k') → SameSlot k k' c fd := by
    intro α x f hx heq
    exact ((hx.map (f := Prod.map f id) (R := fun r => SameSlots k r.2) fun _ hr => hr).value heq) c fd
  cases call with
  | «open» stale path flags =>
    have hopen := ((sysOpen_opens stale k path flags).map (f := Prod.map some id)
      (R := fun r => SameSlot k r.2 c fd) ?_).value h
    · exact hopen
    · rintro r (⟨-, heq⟩ | ⟨c', i, d, -, hd, hunused, htouches, -⟩)
      · show SameSlot k r.2 c fd
        rw [heq]
        exact SameSlot.of_eq rfl
      · apply SameSlot.of_eq
        apply htouches
        rintro ⟨rfl, rfl⟩
        rw [hused d hd] at hunused
        cases hunused
  | close fd' =>
    have hclose := ((sysClose_touches k fd').map (f := Prod.map some id)
      (R := fun r => SameSlot k r.2 c fd) ?_).value h
    · exact hclose
    · rintro r (heq | ⟨c', hc', hpos, htouches⟩)
      · show SameSlot k r.2 c fd
        rw [heq]
        exact SameSlot.of_eq rfl
      · apply SameSlot.of_eq
        apply htouches
        rintro ⟨rfl, rfl⟩
        exact hcall ⟨hc', (Int.toNat_of_nonneg hpos).symm⟩
  | read fd' count => exact hsame (sysRead_same k fd' count) h
  | write fd' buf => exact hsame (sysWrite_same k fd' buf) h
  | lseek fd' offset whence => exact hsame (sysLseek_same k fd' offset whence) h
  | fstat fd' =>
    have hfstat : Meets Any (fun r : Option Int × Kernel => r.2 = k) (k.perform (.fstat fd')) :=
      (meets_eq (k.sysFstat fd')).map fun _ _ => rfl
    obtain rfl : k' = k := hfstat.value h
    exact SameSlot.of_eq rfl
  | ftruncate fd' length => exact hsame (sysFtruncate_same k fd' length) h
  | truncate stale path length => exact hsame (sysTruncate_same stale k path length) h
  | mkdir stale path => exact hsame (sysMkdir_same stale k path) h
  | unlink stale path => exact hsame (sysUnlink_same stale k path) h
  | rename stale oldPath newPath => exact hsame (sysRename_same stale k oldPath newPath) h

private theorem exec_same {e : Event} (hused : StaysUsed k c fd) (he : KeepsOpen c fd k e) (hk : k.exec e = some k') :
    SameSlot k k' c fd := by
  obtain ⟨e', m, o, rfl, hm, rfl⟩ | ⟨call, r, rfl, -, hr⟩ := exec_eq hk
  · cases hcreates : e'.creates with
    | none => exact SameSlots.of_keeps (Proc.step_keeps hm hcreates) c fd
    | some new =>
      obtain ⟨a, stale⟩ := new
      obtain ⟨p, -, hadds⟩ := Proc.step_adds hm hcreates
      intro d' hd'
      obtain ⟨q, hq, hslot⟩ := Option.bind_eq_some_iff.1 hd'
      obtain ⟨p', hp', heq⟩ := hadds.proc c q hq (Ne.symm (he a stale hcreates))
      refine ⟨d', ?_, rfl, rfl, rfl⟩
      rw [slotAt, hp']
      show p'.fdTable[fd]? = some d'
      rw [← heq]
      exact hslot
  · exact perform_same hused he hr

/-- A descriptor keeps its file and its flags along every run that does not close it. -/
theorem stays_open {es : List Event} (hrun : Machine.Run exec (KeepsOpen c fd) k es k') (hused : StaysUsed k c fd) :
    SameSlot k k' c fd := by
  induction hrun with
  | nil => exact SameSlot.of_eq rfl
  | cons he hstep _ ih =>
    have hsame := exec_same hused he hstep
    apply hsame.trans
    apply ih
    intro d' hd'
    obtain ⟨d, hd, -, -, hused'⟩ := hsame d' hd'
    rw [hused']
    exact hused d hd

end Kernel

end DBolOS.Vfs
