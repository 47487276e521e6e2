import DBolOS.Lib.Meets
import DBolOS.Lib.Run
import DBolOS.Vfs.Descriptors

/-!
# Well-formed descriptor tables

Every used slot of a process and every stream of the active terminal points to an entry in use.  Calls that stay within
the 128 slots, and do not clear an entry that something else points to, keep the tables well-formed and have no access
to a slot, an entry or a handler that is not there (`tables_wellFormed`).
-/

namespace DBolOS.Vfs

open Failing
open Fat (FileData DirEntry Volume)
open Proc (Process FileDescriptor Manager Terminal Keeps Adds NoneBeyondStdio MAX_LOCAL_FD)

/-- The faults of accesses to the descriptor tables; the others are those of the file system, of strings and of the
process manager. -/
def Fault.Elsewhere (f : Fault) : Prop := f = .process ∨ f = .fileSystem

private theorem meets_of {α : Type} {f : Fault} (hf : f.Elsewhere) (x : Option α) :
    Meets Fault.Elsewhere (fun a => x = some a) (f.of x) := by
  cases x with
  | none => exact hf
  | some a => rfl

theorem meets_process {α : Type} (x : Option α) : Meets Fault.Elsewhere (fun a => x = some a) (Fault.process.of x) :=
  meets_of (Or.inl rfl) x

theorem meets_fileSystem {α : Type} (x : Option α) :
    Meets Fault.Elsewhere (fun a => x = some a) (Fault.fileSystem.of x) :=
  meets_of (Or.inr rfl) x

namespace Kernel

/-- Entry `g` is in use. -/
def inUse (k : Kernel) (g : Nat) : Bool := k.globalFdTable[g]?.any GlobalFd.isUsed

/-- A pointer to an entry in use. -/
def ToUsed (k : Kernel) (globalFd : Option Nat) : Prop := ∃ g, globalFd = some g ∧ k.inUse g = true

structure WellFormed (k : Kernel) : Prop where
  slots : ∀ c p fd, k.manager.proc c = some p → (p.fdTable.get fd).isUsed = true → k.ToUsed (p.fdTable.get fd).globalFd
  active : ∃ t, k.manager.activeTerminal = some t ∧ t.id = k.manager.activeTerminalId ∧
    k.ToUsed t.stdin ∧ k.ToUsed t.stdout ∧ k.ToUsed t.stderr

variable {k k' : Kernel} {c g fd : Nat} {p : Process} {d : FileDescriptor} {v : Volume}

theorem inUse_iff : k.inUse g = true ↔ ∃ x, k.globalFdTable[g]? = some x ∧ x.isUsed = true := by
  unfold inUse
  cases k.globalFdTable[g]? with
  | none => simp
  | some x => simp

theorem lt_of_inUse (h : k.inUse g = true) : g < MAX_FD := by
  obtain ⟨x, hx, -⟩ := inUse_iff.1 h
  exact (Vector.getElem?_eq_some_iff.1 hx).1

/-! ### Stores -/

theorem global_eq (hg : g < MAX_FD) : k.global g = .ok (k.globalFdTable.get ⟨g, hg⟩) := by
  unfold global
  rw [Vector.getElem?_eq_getElem hg]
  rfl

theorem modifyGlobal_eq (hg : g < MAX_FD) (f : GlobalFd → GlobalFd) : k.modifyGlobal (some g) f =
    .ok { k with globalFdTable := k.globalFdTable.set g (f (k.globalFdTable.get ⟨g, hg⟩)) hg } :=
  dif_pos hg

theorem inUse_set (hg : g < MAX_FD) (x : GlobalFd) (v : Volume) (j : Nat) :
    ({ k with globalFdTable := k.globalFdTable.set g x hg, volume := v } : Kernel).inUse j =
      if j = g then x.isUsed else k.inUse j := by
  unfold inUse
  by_cases hj : j = g
  · subst hj
    rw [if_pos rfl, Vector.getElem?_set_self hg]
    rfl
  · rw [if_neg hj, Vector.getElem?_set_ne hg (Ne.symm hj)]

theorem inUse_get (hg : g < MAX_FD) : (k.globalFdTable.get ⟨g, hg⟩).isUsed = k.inUse g := by
  unfold inUse
  rw [Vector.getElem?_eq_getElem hg]
  rfl

/-- A store that leaves an entry in use if it was. -/
theorem WellFormed.set (h : WellFormed k) (hg : g < MAX_FD) (x : GlobalFd) (v : Volume)
    (hx : k.inUse g = true → x.isUsed = true) :
    WellFormed { k with globalFdTable := k.globalFdTable.set g x hg, volume := v } := by
  have hto : ∀ q, k.ToUsed q →
      ({ k with globalFdTable := k.globalFdTable.set g x hg, volume := v } : Kernel).ToUsed q := by
    intro q ⟨j, hq, hj⟩
    refine ⟨j, hq, ?_⟩
    rw [inUse_set]
    by_cases hjg : j = g
    · subst hjg
      rw [if_pos rfl]
      exact hx hj
    · rw [if_neg hjg]
      exact hj
  refine ⟨?_, ?_⟩
  · intro c p fd hp hused
    exact hto _ (h.slots c p fd hp hused)
  · obtain ⟨t, ht, hid, hin, hout, herr⟩ := h.active
    exact ⟨t, ht, hid, hto _ hin, hto _ hout, hto _ herr⟩

theorem WellFormed.volume (h : WellFormed k) (v : Volume) : WellFormed { k with volume := v } :=
  ⟨h.slots, h.active⟩

/-- A store to slot `fd` of process `c`. -/
structure SlotSet (k k' : Kernel) (c fd : Nat) (d : FileDescriptor) : Prop where
  table : k'.globalFdTable = k.globalFdTable
  others : ∀ c', c' ≠ c → k'.manager.proc c' = k.manager.proc c'
  slot : ∃ p p', k.manager.proc c = some p ∧ k'.manager.proc c = some p' ∧
    ∀ j, p'.fdTable.get j = if j.val = fd then d else p.fdTable.get j
  terminals : k'.manager.terminals = k.manager.terminals
  terminalId : k'.manager.activeTerminalId = k.manager.activeTerminalId

theorem setSlot_meets (k : Kernel) (c : Nat) (hfd : fd < MAX_LOCAL_FD) (d : FileDescriptor) :
    Meets Fault.Elsewhere (fun k' => SlotSet k k' c fd d) (k.setSlot c fd d) := by
  unfold setSlot
  rw [dif_pos hfd]
  refine (meets_process _).bind ?_
  intro m hm
  obtain ⟨n, hn, rfl⟩ := Proc.modify_eq hm
  refine ⟨rfl, ?_, ?_, rfl, rfl⟩
  · intro c' hc'
    show Option.map _ (Manager.node _ c') = _
    rw [Proc.node_insert, if_neg hc']
    rfl
  · refine ⟨n.proc, { n.proc with fdTable := n.proc.fdTable.set fd d hfd }, ?_, ?_, ?_⟩
    · rw [Manager.proc, hn]
      rfl
    · show Option.map _ (Manager.node _ c) = _
      rw [Proc.node_insert, if_pos rfl]
      rfl
    · intro j
      rw [Vector.get_eq_getElem, Vector.get_eq_getElem, Vector.getElem_set]
      simp only [eq_comm]

theorem WellFormed.slotSet (h : WellFormed k) (hset : SlotSet k k' c fd d)
    (hd : d.isUsed = true → k.ToUsed d.globalFd) : WellFormed k' := by
  have hto : ∀ q, k.ToUsed q → k'.ToUsed q := by
    intro q ⟨g, hq, hg⟩
    refine ⟨g, hq, ?_⟩
    rw [inUse, hset.table]
    exact hg
  refine ⟨?_, ?_⟩
  · intro c' q j hq hused
    by_cases hc : c' = c
    · subst hc
      obtain ⟨p, p', hp, hp', hget⟩ := hset.slot
      obtain rfl := Option.some.inj (hp'.symm.trans hq)
      rw [hget] at hused ⊢
      by_cases hj : j.val = fd
      · rw [if_pos hj] at hused ⊢
        exact hto _ (hd hused)
      · rw [if_neg hj] at hused ⊢
        exact hto _ (h.slots c' p j hp hused)
    · rw [hset.others c' hc] at hq
      exact hto _ (h.slots c' q j hq hused)
  · obtain ⟨t, ht, hid, hin, hout, herr⟩ := h.active
    unfold Manager.activeTerminal
    rw [hset.terminals, hset.terminalId]
    exact ⟨t, ht, hid, hto _ hin, hto _ hout, hto _ herr⟩

/-! ### The process manager -/

/-- The streams of the active terminal, as scheduling keeps them. -/
private theorem WellFormed.active_of (h : WellFormed k) {m : Manager}
    (hterminals : m.terminals.map Terminal.streams = k.manager.terminals.map Terminal.streams)
    (hid : m.activeTerminalId = k.manager.activeTerminalId) :
    ∃ t, m.activeTerminal = some t ∧ t.id = m.activeTerminalId ∧
      k.ToUsed t.stdin ∧ k.ToUsed t.stdout ∧ k.ToUsed t.stderr := by
  obtain ⟨t, ht, htid, hin, hout, herr⟩ := h.active
  have hstreams := Proc.activeTerminal_streams hterminals hid
  rw [ht, Option.map_some, Option.map_eq_some_iff] at hstreams
  obtain ⟨t', ht', heq⟩ := hstreams
  simp only [Terminal.streams, Prod.mk.injEq] at heq
  obtain ⟨hid', hin', hout', herr'⟩ := heq
  rw [← hin'] at hin
  rw [← hout'] at hout
  rw [← herr'] at herr
  exact ⟨t', ht', by rw [hid', htid, hid], hin, hout, herr⟩

theorem WellFormed.keeps (h : WellFormed k) {m : Manager} (hm : Keeps k.manager m) :
    WellFormed { k with manager := m } := by
  refine ⟨?_, h.active_of hm.terminals hm.terminalId⟩
  intro c q fd hq hused
  obtain ⟨p, hp, heq⟩ := hm.proc c q hq
  rw [heq] at hused ⊢
  exact h.slots c p fd hp hused

/-- The standard streams of a new process are those of the active terminal. -/
theorem WellFormed.stdio (h : WellFormed k) (hfd : fd < 3) : k.ToUsed (Proc.stdio k.manager fd).globalFd := by
  obtain ⟨t, ht, htid, hin, hout, herr⟩ := h.active
  unfold Proc.stdio
  rw [ht]
  interval_cases fd
  · simpa [htid] using hin
  · simpa [htid] using hout
  · simpa [htid] using herr

theorem WellFormed.adds (h : WellFormed k) {m : Manager} {a : Nat} {stale : Process}
    (hp : k.manager.newProcess stale = some p) (hm : Adds a p.fdTable k.manager m)
    (hstale : NoneBeyondStdio stale.fdTable) : WellFormed { k with manager := m } := by
  refine ⟨?_, h.active_of hm.terminals hm.terminalId⟩
  intro c q fd hq hused
  by_cases hc : c = a
  · subst hc
    obtain ⟨q', hq', heq⟩ := hm.new
    obtain rfl := Option.some.inj (hq'.symm.trans hq)
    rw [heq, Proc.newProcess_get hp] at hused ⊢
    by_cases hfd : fd.val < 3
    · rw [if_pos hfd]
      exact h.stdio hfd
    · rw [if_neg hfd, hstale fd (by omega)] at hused
      cases hused
  · obtain ⟨p', hp', heq⟩ := hm.proc c q hq hc
    rw [heq] at hused ⊢
    exact h.slots c p' fd hp' hused

/-! ### Calls on a descriptor -/

/-- The descriptors 128 to 255 pass the checks of the calls but have no slot. -/
def InTable (fd : Int) : Prop := ¬ (MAX_LOCAL_FD ≤ fd ∧ fd < MAX_FD)

/-- Slot `fd` of the current process. -/
def CurrentSlot (k : Kernel) (c fd : Nat) (p : Process) (d : FileDescriptor) : Prop :=
  k.manager.currentProcess = some c ∧ k.manager.proc c = some p ∧ ∃ h : fd < MAX_LOCAL_FD, d = p.fdTable.get ⟨fd, h⟩

private theorem usedSlot_meets (k : Kernel) (refused : List Int) {fd : Int} (hfd : InTable fd) :
    Meets Fault.Elsewhere (fun r => ∀ c d, r = .ok (c, d) → fd ∉ refused ∧ 0 ≤ fd ∧ d.isUsed = true ∧
      ∃ p, k.CurrentSlot c fd.toNat p d) (k.usedSlot refused fd) := by
  have herror : ∀ err : Int, Meets Fault.Elsewhere (fun r : Except Int (Nat × FileDescriptor) => ∀ c d,
      r = .ok (c, d) → fd ∉ refused ∧ 0 ≤ fd ∧ d.isUsed = true ∧ ∃ p, k.CurrentSlot c fd.toNat p d)
      (.ok (.error err)) := by
    intro err c d h
    cases h
  unfold usedSlot
  split
  · exact herror _
  · rename_i c hc
    split
    · exact herror _
    · rename_i hpass
      simp only [not_or, not_lt] at hpass
      obtain ⟨hrefused, hpos, hmax⟩ := hpass
      have hlt : fd.toNat < MAX_LOCAL_FD := by
        unfold InTable at hfd
        omega
      refine (meets_process _).bind ?_
      intro p hp
      have hslot : slotOf p.fdTable fd.toNat = .ok (p.fdTable.get ⟨fd.toNat, hlt⟩) := by
        unfold slotOf
        rw [Vector.getElem?_eq_getElem hlt]
        rfl
      rw [hslot]
      show Meets _ _ (if (p.fdTable.get ⟨fd.toNat, hlt⟩).isUsed = true then _ else _)
      split
      · rename_i hused
        intro c' d' h
        cases h
        exact ⟨hrefused, hpos, hused, p, hc, hp, hlt, rfl⟩
      · exact herror _

private theorem globalOf_meets (hd : k.ToUsed d.globalFd) :
    Meets Fault.Elsewhere (fun r => d.globalFd = some r.1 ∧ k.inUse r.1 = true ∧ k.globalFdTable[r.1]? = some r.2)
      (k.globalOf d) := by
  obtain ⟨g, hg, hused⟩ := hd
  unfold globalOf
  rw [hg]
  show Meets _ _ (k.global g >>= _)
  rw [global_eq (lt_of_inUse hused)]
  exact ⟨rfl, hused, Vector.getElem?_eq_getElem (lt_of_inUse hused)⟩

/-- A used slot of the current process points to an entry in use. -/
private theorem WellFormed.current (h : WellFormed k) (hs : k.CurrentSlot c fd p d) (hd : d.isUsed = true) :
    k.ToUsed d.globalFd := by
  obtain ⟨-, hp, hlt, rfl⟩ := hs
  exact h.slots c p _ hp hd

/-- A store to a slot in the table of a process. -/
private theorem WellFormed.setSlot (h : WellFormed k) (hfd : fd < MAX_LOCAL_FD)
    (hd : d.isUsed = true → k.ToUsed d.globalFd) :
    Meets Fault.Elsewhere WellFormed (k.setSlot c fd d) :=
  (setSlot_meets k c hfd d).mono fun _ hset => h.slotSet hset hd

/-- A store that leaves an entry of the table in use if it was. -/
theorem WellFormed.modifyGlobal (h : WellFormed k) (hg : k.inUse g = true) {f : GlobalFd → GlobalFd}
    (hf : ∀ x, x.isUsed = true → (f x).isUsed = true) :
    Meets Fault.Elsewhere (fun k' => WellFormed k' ∧ ∀ j, k.inUse j = true → k'.inUse j = true)
      (k.modifyGlobal (some g) f) := by
  have hlt := lt_of_inUse hg
  rw [modifyGlobal_eq hlt]
  have hused : (f (k.globalFdTable.get ⟨g, hlt⟩)).isUsed = true := by
    apply hf
    rw [inUse_get]
    exact hg
  refine ⟨h.set hlt _ k.volume fun _ => hused, ?_⟩
  intro j hj
  rw [inUse_set hlt _ k.volume]
  split
  · exact hused
  · exact hj

theorem sysWrite_meets (h : WellFormed k) {fd : Int} (hfd : InTable fd) (buf : List UInt8) :
    Meets Fault.Elsewhere (fun r => WellFormed r.2) (k.sysWrite fd buf) := by
  unfold sysWrite
  split
  · exact h
  refine (usedSlot_meets k [0, 2] hfd).bind ?_
  intro r hr
  split
  · exact h
  · rename_i c d
    obtain ⟨-, hpos, hused, p, hs⟩ := hr c d rfl
    have hto := h.current hs hused
    split
    · exact h
    split
    · exact h
    refine (globalOf_meets hto).bind ?_
    intro ⟨g, x⟩ ⟨hg, hguse, _⟩
    refine (meets_fileSystem _).bind ?_
    intro ⟨ret, fileEntry, volume⟩ _
    dsimp only
    refine (h.modifyGlobal hguse fun x hx => ?_).bind ?_
    · exact hx
    intro k' ⟨h', hin⟩
    split
    · exact h'.volume volume
    · refine Meets.bind ((h'.volume volume).setSlot hs.2.2.1 ?_) ?_
      · intro _
        obtain ⟨g', hg', hguse'⟩ := hto
        exact ⟨g', hg', hin g' hguse'⟩
      · intro k'' h''
        exact h''

theorem sysLseek_meets (h : WellFormed k) {fd : Int} (hfd : InTable fd) (offset : Int) (whence : Whence) :
    Meets Fault.Elsewhere (fun r => WellFormed r.2) (k.sysLseek fd offset whence) := by
  unfold sysLseek
  refine (usedSlot_meets k [0, 1, 2] hfd).bind ?_
  intro r hr
  split
  · exact h
  · rename_i c d
    obtain ⟨-, hpos, hused, p, hs⟩ := hr c d rfl
    have hto := h.current hs hused
    extract_lets store
    -- what follows once the new offset is known
    have hstore : ∀ newOffset, Meets Fault.Elsewhere (fun r : Int × Kernel => WellFormed r.2) (store newOffset) := by
      intro newOffset
      dsimp only [store]
      split
      · exact h
      rename_i newOffset
      generalize toInt newOffset = n
      split
      · exact h
      have hfinish : ∀ past : Bool, Meets Fault.Elsewhere (fun r : Int × Kernel => WellFormed r.2)
          (if past = true then .ok (-EINVAL, k) else do
            let k ← k.setSlot c fd.toNat { d with offset := newOffset }
            .ok (n, k)) := by
        intro past
        split
        · exact h
        · refine Meets.bind (h.setSlot hs.2.2.1 fun _ => hto) ?_
          intro k' h'
          exact h'
      split
      · refine (globalOf_meets hto).bind ?_
        intro ⟨g, x⟩ _
        exact hfinish _
      · exact hfinish false
    clear_value store
    cases whence with
    | «end» =>
      refine (globalOf_meets hto).bind ?_
      intro ⟨g, x⟩ _
      exact (hstore _).ok_bind
    | _ => exact (hstore _).ok_bind

theorem sysFstat_meets (h : WellFormed k) {fd : Int} (hfd : InTable fd) :
    Meets Fault.Elsewhere (fun _ => True) (k.sysFstat fd) := by
  unfold sysFstat
  refine (usedSlot_meets k [0, 1, 2] hfd).bind ?_
  intro r hr
  split
  · trivial
  · rename_i c d
    obtain ⟨-, -, hused, p, hs⟩ := hr c d rfl
    exact (globalOf_meets (h.current hs hused)).bind fun _ _ => trivial

theorem sysFtruncate_meets (h : WellFormed k) {fd : Int} (hfd : InTable fd) (length : UInt32) :
    Meets Fault.Elsewhere (fun r => WellFormed r.2) (k.sysFtruncate fd length) := by
  unfold sysFtruncate
  refine (usedSlot_meets k [0, 1, 2] hfd).bind ?_
  intro r hr
  split
  · exact h
  · rename_i c d
    obtain ⟨-, -, hused, p, hs⟩ := hr c d rfl
    refine (globalOf_meets (h.current hs hused)).bind ?_
    intro ⟨g, x⟩ ⟨hg, hguse, _⟩
    refine (meets_fileSystem _).bind ?_
    intro ⟨ret, file, volume⟩ _
    dsimp only
    refine (h.modifyGlobal hguse fun x hx => ?_).bind ?_
    · exact hx
    intro k' ⟨h', _⟩
    exact h'.volume volume

/-- Nothing but slot `fd` of process `c` points to entry `g`. -/
def OnlyReference (k : Kernel) (c fd g : Nat) : Prop :=
  (∀ c' p' fd', k.manager.proc c' = some p' → (p'.fdTable.get fd').isUsed = true →
      (p'.fdTable.get fd').globalFd = some g → c' = c ∧ fd'.val = fd) ∧
    ∀ t, k.manager.activeTerminal = some t → t.stdin ≠ some g ∧ t.stdout ≠ some g ∧ t.stderr ≠ some g

/-- Clearing an entry together with the only slot that points to it. -/
private theorem WellFormed.clear (h : WellFormed k) (hg : g < MAX_FD) (honly : k.OnlyReference c fd g)
    (hset : SlotSet { k with globalFdTable := k.globalFdTable.set g .zero hg } k' c fd .zero) : WellFormed k' := by
  have hto : ∀ q, k.ToUsed q → q ≠ some g → k'.ToUsed q := by
    intro q ⟨j, hq, hj⟩ hne
    refine ⟨j, hq, ?_⟩
    have hjg : j ≠ g := by
      intro hjg
      exact hne (by rw [hq, hjg])
    rw [inUse, hset.table]
    show (k.globalFdTable.set g GlobalFd.zero hg)[j]?.any GlobalFd.isUsed = true
    rw [Vector.getElem?_set_ne hg (Ne.symm hjg)]
    exact hj
  obtain ⟨hothers, hterminal⟩ := honly
  refine ⟨?_, ?_⟩
  · intro c' q j hq hused
    by_cases hc : c' = c
    · subst hc
      obtain ⟨p, p', hp, hp', hget⟩ := hset.slot
      obtain rfl := Option.some.inj (hp'.symm.trans hq)
      rw [hget] at hused ⊢
      by_cases hj : j.val = fd
      · rw [if_pos hj] at hused
        cases hused
      · rw [if_neg hj] at hused ⊢
        apply hto _ (h.slots c' p j hp hused)
        intro hglobal
        exact hj (hothers c' p j hp hused hglobal).2
    · rw [hset.others c' hc] at hq
      apply hto _ (h.slots c' q j hq hused)
      intro hglobal
      exact hc (hothers c' q j hq hused hglobal).1
  · obtain ⟨t, ht, hid, hin, hout, herr⟩ := h.active
    obtain ⟨hin', hout', herr'⟩ := hterminal t ht
    unfold Manager.activeTerminal
    rw [hset.terminals, hset.terminalId]
    exact ⟨t, ht, hid, hto _ hin hin', hto _ hout hout', hto _ herr herr'⟩

/-- What the caller of `_close` has to leave alone: where the count of the entry falls to zero, nothing else points
to it. -/
def SoundClose (k : Kernel) (fd : Int) : Prop :=
  InTable fd ∧ ∀ c p d g x, fd ∉ [(0 : Int), 1] → 0 ≤ fd → k.CurrentSlot c fd.toNat p d → d.isUsed = true →
    d.globalFd = some g → k.globalFdTable[g]? = some x → x.refCount = 1 → k.OnlyReference c fd.toNat g

theorem sysClose_meets (h : WellFormed k) {fd : Int} (hfd : SoundClose k fd) :
    Meets Fault.Elsewhere (fun r => WellFormed r.2) (k.sysClose fd) := by
  unfold sysClose
  refine (usedSlot_meets k [0, 1] hfd.1).bind ?_
  intro r hr
  split
  · exact h
  · rename_i c d
    obtain ⟨hrefused, hpos, hused, p, hs⟩ := hr c d rfl
    refine (globalOf_meets (h.current hs hused)).bind ?_
    intro ⟨g, x⟩ ⟨hg, hguse, hx⟩
    dsimp only at hg hguse hx ⊢
    have hlt := lt_of_inUse hguse
    rw [modifyGlobal_eq hlt]
    by_cases hcount : x.refCount - 1 = 0
    · rw [if_pos hcount]
      apply Meets.ok_bind
      refine Meets.bind (setSlot_meets _ c hs.2.2.1 .zero) ?_
      intro k' hset
      have honly := hfd.2 c p d g x hrefused hpos hs hused hg hx (by omega)
      exact h.clear hlt honly hset
    · rw [if_neg hcount]
      have hxused : x.isUsed = true := by
        obtain ⟨x', hx', hused'⟩ := inUse_iff.1 hguse
        obtain rfl := Option.some.inj (hx.symm.trans hx')
        exact hused'
      have h' : WellFormed
          { k with globalFdTable := k.globalFdTable.set g { x with refCount := x.refCount - 1 } hlt } :=
        h.set hlt _ k.volume fun _ => hxused
      apply Meets.ok_bind
      refine Meets.bind (h'.setSlot hs.2.2.1 fun hzero => ?_) ?_
      · cases hzero
      · intro k' h''
        exact h''

/-- Where `_read` calls the handler of the entry there is one. -/
def SoundRead (k : Kernel) (fd : Int) : Prop :=
  InTable fd ∧ ∀ c p d g x, 0 ≤ fd → k.CurrentSlot c fd.toNat p d → d.isUsed = true →
    hasFlag d.flags O_DIRECTORY = false → d.globalFd = some g → k.globalFdTable[g]? = some x → x.read ≠ none

theorem sysRead_meets (h : WellFormed k) {fd : Int} (hfd : SoundRead k fd) (count : UInt32) :
    Meets Fault.Elsewhere (fun r => WellFormed r.2) (k.sysRead fd count) := by
  unfold sysRead
  refine (usedSlot_meets k [] hfd.1).bind ?_
  intro r hr
  split
  · exact h
  · rename_i c d
    obtain ⟨-, hpos, hused, p, hs⟩ := hr c d rfl
    have hto := h.current hs hused
    split
    · exact h
    rename_i hdir
    split
    · exact h
    split
    · exact h
    refine (globalOf_meets hto).bind ?_
    intro ⟨g, x⟩ ⟨hg, _, hx⟩
    dsimp only at hg hx ⊢
    split
    · rename_i hnone
      exact absurd hnone (hfd.2 c p d g x hpos hs hused (by simpa using hdir) hg hx)
    · refine (meets_process _).bind ?_
      intro ⟨m, o⟩ hm
      exact h.keeps (Proc.step_keeps hm rfl)
    · refine (meets_fileSystem _).bind ?_
      intro ⟨ret, bytes⟩ _
      refine Meets.bind (h.setSlot hs.2.2.1 fun _ => hto) ?_
      intro k' h'
      exact h'

end Kernel

end DBolOS.Vfs
