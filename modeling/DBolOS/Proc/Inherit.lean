import DBolOS.Proc.Refines

/-!
# The descriptors of a new process

`init_proc_fd` is given the size of the table but clears its first three slots only: exactly when the memory of the
node holds no other used slot, a new process starts with descriptors 0, 1 and 2 alone (`new_fdTable_iff`).
-/

namespace DBolOS.Proc

open Manager

/-- What a process sees of its descriptors: the used ones. -/
def observable (fdTable : Vector FileDescriptor MAX_LOCAL_FD) (fd : Fin MAX_LOCAL_FD) : Option FileDescriptor :=
  if (fdTable.get fd).isUsed then some (fdTable.get fd) else none

/-- Exactly descriptors 0, 1 and 2 are in use. -/
def StdioOnly (fdTable : Vector FileDescriptor MAX_LOCAL_FD) : Prop :=
  ∀ fd : Fin MAX_LOCAL_FD, (fdTable.get fd).isUsed = true ↔ fd.val < 3

/-- No slot from 3 on is in use. -/
def NoneBeyondStdio (fdTable : Vector FileDescriptor MAX_LOCAL_FD) : Prop :=
  ∀ fd : Fin MAX_LOCAL_FD, 3 ≤ fd.val → (fdTable.get fd).isUsed = false

variable {m m₁ m₂ : Manager} {a : Nat} {stale stale' p q : Process}

private theorem get_setGlobalFd (t : Vector FileDescriptor MAX_LOCAL_FD) (i j : Fin MAX_LOCAL_FD) (g : Option Nat) :
    (setGlobalFd t i g).get j = if i = j then { t.get i with globalFd := g } else t.get j := by
  unfold setGlobalFd
  simp only [Vector.get_eq_getElem, Vector.getElem_set, Fin.ext_iff]

private theorem get_initProcFd (t : Vector FileDescriptor MAX_LOCAL_FD) (fd : Fin MAX_LOCAL_FD) :
    (initProcFd t).get fd = if fd.val < 3 then { FileDescriptor.zero with isUsed := true } else t.get fd := by
  unfold initProcFd
  simp only [Vector.get_eq_getElem, Vector.getElem_set]
  split
  · rw [if_pos (by omega)]
  · split
    · rw [if_pos (by omega)]
    · split
      · rw [if_pos (by omega)]
      · rw [if_neg (by omega)]

/-- What creation stores in the slots of the standard streams. -/
def stdio (m : Manager) (fd : Nat) : FileDescriptor :=
  { FileDescriptor.zero with
    isUsed := true
    globalFd := do
      let t ← m.activeTerminal
      if t.id = m.activeTerminalId then [t.stdin, t.stdout, t.stderr].getD fd none else none }

/-- The first three slots of a new process do not depend on the memory of the node; the others are left as they are
there. -/
theorem newProcess_get (h : m.newProcess stale = some p) (fd : Fin MAX_LOCAL_FD) :
    p.fdTable.get fd = if fd.val < 3 then stdio m fd else stale.fdTable.get fd := by
  unfold Manager.newProcess attachProcessToTerminal at h
  simp only [Option.bind_eq_bind, Option.bind_eq_some_iff] at h
  obtain ⟨t, ht, h⟩ := h
  have hactive : m.activeTerminal = some t := ht
  split at h
  · rename_i hid
    cases h
    rw [get_initProcFd]
    simp [stdio, hactive, hid, FileDescriptor.zero]
  · rename_i hid
    rw [ne_eq, not_not] at hid
    cases h
    simp only [get_setGlobalFd, get_initProcFd, Fin.ext_iff]
    have hcases : fd.val = 0 ∨ fd.val = 1 ∨ fd.val = 2 ∨ 3 ≤ fd.val := by omega
    rcases hcases with hfd | hfd | hfd | hfd
    · simp [hfd, stdio, hactive, hid]
    · simp [hfd, stdio, hactive, hid]
    · simp [hfd, stdio, hactive, hid]
    · rw [if_neg (by omega), if_neg (by omega), if_neg (by omega), if_neg (by omega), if_neg (by omega)]

private theorem stdioOnly_iff (h : m.newProcess stale = some p) :
    StdioOnly p.fdTable ↔ NoneBeyondStdio stale.fdTable := by
  have hget := newProcess_get h
  constructor
  · intro hp fd hfd
    have := hp fd
    rw [hget, if_neg (by omega)] at this
    simpa [Nat.not_lt.2 hfd] using this
  · intro hs fd
    rw [hget]
    split
    · rename_i hfd
      simp [stdio, hfd]
    · rename_i hfd
      simp [hs fd (by omega), hfd]

/-- The node of a new process holds the descriptors that creation stored in it. -/
theorem createProcessFromElf_fdTable (h : m.createProcessFromElf a stale = some m₁) :
    ∃ p q, m.newProcess stale = some p ∧ m₁.proc a = some q ∧ q.fdTable = p.fdTable := by
  unfold Manager.createProcessFromElf at h
  split at h
  · cases h
  simp only [Option.bind_eq_bind, Option.bind_eq_some_iff] at h
  obtain ⟨p, hp, m₂, hm₂, h⟩ := h
  have hproc : m₂.proc a = some p := by
    rw [addToLinkedList_proc hm₂]
    show Option.map ProcessNode.proc ((m.nodes.insert a ⟨p, none, none⟩).lookup a) = some p
    rw [AList.lookup_insert]
    rfl
  split at h
  · cases h
    exact ⟨p, p, hp, hproc, rfl⟩
  · rename_i c _
    obtain ⟨n, hn, rfl⟩ := modify_eq h
    refine ⟨p, ?_⟩
    rcases eq_or_ne a c with rfl | hac
    · refine ⟨{ n.proc with waitingFor := p.pid, state := .waiting }, hp, ?_, ?_⟩
      · rw [Manager.proc, node_insert, if_pos rfl]
        rfl
      · rw [Manager.proc, hn] at hproc
        cases hproc
        rfl
    · refine ⟨p, hp, ?_, rfl⟩
      rw [Manager.proc] at hproc
      rw [Manager.proc, node_insert, if_neg hac]
      exact hproc

/-- Two creations that differ in the memory of the node only: both new processes start with descriptors 0, 1 and 2
alone, and with equal ones, exactly when neither memory holds a used slot from 3 on. -/
theorem new_fdTable_iff (h₁ : m.createProcessFromElf a stale = some m₁)
    (h₂ : m.createProcessFromElf a stale' = some m₂) :
    (∃ p q, m₁.proc a = some p ∧ m₂.proc a = some q ∧ StdioOnly p.fdTable ∧ StdioOnly q.fdTable ∧
        observable p.fdTable = observable q.fdTable) ↔
      NoneBeyondStdio stale.fdTable ∧ NoneBeyondStdio stale'.fdTable := by
  obtain ⟨p, p', hp, hp', hpt⟩ := createProcessFromElf_fdTable h₁
  obtain ⟨q, q', hq, hq', hqt⟩ := createProcessFromElf_fdTable h₂
  rw [← stdioOnly_iff hp, ← stdioOnly_iff hq, hp', hq']
  constructor
  · rintro ⟨_, _, heq, heq', hsp, hsq, -⟩
    cases heq
    cases heq'
    exact ⟨hpt ▸ hsp, hqt ▸ hsq⟩
  · rintro ⟨hsp, hsq⟩
    refine ⟨p', q', rfl, rfl, hpt ▸ hsp, hqt ▸ hsq, ?_⟩
    rw [hpt, hqt]
    funext fd
    unfold observable
    rcases Nat.lt_or_ge fd.val 3 with hfd | hfd
    · rw [newProcess_get hp, newProcess_get hq, if_pos hfd, if_pos hfd]
    · -- neither slot is used
      have hnp : (p.fdTable.get fd).isUsed ≠ true := fun hu => by have := (hsp fd).1 hu; omega
      have hnq : (q.fdTable.get fd).isUsed ≠ true := fun hu => by have := (hsq fd).1 hu; omega
      rw [if_neg hnp, if_neg hnq]

/-- The memory of a process that had descriptor 3 open. -/
def openedNode : Process := { Process.zero with fdTable := Process.zero.fdTable.set 3 ⟨some 6, 0, 0, true⟩ (by decide) }

/-- A process in such memory starts with descriptor 3 open. -/
theorem new_fdTable_inherited : ∃ m₁ p, boot.createProcessFromElf 10 openedNode = some m₁ ∧ m₁.proc 10 = some p ∧
    ¬ StdioOnly p.fdTable := by
  have hrun : (boot.createProcessFromElf 10 openedNode).bind (fun m => (m.proc 10).map fun p =>
      (p.fdTable.get ⟨3, by decide⟩).isUsed) = some true := rfl
  obtain ⟨m₁, hm₁, hproc⟩ := Option.bind_eq_some_iff.1 hrun
  obtain ⟨p, hp, hused⟩ := Option.map_eq_some_iff.1 hproc
  refine ⟨m₁, p, hm₁, hp, ?_⟩
  intro hstdio
  have := (hstdio ⟨3, by decide⟩).1 hused
  simp at this

/-- The memory of a process that had used descriptor 1 and had closed descriptor 3. -/
def closedNode : Process :=
  { Process.zero with fdTable :=
      (Process.zero.fdTable.setIfInBounds 3 ⟨some 6, 0, 2, false⟩).setIfInBounds 1 ⟨some 6, 0, 0, true⟩ }

theorem new_fdTable_iff_closed : ∃ m₁ m₂ p q, boot.createProcessFromElf 10 .zero = some m₁ ∧
    boot.createProcessFromElf 10 closedNode = some m₂ ∧ m₁.proc 10 = some p ∧ m₂.proc 10 = some q ∧
    StdioOnly p.fdTable ∧ StdioOnly q.fdTable ∧ observable p.fdTable = observable q.fdTable := by
  have hrun : (boot.createProcessFromElf 10 .zero).isSome = true := rfl
  have hrun' : (boot.createProcessFromElf 10 closedNode).isSome = true := rfl
  obtain ⟨m₁, hm₁⟩ := Option.isSome_iff_exists.1 hrun
  obtain ⟨m₂, hm₂⟩ := Option.isSome_iff_exists.1 hrun'
  have hzero : NoneBeyondStdio Process.zero.fdTable := by
    intro fd _
    simp [Process.zero, FileDescriptor.zero, Vector.get_eq_getElem]
  have hclosed : NoneBeyondStdio closedNode.fdTable := by
    intro fd hfd
    simp only [closedNode, Process.zero, Vector.get_eq_getElem, Vector.getElem_setIfInBounds,
      Vector.getElem_replicate, FileDescriptor.zero]
    split
    · omega
    · split <;> rfl
  obtain ⟨p, q, hp, hq, hpq⟩ := (new_fdTable_iff hm₁ hm₂).2 ⟨hzero, hclosed⟩
  exact ⟨m₁, m₂, p, q, hm₁, hm₂, hp, hq, hpq⟩

end DBolOS.Proc
