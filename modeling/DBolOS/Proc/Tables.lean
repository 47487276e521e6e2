import DBolOS.Proc.Inherit

/-!
# Scheduling leaves the descriptors alone

`Keeps m m'`: what `m'` still has of processes and terminals has the descriptors of `m`.  Every entry to the process
manager keeps them, but for the process it creates (`step_keeps`).
-/

namespace DBolOS.Proc

open Manager

/-- The id and the descriptors of a terminal. -/
def Terminal.streams (t : Terminal) : UInt32 × Option Nat × Option Nat × Option Nat := (t.id, t.stdin, t.stdout, t.stderr)

structure Keeps (m m' : Manager) : Prop where
  proc : ∀ c q, m'.proc c = some q → ∃ p, m.proc c = some p ∧ q.fdTable = p.fdTable
  terminals : m'.terminals.map Terminal.streams = m.terminals.map Terminal.streams
  terminalId : m'.activeTerminalId = m.activeTerminalId

variable {m m' m'' : Manager} {a c : Nat} {o : Outcome}

/-- The active terminal has the same streams. -/
theorem activeTerminal_streams (h : m'.terminals.map Terminal.streams = m.terminals.map Terminal.streams)
    (hid : m'.activeTerminalId = m.activeTerminalId) :
    m'.activeTerminal.map Terminal.streams = m.activeTerminal.map Terminal.streams := by
  unfold Manager.activeTerminal
  rw [hid, ← Vector.getElem?_map, ← Vector.getElem?_map, h]

namespace Keeps

theorem refl (m : Manager) : Keeps m m := ⟨fun _ q hq => ⟨q, hq, rfl⟩, rfl, rfl⟩

theorem trans (h : Keeps m m') (h' : Keeps m' m'') : Keeps m m'' := by
  refine ⟨?_, h'.terminals.trans h.terminals, h'.terminalId.trans h.terminalId⟩
  intro c q hq
  obtain ⟨p', hp', heq'⟩ := h'.proc c q hq
  obtain ⟨p, hp, heq⟩ := h.proc c p' hp'
  exact ⟨p, hp, heq'.trans heq⟩

/-- Where the nodes and terminals are the same, nothing else matters. -/
private theorem of_nodes (hnodes : m'.nodes = m.nodes) (hterminals : m'.terminals = m.terminals)
    (hid : m'.activeTerminalId = m.activeTerminalId) : Keeps m m' := by
  refine ⟨?_, by rw [hterminals], hid⟩
  intro c q hq
  rw [Manager.proc, Manager.node, hnodes] at hq
  exact ⟨q, hq, rfl⟩

private theorem modify {f : ProcessNode → ProcessNode} (hm : m.modify a f = some m')
    (hf : ∀ n, (f n).proc.fdTable = n.proc.fdTable) : Keeps m m' := by
  obtain ⟨n, hn, rfl⟩ := modify_eq hm
  refine ⟨?_, rfl, rfl⟩
  intro c q hq
  rw [Manager.proc, node_insert] at hq
  split at hq
  · rename_i hca
    subst hca
    cases hq
    exact ⟨n.proc, by rw [Manager.proc, hn]; rfl, hf n⟩
  · exact ⟨q, hq, rfl⟩

private theorem modifyProc {f : Process → Process} (hm : m.modifyProc a f = some m')
    (hf : ∀ p, (f p).fdTable = p.fdTable) :
    Keeps m m' :=
  modify hm fun n => hf n.proc

private theorem modifyIf {q : Option Nat} {f : ProcessNode → ProcessNode} (hm : m.modifyIf q f = some m')
    (hf : ∀ n, (f n).proc = n.proc) : Keeps m m' := by
  cases q with
  | none =>
    cases hm
    exact refl m
  | some a => exact modify hm fun n => by rw [hf]

/-! ### Operations -/

private theorem setList (m : Manager) (head tail current : Option Nat) :
    Keeps m { m with processListHead := head, processListTail := tail, currentProcess := current } :=
  of_nodes rfl rfl rfl

private theorem addToLinkedList (hm : m.addToLinkedList a = some m') : Keeps m m' := by
  simp only [Manager.addToLinkedList, Option.bind_eq_bind, Option.bind_eq_some_iff] at hm
  obtain ⟨m₁, hm₁, hm⟩ := hm
  have h₁ : Keeps m m₁ := modify hm₁ fun _ => rfl
  split at hm
  · cases hm
    exact h₁.trans (setList m₁ _ _ _)
  · simp only [Option.bind_eq_some_iff] at hm
    obtain ⟨t, -, m₂, hm₂, m₃, hm₃, hm⟩ := hm
    cases hm
    have h₂ : Keeps m₁ m₂ := modify hm₂ fun _ => rfl
    have h₃ : Keeps m₂ m₃ := modify hm₃ fun _ => rfl
    exact ((h₁.trans h₂).trans h₃).trans (setList m₃ _ _ _)

private theorem wakeLoop {wake : Process → Process} (hwake : ∀ p, (wake p).fdTable = p.fdTable)
    {current fuel iter : Nat}
    (hm : Manager.wakeLoop wake current fuel iter m = some m') : Keeps m m' := by
  induction fuel generalizing iter m with
  | zero => simp [Manager.wakeLoop] at hm
  | succ fuel ih =>
    simp only [Manager.wakeLoop, Option.bind_eq_bind, Option.bind_eq_some_iff] at hm
    obtain ⟨m₁, hm₁, next, -, hm⟩ := hm
    have h₁ : Keeps m m₁ := modifyProc hm₁ hwake
    split at hm
    · cases hm
      exact h₁
    · exact h₁.trans (ih hm)

private theorem wakeUp {wake : Process → Process} (hwake : ∀ p, (wake p).fdTable = p.fdTable)
    (hm : m.wakeUp wake = some m') :
    Keeps m m' := by
  simp only [Manager.wakeUp, Option.bind_eq_bind, Option.bind_eq_some_iff] at hm
  obtain ⟨c, -, hm⟩ := hm
  exact wakeLoop hwake hm

private theorem dispatch (hm : m.dispatch a = some (m', o)) : Keeps m m' := by
  simp only [Manager.dispatch, Option.bind_eq_bind, Option.bind_eq_some_iff, Option.some.injEq, Prod.mk.injEq] at hm
  obtain ⟨p, -, m₁, hm₁, rfl, -⟩ := hm
  have h₁ : Keeps m m₁ := modifyProc hm₁ fun _ => rfl
  exact h₁.trans (setList m₁ _ _ _)

private theorem switchProcess (hm : m.switchProcess = some (m', o)) : Keeps m m' := by
  unfold Manager.switchProcess at hm
  split at hm
  · cases hm
    exact refl m
  · split at hm
    · exact dispatch hm
    · simp only [Option.bind_eq_bind, Option.bind_eq_some_iff] at hm
      obtain ⟨m₁, hm₁, a, -, hm⟩ := hm
      have h₁ : Keeps m m₁ := by
        refine modifyProc hm₁ ?_
        intro p
        unfold setReady
        split <;> rfl
      exact h₁.trans (dispatch hm)

private theorem removeFromLinkedList (hm : m.removeFromLinkedList a = some m') : Keeps m m' := by
  simp only [Manager.removeFromLinkedList, Option.bind_eq_bind, Option.bind_eq_some_iff] at hm
  obtain ⟨n, -, m₂, hm₂, hm⟩ := hm
  have h₂ : Keeps _ m₂ := modifyIf hm₂ fun _ => rfl
  have h₃ : Keeps m₂ m' := modifyIf hm fun _ => rfl
  exact ((setList m _ _ _).trans h₂).trans h₃

private theorem freeProcNode (m : Manager) (a : Nat) : Keeps m (m.freeProcNode a) := by
  refine ⟨?_, rfl, rfl⟩
  intro c q hq
  rw [Manager.proc, Manager.freeProcNode, node_erase] at hq
  split at hq
  · cases hq
  · exact ⟨q, hq, rfl⟩

private theorem wakeWaiting_fdTable (pid : UInt32) (p : Process) : (wakeWaiting pid p).fdTable = p.fdTable := by
  unfold wakeWaiting
  split <;> rfl

private theorem wakeTerminal_fdTable (id : UInt32) (p : Process) : (wakeTerminal id p).fdTable = p.fdTable := by
  unfold wakeTerminal
  split <;> rfl

private theorem exitProc (hm : m.exitProc a = some (m', o)) : Keeps m m' := by
  simp only [Manager.exitProc, wakeUpWaitingProcesses, Option.bind_eq_bind, Option.bind_eq_some_iff, Option.some.injEq,
    Prod.mk.injEq] at hm
  obtain ⟨-, -, x, -, m₁, hm₁, c, -, b, -, p, -, m₂, hm₂, rfl, -⟩ := hm
  have h₁ : Keeps m m₁ := wakeUp (wakeWaiting_fdTable _) hm₁
  have h₂ : Keeps { m₁ with currentProcess := some b } m₂ := removeFromLinkedList hm₂
  exact ((h₁.trans (setList m₁ _ _ _)).trans h₂).trans (freeProcNode m₂ a)

private theorem setInputReady {r : Bool} (hm : m.setInputReady r = some m') : Keeps m m' := by
  simp only [Manager.setInputReady, Option.bind_eq_bind, Option.bind_eq_some_iff, Option.some.injEq] at hm
  obtain ⟨t, ht, rfl⟩ := hm
  refine ⟨fun c q hq => ⟨q, hq, rfl⟩, ?_, rfl⟩
  refine Vector.ext fun i hi => ?_
  rw [Manager.activeTerminal] at ht
  simp only [Vector.getElem_map, Vector.getElem_setIfInBounds]
  split
  · rename_i heq
    subst heq
    rw [Vector.getElem?_eq_getElem (by simpa using hi)] at ht
    cases ht
    rfl
  · rfl

end Keeps

/-! ### Steps -/

/-- What `m'` has of processes and terminals has the descriptors of `m`, but for a new process at `a` with the
descriptors `fdTable`. -/
structure Adds (a : Nat) (fdTable : Vector FileDescriptor MAX_LOCAL_FD) (m m' : Manager) : Prop where
  new : ∃ q, m'.proc a = some q ∧ q.fdTable = fdTable
  fresh : m.proc a = none
  proc : ∀ c q, m'.proc c = some q → c ≠ a → ∃ p, m.proc c = some p ∧ q.fdTable = p.fdTable
  terminals : m'.terminals.map Terminal.streams = m.terminals.map Terminal.streams
  terminalId : m'.activeTerminalId = m.activeTerminalId

private theorem Adds.trans {fdTable : Vector FileDescriptor MAX_LOCAL_FD} (h : Adds a fdTable m m') (h' : Keeps m' m'')
    (hnew : (m''.proc a).isSome) : Adds a fdTable m m'' := by
  obtain ⟨q, hq, heq⟩ := h.new
  obtain ⟨q', hq'⟩ := Option.isSome_iff_exists.1 hnew
  refine ⟨⟨q', hq', ?_⟩, h.fresh, ?_, h'.terminals.trans h.terminals, h'.terminalId.trans h.terminalId⟩
  · obtain ⟨p, hp, hpq⟩ := h'.proc a q' hq'
    rw [hq] at hp
    cases hp
    exact hpq.trans heq
  · intro c r hr hca
    obtain ⟨p', hp', heq'⟩ := h'.proc c r hr
    obtain ⟨p, hp, hpp⟩ := h.proc c p' hp' hca
    exact ⟨p, hp, heq'.trans hpp⟩

/-- A successful creation adds a process with the descriptors that `newProcess` stores. -/
private theorem createProcessFromElf_adds {stale : Process} (hm : m.createProcessFromElf a stale = some m') :
    ∃ p, m.newProcess stale = some p ∧ Adds a p.fdTable m m' := by
  obtain ⟨p, q, hp, hq, hpq⟩ := createProcessFromElf_fdTable hm
  refine ⟨p, hp, ?_⟩
  unfold Manager.createProcessFromElf at hm
  split at hm
  · cases hm
  rename_i hnone
  simp only [Option.bind_eq_bind, Option.bind_eq_some_iff] at hm
  obtain ⟨p', hp', m₂, hm₂, hm⟩ := hm
  obtain rfl : p = p' := Option.some.inj (hp.symm.trans hp')
  have hadd : Keeps _ m₂ := Keeps.addToLinkedList hm₂
  have hcurrent : Keeps m₂ m' := by
    split at hm
    · cases hm
      exact Keeps.refl _
    · exact Keeps.modifyProc hm fun _ => rfl
  have hfresh : m.proc a = none := by
    rw [Manager.proc, Option.not_isSome_iff_eq_none.1 hnone]
    rfl
  refine ⟨⟨q, hq, hpq⟩, hfresh, ?_, (hadd.trans hcurrent).terminals, (hadd.trans hcurrent).terminalId⟩
  intro c r hr hca
  obtain ⟨r', hr', heq⟩ := (hadd.trans hcurrent).proc c r hr
  refine ⟨r', ?_, heq⟩
  rw [← hr']
  show m.proc c = Option.map ProcessNode.proc ((m.nodes.insert a ⟨p, none, none⟩).lookup c)
  rw [AList.lookup_insert_ne hca]
  rfl

/-- The memory that an entry makes a process of, with the node. -/
def Manager.Event.creates : Manager.Event → Option (Nat × Process)
  | .create (.created a stale) => some (a, stale)
  | .execve (.created a stale) => some (a, stale)
  | _ => none

private theorem createProcess_keeps {c : Creation} (hc : ∀ a stale, c ≠ .created a stale)
    (hm : m.createProcess c = some m') :
    Keeps m m' := by
  cases c with
  | created a stale => exact absurd rfl (hc a stale)
  | failed pidTaken =>
    cases hm
    exact Keeps.of_nodes rfl rfl rfl

private theorem modifyProc_isSome {f : Process → Process} (hm : m.modifyProc c f = some m') (h : (m.proc a).isSome) :
    (m'.proc a).isSome := by
  obtain ⟨n, hn, rfl⟩ := modify_eq hm
  rw [Manager.proc, node_insert]
  split
  · rfl
  · exact h

private theorem switchProcess_isSome (hm : m.switchProcess = some (m', o)) (h : (m.proc a).isSome) :
    (m'.proc a).isSome := by
  have hdispatch : ∀ {m₁ : Manager} {b : Nat}, m₁.dispatch b = some (m', o) → (m₁.proc a).isSome →
      (m'.proc a).isSome := by
    intro m₁ b hm₁ h₁
    simp only [Manager.dispatch, Option.bind_eq_bind, Option.bind_eq_some_iff, Option.some.injEq, Prod.mk.injEq] at hm₁
    obtain ⟨p, -, m₂, hm₂, rfl, -⟩ := hm₁
    show (m₂.proc a).isSome
    exact modifyProc_isSome hm₂ h₁
  unfold Manager.switchProcess at hm
  split at hm
  · cases hm
    exact h
  · split at hm
    · exact hdispatch hm h
    · simp only [Option.bind_eq_bind, Option.bind_eq_some_iff] at hm
      obtain ⟨m₁, hm₁, b, -, hm⟩ := hm
      exact hdispatch hm (modifyProc_isSome hm₁ h)

/-- An entry that creates no process keeps the descriptors. -/
theorem step_keeps {e : Manager.Event} (hm : m.step e = some (m', o)) (he : e.creates = none) : Keeps m m' := by
  cases e with
  | create c =>
    rw [Manager.step] at hm
    split at hm
    · obtain ⟨m₁, hm₁, heq⟩ := Option.map_eq_some_iff.1 hm
      cases heq
      refine createProcess_keeps ?_ hm₁
      rintro a stale rfl
      cases he
    · cases hm
  | enableProcesses =>
    rw [Manager.step] at hm
    split at hm
    · cases hm
      exact Keeps.of_nodes rfl rfl rfl
    · cases hm
  | tick =>
    rw [Manager.step] at hm
    split at hm
    · split at hm
      · exact Keeps.switchProcess hm
      · cases hm
        exact Keeps.refl m
    · cases hm
  | newline =>
    rw [Manager.step] at hm
    split at hm
    · obtain ⟨m₁, hm₁, hm⟩ := Option.bind_eq_some_iff.1 hm
      obtain ⟨m₂, hm₂, heq⟩ := Option.map_eq_some_iff.1 hm
      cases heq
      exact (Keeps.setInputReady hm₁).trans (Keeps.wakeUp (Keeps.wakeTerminal_fdTable _) hm₂)
    · cases hm
  | read =>
    obtain ⟨⟨c, r⟩, -, hm⟩ := Option.bind_eq_some_iff.1 hm
    dsimp only at hm
    split at hm
    · cases hm
    · obtain ⟨m₁, hm₁, heq⟩ := Option.map_eq_some_iff.1 hm
      cases heq
      exact Keeps.modifyProc hm₁ fun _ => rfl
  | poll =>
    obtain ⟨⟨c, r⟩, -, hm⟩ := Option.bind_eq_some_iff.1 hm
    obtain ⟨t, -, hm⟩ := Option.bind_eq_some_iff.1 hm
    split at hm
    · split at hm
      · obtain ⟨m₁, hm₁, hm⟩ := Option.bind_eq_some_iff.1 hm
        obtain ⟨m₂, hm₂, heq⟩ := Option.map_eq_some_iff.1 hm
        cases heq
        exact (Keeps.setInputReady hm₁).trans (Keeps.modifyProc hm₂ fun _ => rfl)
      · obtain ⟨m₁, hm₁, hm⟩ := Option.bind_eq_some_iff.1 hm
        have h₁ : Keeps m m₁ := Keeps.modifyProc hm₁ fun _ => rfl
        exact h₁.trans (Keeps.switchProcess hm)
    · cases hm
  | execve c =>
    obtain ⟨⟨a, r⟩, -, hm⟩ := Option.bind_eq_some_iff.1 hm
    dsimp only at hm
    split at hm
    · cases hm
    · obtain ⟨m₁, hm₁, hm⟩ := Option.bind_eq_some_iff.1 hm
      refine Keeps.trans (createProcess_keeps ?_ hm₁) (Keeps.switchProcess hm)
      rintro a stale rfl
      cases he
  | exit =>
    obtain ⟨⟨a, r⟩, -, hm⟩ := Option.bind_eq_some_iff.1 hm
    dsimp only at hm
    split at hm
    · cases hm
    · obtain ⟨b, -, hm⟩ := Option.bind_eq_some_iff.1 hm
      exact Keeps.exitProc hm

/-- An entry that creates a process adds it with the descriptors that `newProcess` stores. -/
theorem step_adds {e : Manager.Event} {stale : Process} (hm : m.step e = some (m', o)) (he : e.creates = some (a, stale)) :
    ∃ p, m.newProcess stale = some p ∧ Adds a p.fdTable m m' := by
  cases e with
  | create c =>
    cases c with
    | failed _ => cases he
    | created a' stale' =>
      cases he
      rw [Manager.step] at hm
      split at hm
      · obtain ⟨m₁, hm₁, heq⟩ := Option.map_eq_some_iff.1 hm
        cases heq
        exact createProcessFromElf_adds hm₁
      · cases hm
  | execve c =>
    cases c with
    | failed _ => cases he
    | created a' stale' =>
      cases he
      obtain ⟨⟨b, r⟩, -, hm⟩ := Option.bind_eq_some_iff.1 hm
      dsimp only at hm
      split at hm
      · cases hm
      · obtain ⟨m₁, hm₁, hm⟩ := Option.bind_eq_some_iff.1 hm
        obtain ⟨p, hp, hadds⟩ := createProcessFromElf_adds hm₁
        refine ⟨p, hp, hadds.trans (Keeps.switchProcess hm) ?_⟩
        obtain ⟨q, hq, -⟩ := hadds.new
        exact switchProcess_isSome hm (by rw [hq]; rfl)
  | _ => cases he

end DBolOS.Proc
