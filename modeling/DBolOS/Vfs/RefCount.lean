import DBolOS.Lib.Run
import DBolOS.Vfs.Descriptors

/-!
# Reference counts

The references to an entry of the table of open files are the used slots of processes and the terminals that point to
it.  `attach_process_to_terminal` stores three references without counting them: the counts are right in a whole run
exactly when it creates no process (`counted_iff`).
-/

namespace DBolOS.Vfs

open Fat (Volume)
open Proc (Process FileDescriptor Manager Terminal Keeps Adds MAX_LOCAL_FD)

def pointsTo (g : Nat) (d : FileDescriptor) : Bool := d.isUsed && decide (d.globalFd = some g)

def slotsTo (g : Nat) (p : Process) : Nat := p.fdTable.toList.countP (pointsTo g)

def terminalRefs (g : Nat) (t : Terminal) : Nat :=
  if t.id = 0 then 0 else [t.stdin, t.stdout, t.stderr].count (some g)

namespace Kernel

/-- The used slots of live processes, and the terminals, that point to entry `g`. -/
def references (k : Kernel) (g : Nat) : Nat :=
  (k.manager.nodes.keys.map fun c => (k.manager.proc c).elim 0 (slotsTo g)).sum +
    (k.manager.terminals.toList.map (terminalRefs g)).sum

/-- The count of each used entry is the number of references to it. -/
def Counted (k : Kernel) : Prop :=
  ∀ g x, k.globalFdTable[g]? = some x → x.isUsed = true → x.refCount = (k.references g : Int)

/-- An entry is cleared only when nothing points to it any more, and reused only when nothing did. -/
def Released (k k' : Kernel) : Prop :=
  ∀ g x x', k.globalFdTable[g]? = some x → k'.globalFdTable[g]? = some x' →
    (x.isUsed = true → x'.isUsed = false → k'.references g = 0) ∧
      (x.isUsed = false → x'.isUsed = true → k.references g = 0)

/-- The memory that an entry makes a process of, with the node. -/
def Event.creates : Event → Option (Nat × Process)
  | .manager e => e.creates
  | .syscall _ => none

variable {k k' : Kernel} {v : Volume} {a c g : Nat}

/-! ### Before the first process -/

/-- No process yet, and the tables as `boot` left them. -/
structure Fresh (k : Kernel) : Prop where
  keeps : Keeps Manager.boot k.manager
  table : ∀ g, k.globalFdTable[g]? = if g < MAX_FD then some (bootEntry g) else none

private theorem boot_fresh {k₀ : Kernel} (h : boot v = .ok k₀) : Fresh k₀ := by
  rw [boot_eq] at h
  cases h
  refine ⟨Keeps.refl _, ?_⟩
  intro g
  rw [Vector.getElem?_ofFn]
  split
  · rfl
  · rfl

private theorem Fresh.proc_eq (h : Fresh k) (c : Nat) : k.manager.proc c = none := by
  by_contra hne
  obtain ⟨q, hq⟩ := Option.ne_none_iff_exists'.1 hne
  obtain ⟨p, hp, -⟩ := h.keeps.proc c q hq
  cases hp

/-- The references of a terminal are among what scheduling keeps. -/
private theorem terminalRefs_eq {m m' : Manager}
    (h : m'.terminals.map Terminal.streams = m.terminals.map Terminal.streams)
    (g : Nat) : (m'.terminals.toList.map (terminalRefs g)).sum = (m.terminals.toList.map (terminalRefs g)).sum := by
  let refs : UInt32 × Option Nat × Option Nat × Option Nat → Nat := fun s =>
    if s.1 = 0 then 0 else [s.2.1, s.2.2.1, s.2.2.2].count (some g)
  have hrefs : terminalRefs g = refs ∘ Terminal.streams := rfl
  have hlist := congrArg Vector.toList h
  rw [Vector.toList_map, Vector.toList_map] at hlist
  rw [hrefs, ← List.map_map, ← List.map_map, hlist]

private theorem boot_terminalRefs (g : Nat) :
    (Manager.boot.terminals.toList.map (terminalRefs g)).sum = if 3 ≤ g ∧ g < 6 then 1 else 0 := by
  have hlist : Manager.boot.terminals.toList.map (terminalRefs g) =
      [[some 3, some 4, some 5].count (some g), 0, 0, 0] := rfl
  rw [hlist]
  by_cases hg : 3 ≤ g ∧ g < 6
  · rw [if_pos hg]
    obtain ⟨h₃, h₆⟩ := hg
    interval_cases g <;> rfl
  · rw [if_neg hg]
    have h₃ : g ≠ 3 := by omega
    have h₄ : g ≠ 4 := by omega
    have h₅ : g ≠ 5 := by omega
    simp [h₃.symm, h₄.symm, h₅.symm]

private theorem Fresh.counted (h : Fresh k) : Counted k := by
  intro g x hx hused
  have hslots : (k.manager.nodes.keys.map fun c => (k.manager.proc c).elim 0 (slotsTo g)).sum = 0 := by
    apply List.sum_eq_zero
    intro n hn
    obtain ⟨c, -, rfl⟩ := List.mem_map.1 hn
    rw [h.proc_eq]
    rfl
  unfold references
  rw [hslots, Nat.zero_add, terminalRefs_eq h.keeps.terminals, boot_terminalRefs]
  rw [h.table] at hx
  split at hx
  · obtain rfl := Option.some.inj hx
    unfold bootEntry at hused ⊢
    split_ifs at hused ⊢ <;> first | rfl | omega
  · cases hx

/-- Where nothing ran yet only the process manager is entered. -/
private theorem Fresh.exec_eq (h : Fresh k) {e : Event} (hk : k.exec e = some k') :
    ∃ e' m o, e = .manager e' ∧ k.manager.step e' = some (m, o) ∧ k' = { k with manager := m } := by
  obtain hmanager | ⟨call, r, rfl, hreading, -⟩ := Kernel.exec_eq hk
  · exact hmanager
  · exfalso
    apply hreading
    unfold Manager.reading
    cases k.manager.currentProcess with
    | none => rfl
    | some c => simp [h.proc_eq c]

private theorem Fresh.exec (h : Fresh k) {e : Event} (hk : k.exec e = some k') (he : e.creates = none) : Fresh k' := by
  obtain ⟨e', m, o, rfl, hm, rfl⟩ := h.exec_eq hk
  exact ⟨h.keeps.trans (Proc.step_keeps hm he), h.table⟩

private theorem Fresh.released (h : Fresh k) {e : Event} (hk : k.exec e = some k') : Released k k' := by
  obtain ⟨e', m, o, -, -, rfl⟩ := h.exec_eq hk
  intro g x x' hx hx'
  obtain rfl := Option.some.inj (hx.symm.trans hx')
  constructor
  · intro hused hfree
    rw [hused] at hfree
    cases hfree
  · intro hfree hused
    rw [hused] at hfree
    cases hfree

/-- A slot that points to an entry is a reference to it. -/
private theorem one_le_slotsTo {p : Process} (fd : Fin MAX_LOCAL_FD) (hused : (p.fdTable.get fd).isUsed = true)
    (hg : (p.fdTable.get fd).globalFd = some g) : 1 ≤ slotsTo g p := by
  unfold slotsTo
  rw [Nat.one_le_iff_ne_zero, ← Nat.pos_iff_ne_zero, List.countP_pos_iff]
  refine ⟨p.fdTable.get fd, ?_, ?_⟩
  · rw [Vector.mem_toList_iff, Vector.get_eq_getElem]
    exact Vector.getElem_mem _
  · unfold pointsTo
    rw [hused, hg]
    simp

/-- The first process holds an uncounted reference to the input device of its terminal. -/
private theorem Fresh.not_counted (h : Fresh k) {e : Event} (hk : k.exec e = some k') (he : e.creates ≠ none) :
    ¬ Counted k' := by
  obtain ⟨e', m, o, rfl, hm, rfl⟩ := h.exec_eq hk
  obtain ⟨⟨a, stale⟩, hcreates⟩ := Option.ne_none_iff_exists'.1 he
  obtain ⟨p, hp, hadds⟩ := Proc.step_adds hm hcreates
  obtain ⟨q, hq, hqp⟩ := hadds.new
  have hactive : k.manager.activeTerminal.map Terminal.streams = some (1, some 3, some 4, some 5) :=
    Proc.activeTerminal_streams h.keeps.terminals h.keeps.terminalId
  obtain ⟨t, ht, hstreams⟩ := Option.map_eq_some_iff.1 hactive
  obtain ⟨hid, hstdin, -⟩ : t.id = 1 ∧ t.stdin = some 3 ∧ t.stdout = some 4 ∧ t.stderr = some 5 := by
    simpa [Terminal.streams] using hstreams
  -- slot 0 of the new process
  have hslot : q.fdTable.get ⟨0, by decide⟩ = { FileDescriptor.zero with isUsed := true, globalFd := some 3 } := by
    rw [hqp, Proc.newProcess_get hp, if_pos (by decide)]
    unfold Proc.stdio
    rw [ht]
    simp [h.keeps.terminalId, Manager.boot, hid, hstdin]
  have hone : 1 ≤ slotsTo 3 q := one_le_slotsTo ⟨0, by decide⟩ (by rw [hslot]) (by rw [hslot])
  have hmem : a ∈ m.nodes.keys := by
    rw [← AList.mem_keys, ← AList.lookup_isSome]
    obtain ⟨n, hn, -⟩ := Proc.node_of_proc hq
    rw [Manager.node] at hn
    rw [hn]
    rfl
  have hslots : 1 ≤ (m.nodes.keys.map fun c => (m.proc c).elim 0 (slotsTo 3)).sum := by
    apply hone.trans
    apply List.le_sum_of_mem
    rw [List.mem_map]
    refine ⟨a, hmem, ?_⟩
    rw [hq]
    rfl
  intro hcounted
  have hcount := hcounted 3 (bootEntry 3) ((h.table 3).trans (if_pos (by decide))) rfl
  have href : references { k with manager := m } 3 =
      (m.nodes.keys.map fun c => (m.proc c).elim 0 (slotsTo 3)).sum + 1 := by
    unfold references
    rw [terminalRefs_eq (hadds.terminals.trans h.keeps.terminals), boot_terminalRefs]
    rfl
  rw [href] at hcount
  have hentry : (bootEntry 3).refCount = 1 := rfl
  omega

/-! ### Runs -/

private theorem Fresh.run {es : List Event} (hrun : Machine.Run Kernel.exec (fun _ _ => True) k es k') (h : Fresh k)
    (hes : ∀ e ∈ es, e.creates = none) : Fresh k' := by
  induction hrun with
  | nil => exact h
  | cons _ hstep _ ih =>
    apply ih
    · exact h.exec hstep (hes _ List.mem_cons_self)
    · intro e he
      exact hes e (List.mem_cons_of_mem _ he)

/-- Along a run from boot the counts are right in every state, and entries are cleared and reused only without
references, exactly when the run creates no process. -/
theorem counted_iff {k₀ : Kernel} {es : List Event} (h₀ : boot v = .ok k₀)
    (hrun : Machine.Run exec (fun _ _ => True) k₀ es k) :
    ((∀ pre suf t, es = pre ++ suf → Machine.Run exec (fun _ _ => True) k₀ pre t → Counted t) ∧
        ∀ pre e suf t t', es = pre ++ e :: suf → Machine.Run exec (fun _ _ => True) k₀ pre t → t.exec e = some t' →
          Released t t') ↔
      ∀ e ∈ es, e.creates = none := by
  have hiff := hrun.forall_prefix_iff (P := Fresh) (R := Counted) (Q := fun _ e => e.creates = none)
    (fun k h => h.counted)
    (by
      intro t e t' ht _ hstep
      by_cases he : e.creates = none
      · have ht' := ht.exec hstep he
        exact ⟨⟨fun _ => he, fun _ => ht'.counted⟩, fun _ => ht'⟩
      · have ht' := ht.not_counted hstep he
        exact ⟨⟨fun hc => absurd hc ht', fun hc => absurd hc he⟩, fun hc => absurd hc ht'⟩)
    (boot_fresh h₀)
  constructor
  · intro ⟨hcounted, _⟩ e he
    obtain ⟨pre, suf, rfl⟩ := List.append_of_mem he
    obtain ⟨t, t', hpre, -⟩ := hrun.split
    exact hiff.1 hcounted pre e suf t rfl hpre
  · intro hcreates
    refine ⟨hiff.2 fun pre e suf t hes _ => hcreates e (by simp [hes]), ?_⟩
    intro pre e suf t t' hes hpre hstep
    have hfresh : Fresh t := Fresh.run hpre (boot_fresh h₀) fun e he => hcreates e (by simp [hes, he])
    exact hfresh.released hstep

/-- `kmain` creates the first process. -/
def firstProcess : Event := .manager (.create (.created 10 .zero))

private theorem exec_firstProcess (k₀ : Kernel) (h₀ : boot v = .ok k₀) : ∃ k, k₀.exec firstProcess = some k := by
  rw [boot_eq] at h₀
  cases h₀
  have hstep : (Manager.boot.step (.create (.created 10 .zero))).isSome = true := rfl
  obtain ⟨⟨m, o⟩, hm⟩ := Option.isSome_iff_exists.1 hstep
  refine ⟨⟨m, Vector.ofFn fun g => bootEntry g, v⟩, ?_⟩
  show (Fault.process.of (Manager.boot.step (.create (.created 10 .zero))) >>= _).toOption = _
  rw [hm]
  rfl

/-- The first process breaks the counts. -/
theorem first_process_not_counted : ∃ k₀ k, boot blankVolume = .ok k₀ ∧
    Machine.Run exec (fun _ _ => True) k₀ [firstProcess] k ∧ ¬ Counted k := by
  have h₀ := boot_eq blankVolume
  obtain ⟨k, hk⟩ := exec_firstProcess _ h₀
  refine ⟨_, k, h₀, Machine.Run.single trivial hk, ?_⟩
  exact (boot_fresh h₀).not_counted hk (by decide)

/-- The first process takes no memory: the counts stay right. -/
theorem counted_iff_failedCreation : ∃ k₀ k, boot blankVolume = .ok k₀ ∧
    Machine.Run exec (fun _ _ => True) k₀ [.manager (.create (.failed true)), .manager .enableProcesses] k ∧
      Counted k := by
  have h₀ := boot_eq blankVolume
  have hrun : Machine.Run exec (fun _ _ => True) (⟨Manager.boot, Vector.ofFn fun g => bootEntry g, blankVolume⟩ : Kernel)
      [.manager (.create (.failed true)), .manager .enableProcesses]
      ⟨{ Manager.boot with nextPid := 2, runProcesses := true }, Vector.ofFn fun g => bootEntry g, blankVolume⟩ :=
    Machine.Run.cons trivial rfl (Machine.Run.single trivial rfl)
  refine ⟨_, _, h₀, hrun, ?_⟩
  exact ((counted_iff h₀ hrun).2 (by decide)).1 _ [] _ (List.append_nil _).symm hrun

end Kernel

end DBolOS.Vfs
