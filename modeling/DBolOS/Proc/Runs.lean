import DBolOS.Lib.Run
import DBolOS.Proc.Refines

/-!
# Runs of the process manager

What holds in every state reached from boot: which processes run, what the current process is, and whom a waiting
process waits for.
-/

namespace DBolOS.Proc

open Manager

/-! ### Runs -/

/-- The entries `es` lead from `m` to `m'`. -/
def Manager.Reaches (m : Manager) (es : List Event) (m' : Manager) : Prop :=
  Machine.Run exec (fun _ _ => True) m es m'

/-- `a` is in the list from `process_list_head`. -/
def Manager.Listed (m : Manager) (a : Nat) : Prop := Linked.Visits m.next m.processListHead a

variable {m m' : Manager} {s s' : Sched} {a b c : Nat} {e : Event} {o : Outcome} {es : List Event}

theorem Manager.reaches_iff : m.Reaches es m' ↔ es.foldlM exec m = some m' := Machine.run_iff_foldlM

theorem Abs.listed_iff (h : Abs m s) : m.Listed a ↔ a ∈ s.order := h.list.visits_iff

theorem exec_eq (h : m.exec e = some m') : ∃ o, m.step e = some (m', o) := by
  obtain ⟨⟨_, o⟩, hr, rfl⟩ := Option.map_eq_some_iff.1 h
  exact ⟨o, hr⟩

/-- The ring without processes. -/
def Sched.boot : Sched where
  order := []
  proc := fun _ => .zero
  current := none
  terminalId := 1
  inputReady := false

theorem Abs.boot : Abs Manager.boot Sched.boot :=
  ⟨Linked.DList.nil _ _, fun _ => rfl, rfl, rfl, _, rfl, rfl, rfl⟩

/-- An invariant of the ring holds in every state that a run reaches. -/
theorem Abs.run_inv {I : Sched → Prop} (hI : ∀ s e o s', I s → s.order.Nodup → s.Step e o s' → I s')
    (hboot : I Sched.boot) (hrun : Manager.boot.Reaches es m) : ∃ s, Abs m s ∧ I s := by
  refine Machine.Run.inv (I := fun m => ∃ s, Abs m s ∧ I s) ?_ hrun ⟨_, Abs.boot, hboot⟩
  rintro m e m' ⟨s, h, hs⟩ - hexec
  obtain ⟨o, hstep⟩ := exec_eq hexec
  obtain ⟨s', hstep', h'⟩ := h.step hstep
  exact ⟨s', h', hI s e o s' hs h.list.nodup hstep'⟩

/-! ### What a switch changes -/

namespace Sched

theorem Switch.order (h : s.Switch o s') : s'.order = s.order := by
  cases h <;> rfl

theorem Switch.inputReady (h : s.Switch o s') : s'.inputReady = s.inputReady := by
  cases h <;> rfl

theorem Switch.terminalId (h : s.Switch o s') : s'.terminalId = s.terminalId := by
  cases h <;> rfl

/-- A switch ends with a jump to a process of the ring, unless there is none. -/
theorem Switch.target (h : s.Switch o s') :
    (s.order = [] ∧ o = .stays ∧ s' = s) ∨
      ∃ a was, o = .dispatches a was ∧ a ∈ s.order ∧ s'.current = some a ∧ (s'.proc a).state = .running := by
  cases h with
  | empty horder => exact Or.inl ⟨horder, rfl, rfl⟩
  | first hcurrent horder => exact Or.inr ⟨_, _, rfl, by simp [horder], rfl, by simp [setRunning]⟩
  | @next a c rest skipped after hcurrent horder hsplit hskipped hready =>
    refine Or.inr ⟨a, _, rfl, horder.mem_iff.2 ?_, rfl, by simp [setRunning]⟩
    have hmem : a ∈ rest ++ [c] := by simp [hsplit]
    simp only [List.mem_append, List.mem_cons, List.not_mem_nil, or_false] at hmem ⊢
    tauto

/-- Of a process a switch changes nothing but the state, and that only between `READY` and `RUNNING` when a process is
current. -/
theorem Switch.proc (h : s.Switch o s') (b : Nat) :
    ∃ st, s'.proc b = { s.proc b with state := st } ∧ (st = (s.proc b).state ∨ st = .ready ∨ st = .running) := by
  have hready : ∀ p : Process, ∃ st, setReady p = { p with state := st } ∧
      (st = p.state ∨ st = .ready ∨ st = .running) := by
    intro p
    unfold setReady
    split
    · exact ⟨_, rfl, by simp⟩
    · exact ⟨p.state, rfl, by simp⟩
  have hself : ∃ st, s.proc b = { s.proc b with state := st } ∧
      (st = (s.proc b).state ∨ st = .ready ∨ st = .running) := ⟨(s.proc b).state, rfl, by simp⟩
  cases h with
  | empty => exact hself
  | @first a rest hcurrent horder =>
    rcases eq_or_ne b a with rfl | hb
    · exact ⟨.running, by simp [setRunning], by simp⟩
    · simpa [update_proc_ne hb] using hself
  | @next a c rest skipped after hcurrent horder hsplit hskipped hready' =>
    rcases eq_or_ne b a with rfl | hb
    · refine ⟨.running, ?_, by simp⟩
      rcases eq_or_ne b c with rfl | hbc
      · obtain ⟨st, hst, -⟩ := hready (s.proc b)
        simp [setRunning, hst]
      · simp [setRunning, update_proc_ne hbc]
    · rcases eq_or_ne b c with rfl | hbc
      · simpa [update_proc_ne hb] using hready (s.proc b)
      · simpa [update_proc_ne hb, update_proc_ne hbc] using hself

/-- The successor that `exit_proc` chooses stays in the ring unless the exiting process is the only one. -/
theorem exit_mem_iff {rest : List Nat} (hnodup : s.order.Nodup) (horder : s.order ~r (c :: rest))
    (hnext : (rest ++ [c]).head? = some a) : a ∈ s.order.erase c ↔ ∃ b ∈ s.order, b ≠ c := by
  have hmem : ∀ b, b ∈ s.order ↔ b = c ∨ b ∈ rest := fun b => by rw [horder.mem_iff, List.mem_cons]
  have hc : c ∉ rest := (List.nodup_cons.1 (horder.nodup_iff.1 hnodup)).1
  rw [hnodup.mem_erase_iff]
  constructor
  · rintro ⟨hac, ha⟩
    exact ⟨a, ha, hac⟩
  · rintro ⟨b, hb, hbc⟩
    cases rest with
    | nil =>
      rw [hmem] at hb
      simp [hbc] at hb
    | cons x rest =>
      obtain rfl : x = a := by simpa using hnext
      have hxc : x ≠ c := by
        rintro rfl
        exact hc List.mem_cons_self
      exact ⟨hxc, (hmem x).2 (Or.inr List.mem_cons_self)⟩

/-! ### Who runs -/

/-- Only the current process is `RUNNING`; before the first one is current, all are `READY`. -/
structure Tidy (s : Sched) : Prop where
  running : ∀ b ∈ s.order, (s.proc b).state = .running → s.current = some b
  fresh : s.current = none → ∀ b ∈ s.order, (s.proc b).state = .ready

theorem Switch.tidy (hs : s.Tidy) (h : s.Switch o s') : s'.Tidy := by
  cases h with
  | empty => exact hs
  | @first a rest hcurrent horder =>
    refine ⟨?_, by simp⟩
    intro b hb hrun
    rcases eq_or_ne b a with rfl | hba
    · rfl
    · simp [update_proc_ne hba] at hrun
      rw [hs.fresh hcurrent b hb] at hrun
      cases hrun
  | @next a c rest skipped after hcurrent horder hsplit hskipped hready =>
    refine ⟨?_, by simp⟩
    intro b hb hrun
    rcases eq_or_ne b a with rfl | hba
    · rfl
    · rw [setCurrent_proc, update_proc_ne hba] at hrun
      rcases eq_or_ne b c with rfl | hbc
      · simp only [update_proc_self, setReady] at hrun
        split at hrun <;> simp_all
      · rw [update_proc_ne hbc] at hrun
        have := hs.running b hb hrun
        rw [hcurrent] at this
        exact absurd (Option.some.inj this).symm hbc

theorem Tidy.update {f : Process → Process} (hs : s.Tidy) (hcurrent : s.current = some c)
    (hf : (f (s.proc c)).state = .running → (s.proc c).state = .running) : (s.update c f).Tidy := by
  refine ⟨?_, fun h => by simp [hcurrent] at h⟩
  intro b hb hrun
  rcases eq_or_ne b c with rfl | hbc
  · exact hcurrent
  · rw [update_proc_ne hbc] at hrun
    exact hs.running b hb hrun

theorem Tidy.enqueue {p : Process} (hs : s.Tidy) (hp : s.Fresh a p) : (s.enqueue a p).Tidy := by
  have hmem : ∀ b ∈ (s.enqueue a p).order, b = a ∨ (b ≠ a ∧ b ∈ s.order) := by
    intro b hb
    rcases eq_or_ne b a with rfl | hba
    · exact Or.inl rfl
    · exact Or.inr ⟨hba, by simpa [hba] using hb⟩
  constructor
  · intro b hb hrun
    rcases hmem b hb with rfl | ⟨hba, hb⟩
    · simp [hp.state] at hrun
    · rw [enqueue_proc_ne hba] at hrun
      exact hs.running b hb hrun
  · intro hcurrent b hb
    rcases hmem b hb with rfl | ⟨hba, hb⟩
    · simp [hp.state]
    · rw [enqueue_proc_ne hba]
      exact hs.fresh hcurrent b hb

private theorem Tidy.wake {f : Process → Process} (hs : s.Tidy) (hcurrent : s.current = some c)
    (hf : ∀ p, (f p).state = .running → p.state = .running) : (s.wake f).Tidy :=
  ⟨fun b hb hrun => hs.running b hb (hf _ hrun), fun h => by simp [hcurrent] at h⟩

private theorem wakeTerminal_running {id : UInt32} {p : Process} (h : (wakeTerminal id p).state = .running) :
    p.state = .running := by
  unfold wakeTerminal at h
  split at h
  · cases h
  · exact h

theorem wakeWaiting_running {pid : UInt32} {p : Process} (h : (wakeWaiting pid p).state = .running) :
    p.state = .running := by
  unfold wakeWaiting at h
  split at h
  · cases h
  · exact h

theorem Step.tidy (hs : s.Tidy) (hnodup : s.order.Nodup) (h : s.Step e o s') : s'.Tidy := by
  cases h with
  | create hcurrent hfresh => exact hs.enqueue hfresh
  | createFailed => exact hs
  | enableProcesses => exact hs
  | idle => exact hs
  | tick hreads hswitch => exact hswitch.tidy hs
  | newline hruns =>
    have hwake : (s.wake (wakeTerminal s.terminalId)).Tidy := hs.wake hruns.current (fun _ hp => wakeTerminal_running hp)
    exact ⟨hwake.running, hwake.fresh⟩
  | read hruns => exact hs.update hruns.current id
  | pollReady hruns =>
    have hupdate : (s.update _ (setReading false)).Tidy := hs.update hruns.current id
    exact ⟨hupdate.running, hupdate.fresh⟩
  | pollWait hruns hinput hswitch => exact hswitch.tidy (hs.update hruns.current (fun h => by cases h))
  | execve hruns hfresh hswitch =>
    exact hswitch.tidy ((hs.enqueue hfresh).update hruns.current (fun h => by cases h))
  | execveFailed hruns hswitch => exact hswitch.tidy hs
  | exit hruns horder hnext =>
    refine ⟨?_, by simp⟩
    intro b hb hrun
    -- the process that ran is the one that left
    have hb' : b ∈ s.order := List.mem_of_mem_erase hb
    have hcurrent := hs.running b hb' (wakeWaiting_running hrun)
    rw [hruns.current] at hcurrent
    cases hcurrent
    exact absurd hb hnodup.not_mem_erase

end Sched

end DBolOS.Proc
